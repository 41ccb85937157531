import EscapeAnalysis.Merge.Analysis
import EscapeAnalysis.Proofs.Availability
import EscapeAnalysis.Proofs.Webs

/-!
# What the merge analysis establishes

The description of a merge is read off the body once and for all; the analysis adds its leaves and
its obstacle. For a web without an obstacle the leaves of every merge are those of its inputs, and
no use of the merge is in the way (`MergeAnalysis.Settled`). What is found of one web does not
depend on the others (`MergeAnalysis.Progress`).
-/

namespace EscapeAnalysis

open List SideTable

theorem findSome?_congr {α β : Type} {f g : α → Option β} :
    ∀ {l : List α}, (∀ a ∈ l, f a = g a) → l.findSome? f = l.findSome? g
  | [], _ => rfl
  | a :: l, h => by
    rw [List.findSome?_cons, List.findSome?_cons, h a (.head _),
      findSome?_congr fun b hb => h b (.tail _ hb)]

namespace MergeDesc

/-- The part of a description that is read off the body. -/
def core (d : MergeDesc) : InstId × BlockId × List (BlockId × MergeInput) :=
  (d.phi, d.block, d.inputs)

end MergeDesc

namespace Merges

variable {m m' m'' : Merges} {phi child : InstId} {keys : SlotTable .inst Inst} {g : Graph}
  {l : List InstId}

/-- The same merges with the same inputs. -/
def SameCore (m m' : Merges) : Prop :=
  ∀ phi, (m.get? phi).map MergeDesc.core = (m'.get? phi).map MergeDesc.core

namespace SameCore

theorem refl (m : Merges) : m.SameCore m := fun _ => rfl

section

variable (h : m.SameCore m')
include h

theorem trans (h' : m'.SameCore m'') : m.SameCore m'' :=
  fun phi => (h phi).trans (h' phi)

theorem symm : m'.SameCore m := fun phi => (h phi).symm

theorem core_desc (phi : InstId) : (m.desc phi).core = (m'.desc phi).core := by
  have hphi := h phi
  simp only [desc]
  revert hphi
  rcases m.get? phi with _ | d <;> rcases m'.get? phi with _ | d' <;> simp

theorem inputs (phi : InstId) : (m.desc phi).inputs = (m'.desc phi).inputs :=
  congrArg (·.2.2) (h.core_desc phi)

theorem block (phi : InstId) : (m.desc phi).block = (m'.desc phi).block :=
  congrArg (·.2.1) (h.core_desc phi)

theorem children (phi : InstId) : m.children phi = m'.children phi := by
  simp only [Merges.children, MergeDesc.children, h.inputs phi]

theorem mem_keys : phi ∈ m.keys ↔ phi ∈ m'.keys := by
  have hphi := h phi
  simp only [mem_keys_iff]
  revert hphi
  rcases m.get? phi with _ | d <;> rcases m'.get? phi with _ | d' <;> simp

end

end SameCore

def leavesOf (m : Merges) (inputs : List (BlockId × MergeInput)) : List Leaf :=
  inputs.flatMap fun e => m.inputLeaves e.2

def shapesOf (g : Graph) (m : Merges) (inputs : List (BlockId × MergeInput)) : Shapes :=
  if inputs.all fun e => m.inputKnown e.2 then .ofLeaves g (m.leavesOf inputs) else .unknown

/-- The description of a merge with the leaves of its inputs. -/
def summary (g : Graph) (m : Merges) (phi : InstId) : MergeDesc :=
  { m.desc phi with
    leaves := m.leavesOf (m.desc phi).inputs
    shapes := m.shapesOf g (m.desc phi).inputs }

theorem summarize_eq (g : Graph) (m : Merges) (phi : InstId) :
    m.summarize g phi = m.insert phi (m.summary g phi) := rfl

/-- The description of a merge sums up its inputs. -/
structure Summarized (g : Graph) (m : Merges) (phi : InstId) : Prop where
  leaves : (m.desc phi).leaves = m.leavesOf (m.desc phi).inputs
  shapes : (m.desc phi).shapes = m.shapesOf g (m.desc phi).inputs

theorem leavesOf_congr {inputs} (g : Graph)
    (hc : ∀ e ∈ inputs, ∀ child, e.2 = .phi child →
      (m.desc child).leaves = (m'.desc child).leaves ∧
        (m.desc child).shapes = (m'.desc child).shapes) :
    m.leavesOf inputs = m'.leavesOf inputs ∧ m.shapesOf g inputs = m'.shapesOf g inputs := by
  have hinput : ∀ e ∈ inputs, m.inputLeaves e.2 = m'.inputLeaves e.2 ∧
      m.inputKnown e.2 = m'.inputKnown e.2 := by
    rintro ⟨b, i⟩ he
    cases i with
    | phi child =>
      obtain ⟨hl, hs⟩ := hc _ he child rfl
      simp [inputLeaves, inputKnown, hl, hs]
    | _ => exact ⟨rfl, rfl⟩
  have hleaves : m.leavesOf inputs = m'.leavesOf inputs := by
    rw [leavesOf, leavesOf, flatMap_def, flatMap_def,
      map_congr_left fun e he => (hinput e he).1]
  have hknown : (inputs.all fun e => m.inputKnown e.2) = inputs.all fun e => m'.inputKnown e.2 := by
    rw [Bool.eq_iff_iff, all_eq_true, all_eq_true]
    exact forall₂_congr fun e he => by rw [(hinput e he).2]
  exact ⟨hleaves, by rw [shapesOf, shapesOf, hknown, hleaves]⟩

theorem mem_children {b} (h : (b, .phi child) ∈ (m.desc phi).inputs) : child ∈ m.children phi :=
  mem_filterMap.2 ⟨_, h, rfl⟩

theorem Summarized.congr (h : m.Summarized g phi) (hs : m'.SameCore m)
    (hd : ∀ q, q = phi ∨ q ∈ m.children phi → (m'.desc q).leaves = (m.desc q).leaves ∧ (m'.desc
      q).shapes = (m.desc q).shapes) : m'.Summarized g phi := by
  have hc : m'.leavesOf (m.desc phi).inputs = m.leavesOf (m.desc phi).inputs ∧
      m'.shapesOf g (m.desc phi).inputs = m.shapesOf g (m.desc phi).inputs :=
    leavesOf_congr g fun e he child hec =>
      hd child (.inr (mem_children (b := e.1) (hec ▸ he)))
  obtain ⟨hl, hsh⟩ := hd phi (.inl rfl)
  rw [← hs.inputs phi] at hc
  exact ⟨by rw [hl, h.leaves, hc.1, hs.inputs], by rw [hsh, h.shapes, hc.2, hs.inputs]⟩

theorem desc_congr (h : m.get? phi = m'.get? phi) : m.desc phi = m'.desc phi := by
  rw [desc, desc, h]

theorem mem_left_of_before {α : Type} [DecidableEq α] {a b} {l1 l2 : List α}
    (hnd : (l1 ++ a :: l2).Nodup) (h : Before a b (l1 ++ a :: l2).reverse) :
    b ∈ l1 ∧ b ≠ a ∧ b ∉ l2 := by
  have hlt := h.idxOf_lt ((reverse_perm _).nodup_iff.2 hnd)
  have hmem := mem_reverse.1 h.right_mem
  have hl2 : b ∉ l2 := by
    intro hb
    have ha : a ∉ l2.reverse := by
      have := perm_middle.nodup_iff.1 hnd
      simp_all
    have hb' : b ∈ l2.reverse := mem_reverse.2 hb
    simp only [reverse_append, reverse_cons, append_assoc, idxOf_append, ha,
      hb', if_true, if_false] at hlt
    have := idxOf_lt_length_of_mem hb'
    omega
  have hne : b ≠ a := fun he => by simp [he] at hlt
  exact ⟨by simpa [hne, hl2] using hmem, hne, hl2⟩

theorem summary_congr (g : Graph) (hd : ∀ q, q = phi ∨ q ∈ m.children phi → m.desc q = m'.desc q) :
    m.summary g phi = m'.summary g phi := by
  have hchild : ∀ e ∈ (m.desc phi).inputs, ∀ child, e.2 = .phi child →
      (m.desc child).leaves = (m'.desc child).leaves ∧
        (m.desc child).shapes = (m'.desc child).shapes := by
    intro e he child hec
    rw [hd child (.inr (mem_children (b := e.1) (hec ▸ he)))]
    exact ⟨rfl, rfl⟩
  obtain ⟨hl, hsh⟩ := leavesOf_congr g hchild
  rw [summary, summary, ← hd phi (.inl rfl), hl, hsh]

section

variable (hwf : keys.WellFormed)
include hwf

theorem insert_spec (hw : m.Within keys) (hphi : phi ∈ m.keys) {d}
    (hd : d.core = (m.desc phi).core) :
    SideTable.Within (m.insert phi d) keys ∧ SameCore (m.insert phi d) m ∧
      ∀ q, (m.insert phi d).get? q = if q = phi then some d else m.get? q := by
  obtain ⟨d0, hd0⟩ := mem_keys_iff.1 hphi
  obtain ⟨inst, hinst⟩ := hw phi d0 hd0
  have hget := get?_insert hwf hw hinst d
  refine ⟨hw.insert hinst d, fun q => ?_, hget⟩
  rw [hget]
  split
  · rename_i hq
    subst hq
    simpa [desc, hd0] using hd
  · rfl

/-- What a pass over some merges that changes one description at a time leaves behind. -/
theorem foldl_insert_spec {f : Merges → InstId → MergeDesc}
    (hf : ∀ m phi, (f m phi).core = (m.desc phi).core) :
    ∀ (l : List InstId) (m : Merges), m.Within keys → (∀ phi ∈ l, phi ∈ m.keys) →
      SideTable.Within (l.foldl (fun m phi => m.insert phi (f m phi)) m) keys ∧
        SameCore (l.foldl (fun m phi => m.insert phi (f m phi)) m) m ∧
        ∀ q, q ∉ l → (l.foldl (fun m phi => m.insert phi (f m phi)) m).get? q = m.get? q := by
  intro l
  induction l with
  | nil => exact fun m hw _ => ⟨hw, .refl m, fun _ _ => rfl⟩
  | cons phi l ih =>
    intro m hw hl
    obtain ⟨hw1, hs1, hget1⟩ := insert_spec hwf hw (hl phi (by simp)) (hf m phi)
    obtain ⟨hw2, hs2, hget2⟩ := ih _ hw1
      fun q hq => hs1.mem_keys.2 (hl q (.tail _ hq))
    refine ⟨hw2, hs2.trans hs1, fun q hq => ?_⟩
    simp only [mem_cons, not_or] at hq
    exact (hget2 q hq.2).trans ((hget1 q).trans (if_neg hq.1))

theorem foldl_summarize_spec (hw : m.Within keys) (g : Graph) (hl : ∀ phi ∈ l, phi ∈ m.keys) :
    SideTable.Within (l.foldl (summarize g) m) keys ∧ SameCore (l.foldl (summarize g) m) m ∧
      ∀ q, q ∉ l → (l.foldl (summarize g) m).get? q = m.get? q :=
  foldl_insert_spec hwf (f := summary g) (fun _ _ => rfl) l m hw hl

theorem summarized_foldl (hw : m.Within keys) (g : Graph) (hl : ∀ phi ∈ l, phi ∈ m.keys)
    (hnd : l.Nodup) (hsorted : ∀ phi ∈ l, ∀ child ∈ m.children phi, Before phi child l.reverse) :
    ∀ phi ∈ l, Summarized g (l.foldl (summarize g) m) phi ∧
      (desc (l.foldl (summarize g) m) phi).obstacle = (m.desc phi).obstacle := by
  intro phi hphi
  obtain ⟨l1, l2, rfl⟩ := append_of_mem hphi
  obtain ⟨hw1, hs1, hget1⟩ := foldl_summarize_spec hwf hw g fun q hq =>
    hl q (mem_append_left _ hq)
  rw [foldl_append, foldl_cons]
  generalize l1.foldl (summarize g) m = m1 at *
  obtain ⟨hw2, hs2, hget2⟩ := insert_spec hwf hw1 (hs1.mem_keys.2 (hl phi hphi))
    (d := m1.summary g phi) rfl
  rw [← summarize_eq] at hw2 hs2 hget2
  generalize m1.summarize g phi = m2 at *
  obtain ⟨hw3, hs3, hget3⟩ := foldl_summarize_spec hwf hw2 g (l := l2)
    fun q hq => hs2.mem_keys.2 (hs1.mem_keys.2 (hl q (by simp [hq])))
  generalize l2.foldl (summarize g) m2 = m3 at *
  have hnot := perm_middle.nodup_iff.1 hnd
  simp only [nodup_cons, mem_append, not_or] at hnot
  obtain ⟨⟨hphi1, hphi2⟩, -⟩ := hnot
  have hd : m3.desc phi = m1.summary g phi := by
    rw [desc, hget3 phi hphi2, hget2, if_pos rfl]
    rfl
  have hchild : ∀ child ∈ m.children phi, m3.desc child = m1.desc child := by
    intro child hc
    obtain ⟨-, hne, hc2⟩ := mem_left_of_before hnd (hsorted phi hphi child hc)
    exact desc_congr ((hget3 child hc2).trans ((hget2 child).trans (if_neg hne)))
  have hleaves : m3.leavesOf (m1.desc phi).inputs = m1.leavesOf (m1.desc phi).inputs ∧
      m3.shapesOf g (m1.desc phi).inputs = m1.shapesOf g (m1.desc phi).inputs := by
    refine leavesOf_congr g fun e he child hec => ?_
    rw [hchild child (hs1.children phi ▸ mem_children (b := e.1) (hec ▸ he))]
    exact ⟨rfl, rfl⟩
  refine ⟨⟨?_, ?_⟩, ?_⟩
  · rw [hd]
    exact hleaves.1.symm
  · rw [hd]
    exact hleaves.2.symm
  · rw [hd, ← desc_congr (hget1 phi hphi1)]
    rfl

theorem foldl_setObstacle_spec (hw : m.Within keys) (o : Option Obstacle)
    (hl : ∀ phi ∈ l, phi ∈ m.keys) :
    SideTable.Within (l.foldl (setObstacle o) m) keys ∧ SameCore (l.foldl (setObstacle o) m) m ∧
      ∀ q, q ∉ l → (l.foldl (setObstacle o) m).get? q = m.get? q :=
  foldl_insert_spec hwf (f := fun m phi => { m.desc phi with obstacle := o }) (fun _ _ => rfl) l m
    hw hl

theorem desc_foldl_setObstacle (o : Option Obstacle) (q : InstId) :
    ∀ (l : List InstId) (m : Merges), m.Within keys → (∀ phi ∈ l, phi ∈ m.keys) →
      desc (l.foldl (setObstacle o) m) q =
        if q ∈ l then { m.desc q with obstacle := o } else m.desc q := by
  intro l
  induction l with
  | nil => exact fun m _ _ => rfl
  | cons phi l ih =>
    intro m hw hl
    obtain ⟨hw1, hs1, hget1⟩ := insert_spec hwf hw (hl phi (by simp))
      (d := { m.desc phi with obstacle := o }) rfl
    have hdesc : desc (m.setObstacle o phi) q =
        if q = phi then { m.desc q with obstacle := o } else m.desc q := by
      rw [desc, setObstacle, hget1]
      split
      · rename_i hq
        rw [hq]
        rfl
      · rfl
    rw [foldl_cons, ih (m.setObstacle o phi) hw1
      fun q hq => hs1.mem_keys.2 (hl q (.tail _ hq)), hdesc]
    by_cases hq : q = phi <;> by_cases hq' : q ∈ l <;> simp [hq, hq']

theorem desc_foldl_summarize_congr (g : Graph) {web : List InstId} :
    ∀ (l : List InstId) (m m' : Merges), m.Within keys → m'.Within keys → m.SameCore m' →
      (∀ phi ∈ l, phi ∈ web) → (∀ phi ∈ web, phi ∈ m.keys) →
      (∀ phi ∈ web, ∀ child ∈ m.children phi, child ∈ web) →
      (∀ phi ∈ web, m.desc phi = m'.desc phi) →
      ∀ phi ∈ web, desc (l.foldl (summarize g) m) phi = desc (l.foldl (summarize g) m') phi := by
  intro l
  induction l with
  | nil => exact fun m m' _ _ _ _ _ _ hd => hd
  | cons q l ih =>
    intro m m' hw hw' hs hl hk hchild hd
    have hq := hl q (.head _)
    have hsum : m.summary g q = m'.summary g q :=
      summary_congr g fun q' hq' => hd q' (hq'.elim (fun h => h ▸ hq) (hchild q hq q'))
    obtain ⟨hw1, hs1, hget1⟩ := insert_spec hwf hw (hk q hq) (d := m.summary g q) rfl
    obtain ⟨hw1', hs1', hget1'⟩ := insert_spec hwf hw' (hs.mem_keys.1 (hk q hq))
      (d := m'.summary g q) rfl
    refine ih (m.summarize g q) (m'.summarize g q) hw1 hw1' (hs1.trans (hs.trans hs1'.symm))
      (fun phi hphi => hl phi (.tail _ hphi))
      (fun phi hphi => hs1.mem_keys.2 (hk phi hphi)) (fun phi hphi child hc => ?_)
      fun phi hphi => ?_
    · exact hchild phi hphi child (hs1.children phi ▸ hc)
    · rw [desc, desc, summarize_eq, summarize_eq, hget1, hget1', hsum]
      split
      · rfl
      · exact hd phi hphi

end

theorem yields_summarizeAll : ∀ {l : List InstId} {m : Merges} {b b' : Budget},
    Metered.Yields (summarizeAll g l m) b m' b' → m' = l.foldl (summarize g) m := by
  intro l
  induction l with
  | nil =>
    intro m b b' h
    exact (Metered.yields_pure.1 h).1.symm
  | cons phi l ih =>
    intro m b b' h
    rw [summarizeAll, Metered.yields_bind] at h
    obtain ⟨_, _, -, h⟩ := h
    exact ih h

/-- What the analysis needs to know of a web. -/
structure Ready (m : Merges) (w : Web) : Prop where
  keys : ∀ phi ∈ w.phis, phi ∈ m.keys
  nodup : w.phis.Nodup
  closed : ∀ phi ∈ w.phis, ∀ child ∈ m.children phi, child ∈ w.phis
  sorted : w.obstacle = none → ∀ phi ∈ w.phis, ∀ child ∈ m.children phi,
    Before phi child w.phis.reverse

end Merges

namespace MergeContext

variable {m m' : Merges}

theorem mem_segments_congr (hs : m.SameCore m') (d : MergeDesc) (stop : Point) :
    ∀ e ∈ segments m d stop, e ∈ segments m' d stop := by
  intro e he
  have hnested : ∀ q ∈ m.nested d.phi, q ∈ m'.nested d.phi :=
    flood_mono _ (fun _ => hs.mem_keys.1) (fun a b hb => hs.children a ▸ hb) fun _ => id
  simp only [segments, mem_eraseDups, mem_cons, mem_flatMap, mem_filterMap,
    Option.map_eq_some_iff, Prod.exists] at he ⊢
  refine he.imp_right ?_
  rintro ⟨q, hq, b, i, hi, child, hchild, rfl⟩
  exact ⟨q, hnested q hq, b, i, hs.inputs q ▸ hi, child, hchild, by rw [hs.block child]⟩

theorem mayRun_congr (c : MergeContext) (hs : m.SameCore m') (d : MergeDesc) (stop : Point)
    (hit : InstId → Bool) : c.mayRun m d stop hit = c.mayRun m' d stop hit := by
  rw [mayRun, mayRun, Bool.eq_iff_iff, any_eq_true, any_eq_true]
  exact ⟨fun ⟨e, he, h⟩ => ⟨e, mem_segments_congr hs d stop e he, h⟩,
    fun ⟨e, he, h⟩ => ⟨e, mem_segments_congr hs.symm d stop e he, h⟩⟩

theorem obstacle?_congr (c : MergeContext) (hs : m.SameCore m') (web : List InstId)
    (d : MergeDesc) : c.obstacle? m web d = c.obstacle? m' web d := by
  have hclob : c.clobbered m d = c.clobbered m' d := by
    funext x f
    simp only [clobbered, c.mayRun_congr hs]
  have huse : c.useObstacle? m web d = c.useObstacle? m' web d := by
    funext use
    cases use with
    | inst user =>
      rw [useObstacle?, useObstacle?, instObstacle?, instObstacle?, hclob]
    | term => rfl
    | debug s => simp only [useObstacle?, debugObstacle?, c.mayRun_congr hs]
  rw [obstacle?, obstacle?, huse]

end MergeContext

namespace MergeAnalysis

open Merges

variable {c : MergeContext} {keys : SlotTable .inst Inst} {m m' m₀ : Merges} {a a' : MergeAnalysis}
  {blacklist : List InstId} {enabled : Bool} {w : Web} {b b' : Budget} {done : List Web}

/-- What the analysis establishes of a web without an obstacle. The table of merges that the uses
were checked against describes the same merges with the same inputs. -/
structure Settled (c : MergeContext) (m : Merges) (w : Web) : Prop where
  keys : ∀ phi ∈ w.phis, phi ∈ m.keys
  nodup : w.phis.Nodup
  sorted : ∀ phi ∈ w.phis, ∀ child ∈ m.children phi, Before phi child w.phis.reverse
  summarized : ∀ phi ∈ w.phis, m.Summarized c.graph phi
  unobstructed : ∃ m₁ : Merges, m₁.SameCore m ∧
    ∀ phi ∈ w.phis, c.obstacle? m₁ w.phis (m.desc phi) = none

/-- The obstacle to a web that is known before its leaves are. -/
def barred? (blacklist : List InstId) (enabled : Bool) (w : Web) : Option Obstacle :=
  if !enabled then some .disabled
  else if w.phis.any (· ∈ blacklist) then some .blacklisted
  else w.obstacle

theorem barred?_eq_none : barred? blacklist enabled w = none ↔
    enabled = true ∧ (∀ phi ∈ w.phis, phi ∉ blacklist) ∧ w.obstacle = none := by
  rw [barred?]
  split
  · simp_all
  · split
    · rename_i hlisted
      obtain ⟨phi, hphi, hmem⟩ := any_eq_true.1 hlisted
      exact ⟨nofun, fun h => absurd (of_decide_eq_true hmem) (h.2.1 phi hphi)⟩
    · simp_all

theorem barred?_ne_loopCarried (h : w.obstacle = none) :
    barred? blacklist enabled w ≠ some .loopCarried := by
  rw [barred?, h]
  split
  · simp
  · split <;> simp

section Summed

variable (c : MergeContext) (bar : Web → Option Obstacle)

/-- The merges with the leaves of a web, unless it runs in a circle. -/
def summed (m : Merges) (w : Web) : Merges :=
  if bar w = some .loopCarried then m else w.phis.foldl (summarize c.graph) m

def obstacleOf (m : Merges) (w : Web) : Option Obstacle :=
  (bar w).or (w.phis.findSome? fun phi =>
    c.obstacle? (summed c bar m w) w.phis ((summed c bar m w).desc phi))

variable {c bar}

theorem obstacleOf_eq_none : obstacleOf c bar m w = none ↔ bar w = none ∧ ∀ phi ∈ w.phis,
    c.obstacle? (summed c bar m w) w.phis ((summed c bar m w).desc phi) = none := by
  rw [obstacleOf, Option.or_eq_none_iff, List.findSome?_eq_none_iff]

theorem yields_addWeb (hy : Metered.Yields (addWeb c blacklist enabled a w) b a' b') :
    let bar := barred? blacklist enabled
    a' = { merges := w.phis.foldl (setObstacle (obstacleOf c bar a.merges w))
             (summed c bar a.merges w)
           webs := a.webs ++ [{ w with obstacle := obstacleOf c bar a.merges w }] } := by
  intro bar
  rw [addWeb] at hy
  dsimp only at hy
  rw [← barred?] at hy
  split at hy <;> rename_i hbar <;> rw [Metered.yields_bind] at hy <;>
    obtain ⟨m1, b1, hm1, hy⟩ := hy
  · obtain ⟨rfl, -⟩ := Metered.yields_pure.1 hm1
    rw [obstacleOf, summed, if_pos hbar]
    exact (Metered.yields_pure.1 hy).1.symm
  · obtain rfl := yields_summarizeAll hm1
    rw [obstacleOf, summed, if_neg hbar]
    exact (Metered.yields_pure.1 hy).1.symm

variable (c bar)

theorem summed_spec (hwf : keys.WellFormed) (hw : m.Within keys)
    (hk : ∀ phi ∈ w.phis, phi ∈ m.keys) :
    (summed c bar m w).Within keys ∧ SameCore (summed c bar m w) m ∧
      ∀ q, q ∉ w.phis → (summed c bar m w).get? q = m.get? q := by
  rw [summed]
  split
  · exact ⟨hw, .refl _, fun _ _ => rfl⟩
  · exact foldl_summarize_spec hwf hw c.graph hk

theorem summed_congr (hwf : keys.WellFormed) (hw : m.Within keys) (hw' : m'.Within keys)
    (hs : m.SameCore m') (hr : m.Ready w) (hd : ∀ phi ∈ w.phis, m.desc phi = m'.desc phi) :
    (∀ phi ∈ w.phis, (summed c bar m w).desc phi = (summed c bar m' w).desc phi) ∧
      obstacleOf c bar m w = obstacleOf c bar m' w := by
  have hdesc : ∀ phi ∈ w.phis, (summed c bar m w).desc phi = (summed c bar m' w).desc phi := by
    rw [summed, summed]
    split
    · exact hd
    · exact desc_foldl_summarize_congr hwf c.graph w.phis m m' hw hw' hs (fun _ => id) hr.keys
        hr.closed hd
  obtain ⟨-, hs1, -⟩ := summed_spec c bar hwf hw hr.keys
  obtain ⟨-, hs2, -⟩ := summed_spec c bar hwf hw' fun phi hphi => hs.mem_keys.1 (hr.keys phi hphi)
  refine ⟨hdesc, congrArg _ (findSome?_congr fun phi hphi => ?_)⟩
  rw [hdesc phi hphi, c.obstacle?_congr (hs1.trans (hs.trans hs2.symm))]

/-- The analysis after some webs: what it has found of each of them can be told from the merges that
it started with. -/
structure Progress (keys : SlotTable .inst Inst) (m₀ : Merges) (done : List Web)
    (a : MergeAnalysis) : Prop where
  within : a.merges.Within keys
  same : a.merges.SameCore m₀
  fresh : ∀ phi, (∀ w ∈ done, phi ∉ w.phis) → a.merges.get? phi = m₀.get? phi
  webs : a.webs = done.map fun w => { w with obstacle := obstacleOf c bar m₀ w }
  desc : ∀ w ∈ done, ∀ phi ∈ w.phis, a.merges.desc phi =
    { (summed c bar m₀ w).desc phi with obstacle := obstacleOf c bar m₀ w }

end Summed

namespace Progress

variable {bar : Web → Option Obstacle} (hwf : keys.WellFormed) (hw₀ : m₀.Within keys)
include hwf hw₀

theorem addWeb (h : Progress c (barred? blacklist enabled) keys m₀ done a) (hr : m₀.Ready w)
    (hdis : ∀ w' ∈ done, ∀ phi ∈ w'.phis, phi ∉ w.phis)
    (hy : Metered.Yields (MergeAnalysis.addWeb c blacklist enabled a w) b a' b') :
    Progress c (barred? blacklist enabled) keys m₀ (done ++ [w]) a' := by
  obtain rfl := yields_addWeb hy
  generalize barred? blacklist enabled = bar at *
  have hk : ∀ phi ∈ w.phis, phi ∈ a.merges.keys :=
    fun phi hphi => h.same.mem_keys.2 (hr.keys phi hphi)
  have hold : ∀ phi ∈ w.phis, m₀.desc phi = a.merges.desc phi := fun phi hphi =>
    desc_congr (h.fresh phi fun w' hw' hphi' => hdis w' hw' phi hphi' hphi).symm
  obtain ⟨hdesc, hob⟩ := summed_congr c bar hwf hw₀ h.within h.same.symm hr hold
  obtain ⟨hw1, hs1, hget1⟩ := summed_spec c bar hwf h.within hk
  rw [← hob]
  generalize summed c bar a.merges w = m1 at *
  have hk1 : ∀ phi ∈ w.phis, phi ∈ m1.keys := fun phi hphi => hs1.mem_keys.2 (hk phi hphi)
  obtain ⟨hw2, hs2, hget2⟩ := foldl_setObstacle_spec hwf hw1 (obstacleOf c bar m₀ w) hk1
  refine ⟨hw2, hs2.trans (hs1.trans h.same), fun phi hphi => ?_, by simp [h.webs],
    fun w' hw' phi hphi => ?_⟩
  · have hphi' := hphi w (by simp)
    exact (hget2 phi hphi').trans ((hget1 phi hphi').trans
      (h.fresh phi fun w' hw' => hphi w' (by simp [hw'])))
  · rw [desc_foldl_setObstacle hwf _ phi w.phis m1 hw1 hk1]
    rcases mem_append.1 hw' with hw' | hw'
    · have hphi' := hdis w' hw' phi hphi
      rw [if_neg hphi', desc_congr (hget1 phi hphi'), h.desc w' hw' phi hphi]
    · rw [mem_singleton.1 hw'] at hphi ⊢
      rw [if_pos hphi, hdesc phi hphi]

theorem meets_foldlM {webs : List Web} (hr : ∀ w ∈ webs, m₀.Ready w)
    (hdis : webs.Pairwise fun w w' => ∀ phi ∈ w.phis, phi ∉ w'.phis) :
    Metered.Answers (Progress c (barred? blacklist enabled) keys m₀ webs)
      (webs.foldlM (MergeAnalysis.addWeb c blacklist enabled) { merges := m₀, webs := [] }) := by
  refine Metered.Meets.foldlM (fun done w rest a hwebs h => ?_)
    ⟨hw₀, .refl _, fun _ _ => rfl, rfl, by simp⟩
  rw [hwebs] at hdis
  exact (Metered.Meets.any _).of_yields fun _ _ _ => h.addWeb hwf hw₀ (hr w (by simp [hwebs]))
    fun w' hw' => (pairwise_append.1 hdis).2.2 w' hw' w (.head _)

variable (h : Progress c bar keys m₀ done a) (hr : ∀ w ∈ done, m₀.Ready w) (hw : w ∈ done)
  (hnone : w.obstacle = none) (hbar : bar w ≠ some .loopCarried)
include h hr hw hnone hbar

/-- The merges of a web without a circle are summarized, whatever the obstacle. -/
theorem summarized : ∀ phi ∈ w.phis, a.merges.Summarized c.graph phi ∧
    ((summed c bar m₀ w).desc phi).obstacle = (m₀.desc phi).obstacle := by
  intro phi hphi
  have hready := hr w hw
  obtain ⟨hsum, hob⟩ := summarized_foldl hwf hw₀ c.graph hready.keys hready.nodup
    (hready.sorted hnone) phi hphi
  have hsummed : summed c bar m₀ w = w.phis.foldl (summarize c.graph) m₀ := if_neg hbar
  obtain ⟨-, hs, -⟩ := summed_spec c bar hwf hw₀ hready.keys
  rw [← hsummed] at hsum hob
  refine ⟨hsum.congr (h.same.trans hs.symm) fun q hq => ?_, hob⟩
  have hq' : q ∈ w.phis := hq.elim (fun e => e ▸ hphi) fun hq =>
    hready.closed phi hphi q (hs.children phi ▸ hq)
  rw [h.desc w hw q hq']
  exact ⟨rfl, rfl⟩

theorem settled (hfree : ∀ phi, (m₀.desc phi).obstacle = none)
    (hob : obstacleOf c bar m₀ w = none) :
    Settled c a.merges { w with obstacle := obstacleOf c bar m₀ w } := by
  have hready := hr w hw
  have hsum := h.summarized hwf hw₀ hr hw hnone hbar
  obtain ⟨-, hs, -⟩ := summed_spec c bar hwf hw₀ hready.keys
  refine ⟨fun phi hphi => h.same.mem_keys.2 (hready.keys phi hphi), hready.nodup,
    fun phi hphi child hc => hready.sorted hnone phi hphi child (h.same.children phi ▸ hc),
    fun phi hphi => (hsum phi hphi).1, summed c bar m₀ w, hs.trans h.same.symm, fun phi hphi => ?_⟩
  have hdesc : a.merges.desc phi = (summed c bar m₀ w).desc phi := by
    rw [h.desc w hw phi hphi, hob, ← hfree phi, ← (hsum phi hphi).2]
  rw [hdesc]
  exact (obstacleOf_eq_none.1 hob).2 phi hphi

end Progress

end MergeAnalysis

namespace MergeInput

variable {body : Body} {g : Graph} {cands : List InstId} {x y : InstId}

theorem of_eq_alloc {n} (h : MergeInput.of body g cands y = .alloc n x) :
    y = x ∧ (∃ op, body.op? x = some op ∧ op.isAlloc = true) ∧ g.allocOf.get? x = some n := by
  rw [MergeInput.of] at h
  split at h
  · rename_i halloc
    split at h
    · rename_i hn
      cases h
      cases hop : body.op? x with
      | none => simp [hop] at halloc
      | some op => exact ⟨rfl, ⟨op, rfl, by simpa [hop] using halloc⟩, hn⟩
    · cases h
  · split at h
    · cases h
    · split at h <;> cases h

theorem of_eq_phi (h : MergeInput.of body g cands y = .phi x) : y = x ∧ x ∈ cands := by
  rw [MergeInput.of] at h
  split at h
  · split at h <;> cases h
  · split at h
    · cases h
      exact ⟨rfl, ‹_›⟩
    · split at h <;> cases h

theorem of_eq_null (h : MergeInput.of body g cands y = .null x) :
    y = x ∧ x ∉ cands ∧ g.isNull x = true := by
  rw [MergeInput.of] at h
  split at h
  · split at h <;> cases h
  · split at h
    · cases h
    · rename_i hcand
      split at h
      · cases h
        exact ⟨rfl, hcand, ‹_›⟩
      · cases h

end MergeInput

namespace Merges

variable {body : Body} {g : Graph} {leftOut : InstId → Bool} {cands : List InstId}
  {phi child : InstId}
variable {d : MergeDesc} {m : Merges}

/-- The description of a merge as it is read off the body. -/
structure Noted (body : Body) (g : Graph) (cands : List InstId) (phi : InstId)
    (d : MergeDesc) : Prop where
  phi_eq : d.phi = phi
  block_eq : d.block = ((body.placement.get? phi).map Prod.fst).getD .null
  inputs : ∃ inputs, body.op? phi = some (.phi inputs) ∧
    d.inputs = inputs.map fun e => (e.1, .of body g cands e.2)

/-- In a checked body the description also tells where the merge stands. -/
structure Described (body : Body) (g : Graph) (cands : List InstId) (phi : InstId)
    (d : MergeDesc) : Prop extends Noted body g cands phi d where
  reachable : d.block ∈ body.flow.order.blocks
  mem_phis : phi ∈ body.phis d.block
  isRef : body.isRef phi = true

theorem mem_candidates : phi ∈ candidates body g leftOut ↔
    ∃ b ∈ body.order, phi ∈ body.phis b ∧ body.isRef phi = true ∧
      leftOut phi = false ∧ (g.allocsOf phi).isEmpty = false := by
  simp [candidates, mem_flatMap, and_assoc]

theorem Noted.described (h : Noted body g cands phi d) (hwf : body.WellFormed)
    (hi : body.Issued) (hc : body.Checked) (hphi : phi ∈ candidates body g leftOut) :
    Described body g cands phi d := by
  obtain ⟨b, hblock, hmem, href, -, -⟩ := mem_candidates.1 hphi
  obtain ⟨i, hidx⟩ := mem_iff_getElem?.1 (Body.mem_insts_of_mem_phis hmem)
  obtain ⟨inputs, hop, hin⟩ := h.inputs
  obtain ⟨inst, hinst⟩ := Body.live_of_op? hop
  obtain rfl : d.block = b := by rw [h.block_eq, hc.placement hwf hi hinst hidx]; rfl
  exact ⟨h, hblock, hmem, href⟩

theorem exists_phi_of_mem_candidates (hphi : phi ∈ candidates body g leftOut) :
    ∃ inputs, body.op? phi = some (.phi inputs) := by
  obtain ⟨b, -, hmem, -⟩ := mem_candidates.1 hphi
  exact Body.isPhi_iff.1 (Body.isPhi_of_mem_phis hmem)

theorem Noted.mem_cands (h : Noted body g cands phi d) {b} (hc : (b, .phi child) ∈ d.inputs) :
    child ∈ cands := by
  obtain ⟨inputs, -, hin⟩ := h.inputs
  rw [hin, mem_map] at hc
  obtain ⟨⟨b', x⟩, -, he⟩ := hc
  exact (MergeInput.of_eq_phi (Prod.mk.inj he).2).2

/-- The table has the candidates as they are read off the body. -/
structure Listed (body : Body) (g : Graph) (cands : List InstId) (m : Merges) : Prop where
  noted : ∀ phi ∈ m.keys, Noted body g cands phi (m.desc phi)
  keys : ∀ phi, phi ∈ m.keys ↔ phi ∈ cands

structure Faithful (body : Body) (g : Graph) (cands : List InstId) (m : Merges) : Prop where
  described : ∀ phi ∈ m.keys, Described body g cands phi (m.desc phi)
  keys : ∀ phi, phi ∈ m.keys ↔ phi ∈ cands

theorem Listed.faithful (h : m.Listed body g (candidates body g leftOut))
    (hwf : body.WellFormed) (hi : body.Issued) (hc : body.Checked) :
    m.Faithful body g (candidates body g leftOut) :=
  ⟨fun phi hphi => (h.noted phi hphi).described hwf hi hc ((h.keys phi).1 hphi), h.keys⟩

theorem Faithful.listed (h : m.Faithful body g cands) : m.Listed body g cands :=
  ⟨fun phi hphi => (h.described phi hphi).toNoted, h.keys⟩

theorem exists_mem_of_mem_children (h : child ∈ m.children phi) :
    ∃ b, (b, .phi child) ∈ (m.desc phi).inputs := by
  obtain ⟨⟨b, i⟩, he, hi⟩ := mem_filterMap.1 h
  cases i <;> simp only [MergeInput.child?, Option.some.injEq, reduceCtorEq] at hi
  exact ⟨b, hi ▸ he⟩

theorem Listed.children (h : m.Listed body g cands) :
    ∀ phi ∈ m.keys, ∀ child ∈ m.children phi, child ∈ m.keys := by
  intro phi hphi child hc
  obtain ⟨b, hb⟩ := exists_mem_of_mem_children hc
  exact (h.keys child).2 ((h.noted phi hphi).mem_cands hb)

theorem desc_eq (hd : m.get? phi = some d) : m.desc phi = d := by
  rw [desc, hd]
  rfl

section

variable (hwf : body.WellFormed)
  (hphis : ∀ phi ∈ cands, ∃ inputs, body.op? phi = some (.phi inputs))
include hwf hphis

theorem ofCandidates_spec :
    (ofCandidates body g cands).Within body.insts ∧
    (∀ phi d, (ofCandidates body g cands).get? phi = some d →
      Noted body g cands phi d ∧ d.obstacle = none) ∧
    ∀ phi, phi ∈ (ofCandidates body g cands).keys ↔ phi ∈ cands := by
  rw [ofCandidates]
  generalize hl : cands.filterMap _ = l
  have hmem : ∀ phi d, (phi, d) ∈ l →
      phi ∈ cands ∧ Noted body g cands phi d ∧ d.obstacle = none := by
    intro phi d h
    rw [← hl, mem_filterMap] at h
    obtain ⟨q, hq, h⟩ := h
    split at h
    · rename_i inputs hop
      cases h
      exact ⟨hq, ⟨rfl, rfl, inputs, hop, rfl⟩, rfl⟩
    · cases h
  have hlive : ∀ e ∈ l, ∃ inst, body.insts.get? e.1 = some inst := by
    intro e he
    obtain ⟨-, hnoted, -⟩ := hmem e.1 e.2 he
    obtain ⟨inputs, hop, -⟩ := hnoted.inputs
    exact Body.live_of_op? hop
  refine ⟨SideTable.Within.foldl_insert l (.empty _) hlive, fun phi d hd => ?_,
    fun phi => ⟨fun hphi => ?_, fun hphi => ?_⟩⟩
  · exact (hmem phi d (mem_of_get?_ofList hd)).2
  · obtain ⟨d, hd⟩ := mem_keys_iff.1 hphi
    exact (hmem phi d (mem_of_get?_ofList hd)).1
  · refine mem_keys_iff.2
      (contains_foldl_insert hwf.insts (.empty _) hlive (.inr ?_))
    obtain ⟨inputs, hop⟩ := hphis phi hphi
    rw [← hl]
    exact mem_map.2 ⟨_, mem_filterMap.2 ⟨phi, hphi, by rw [hop]⟩, rfl⟩

theorem listed_ofCandidates :
    (ofCandidates body g cands).Listed body g cands := by
  obtain ⟨-, hd0, hk0⟩ := ofCandidates_spec (g := g) hwf hphis
  refine ⟨fun phi hphi => ?_, hk0⟩
  obtain ⟨d, hd⟩ := mem_keys_iff.1 hphi
  exact desc_eq hd ▸ (hd0 phi d hd).1

end

/-- What the analysis starts from: the merges as they are read off the body, without obstacles, in
disjoint webs that list nested merges first. -/
structure Prepared (body : Body) (g : Graph) (cands : List InstId) (m : Merges) : Prop where
  listed : m.Listed body g cands
  within : m.Within body.insts
  unobstructed : ∀ phi, (m.desc phi).obstacle = none
  webs : ∀ w ∈ m.webs cands, m.Ready w
  disjoint : (m.webs cands).Pairwise fun w w' => ∀ phi ∈ w.phis, phi ∉ w'.phis

theorem prepared (hwf : body.WellFormed) (g : Graph) (leftOut : InstId → Bool) :
    Prepared body g (candidates body g leftOut)
      (ofCandidates body g (candidates body g leftOut)) := by
  have hphis : ∀ phi ∈ candidates body g leftOut, ∃ inputs, body.op? phi = some (.phi inputs) :=
    fun phi => exists_phi_of_mem_candidates
  obtain ⟨hw₀, hd0, hk0⟩ := ofCandidates_spec (g := g) hwf hphis
  have hlisted := listed_ofCandidates (g := g) hwf hphis
  generalize candidates body g leftOut = cands at *
  generalize ofCandidates body g cands = m₀ at *
  have hnamed : m₀.Named := fun phi d hd => (hd0 phi d hd).1.phi_eq
  obtain ⟨taken, hsplit, -⟩ := split_webs hnamed fun phi => (hk0 phi).2
  refine ⟨hlisted, hw₀, fun phi => ?_, fun w hw => ?_, hsplit.disjoint⟩
  · rcases hd : m₀.get? phi with _ | d
    · rw [desc, hd]
      rfl
    · exact desc_eq hd ▸ (hd0 phi d hd).2
  · have hkeys : ∀ phi ∈ w.phis, phi ∈ m₀.keys :=
      fun phi hphi => hsplit.keys phi ((hsplit.taken phi).2 ⟨w, hw, hphi⟩)
    have hweb := hsplit.web w hw
    refine ⟨hkeys, hweb.nodup, fun phi hphi child hc => ?_, fun ho phi hphi child hc => ?_⟩
    all_goals have hchild := hlisted.children phi (hkeys phi hphi) child hc
    · exact hweb.closed phi hphi child (mem_links_of_child hnamed (hkeys phi hphi) hc) hchild
    · exact hweb.sorted ho phi hphi child hc hchild

theorem Listed.named (h : m.Listed body g cands) : m.Named := by
  intro phi d hd
  have hphi := (h.noted phi (mem_keys_iff.2 ⟨d, hd⟩)).phi_eq
  rwa [desc, hd] at hphi

theorem Described.pred_mem_order (h : Described body g cands phi d) (hc : body.Checked) {e}
    (he : e ∈ d.inputs) : e.1 ∈ body.order := by
  obtain ⟨inputs, hop, hin⟩ := h.inputs
  obtain ⟨i, hi⟩ := mem_iff_getElem?.1 (Body.mem_insts_of_mem_phis h.mem_phis)
  obtain ⟨op, hop', hcheck⟩ := hc.inst _ h.reachable i phi hi
  obtain rfl : op = .phi inputs := by simpa [hop] using hop'.symm
  rw [hin, mem_map] at he
  obtain ⟨e', he', rfl⟩ := he
  exact (((hcheck.phi inputs rfl).preds e'.1).1 (mem_map.2 ⟨e', he', rfl⟩)).2

end Merges

namespace MergeAnalysis

variable {p : Program} {body : Body} {g : Graph} {leftOut : InstId → Bool} {blacklist : List InstId}
  {enabled : Bool} {a : MergeAnalysis} {b b' : Budget} {phi : InstId}

section

variable (hwf : body.WellFormed)
  (hy : Metered.Yields (compute p body g leftOut blacklist enabled) b a b')
include hwf hy

theorem progress_of_compute :
    Progress (.ofBody p body g) (barred? blacklist enabled) body.insts
      (Merges.ofCandidates body g (Merges.candidates body g leftOut))
      ((Merges.ofCandidates body g (Merges.candidates body g leftOut)).webs
        (Merges.candidates body g leftOut)) a := by
  obtain ⟨-, hin, -, hwebs, hdis⟩ := Merges.prepared hwf g leftOut
  rw [compute] at hy
  generalize Merges.candidates body g leftOut = cands at *
  generalize Merges.ofCandidates body g cands = m₀ at *
  exact (Progress.meets_foldlM hwf.insts hin hwebs hdis).yields hy

/-- The analysis lists the merges of a body in disjoint webs, and settles every web that it finds no
obstacle to. -/
theorem listed_of_compute :
    a.merges.Listed body g (Merges.candidates body g leftOut) ∧
      (∀ w ∈ a.webs, w.obstacle = none → Settled (.ofBody p body g) a.merges w) ∧
      a.webs.Pairwise fun w w' => ∀ phi ∈ w.phis, phi ∉ w'.phis := by
  obtain ⟨hlisted, hin, hnone, hwebs, hdis⟩ := Merges.prepared hwf g leftOut
  have hprog := progress_of_compute hwf hy
  refine ⟨⟨fun phi hphi => ?_, fun phi => hprog.same.mem_keys.trans (hlisted.keys phi)⟩,
    fun w hw hob => ?_, ?_⟩
  · obtain ⟨h1, h2, h3⟩ := hlisted.noted phi (hprog.same.mem_keys.1 hphi)
    have hcore := hprog.same.core_desc phi
    simp only [MergeDesc.core, Prod.mk.injEq] at hcore
    exact ⟨hcore.1 ▸ h1, hcore.2.1 ▸ h2, hcore.2.2 ▸ h3⟩
  · rw [hprog.webs] at hw
    obtain ⟨w, hw₀, rfl⟩ := mem_map.1 hw
    have hacyclic := (barred?_eq_none.1 (obstacleOf_eq_none.1 hob).1).2.2
    exact hprog.settled hwf.insts hin hwebs hw₀ hacyclic (barred?_ne_loopCarried hacyclic) hnone hob
  · rw [hprog.webs]
    exact pairwise_map.2 hdis

end

theorem mem_reducibleWebs {replaced w} :
    w ∈ (a.reducibleWebs replaced).map Prod.fst ↔ w ∈ a.webs ∧ w.obstacle = none ∧
      ∃ phi ∈ w.phis, ∃ e ∈ (a.merges.desc phi).allocLeaves, replaced e.1 = true := by
  have hzip : (∃ i, (w, i) ∈ a.webs.zipIdx) ↔ w ∈ a.webs := by
    rw [mem_iff_getElem?]
    simp only [mem_zipIdx_iff_getElem?]
  simp only [← hzip, reducibleWebs, mem_map, mem_filter, Prod.exists, exists_and_right,
    exists_eq_right, Bool.and_eq_true, Option.isNone_iff_eq_none, any_eq_true]

theorem isReducible_iff : a.isReducible phi = true ↔
    phi ∈ a.merges.keys ∧ (a.merges.desc phi).obstacle = none := by
  rw [isReducible, mem_keys_iff, Merges.desc]
  rcases a.merges.get? phi with _ | d <;> simp

theorem mem_irreducible (hn : a.merges.Named) :
    phi ∈ a.irreducible.map Prod.fst ↔
      phi ∈ a.merges.keys ∧ (a.merges.desc phi).obstacle ≠ none := by
  simp only [irreducible, mem_map, mem_filterMap, mem_values_iff,
    mem_keys_iff, Option.map_eq_some_iff]
  constructor
  · rintro ⟨_, ⟨d, ⟨q, hd⟩, o, ho, rfl⟩, rfl⟩
    obtain rfl : d.phi = q := hn q d hd
    exact ⟨⟨d, hd⟩, by simp [Merges.desc, hd, ho]⟩
  · rintro ⟨⟨d, hd⟩, hne⟩
    rw [Merges.desc, hd, Option.getD_some] at hne
    obtain ⟨o, ho⟩ := Option.ne_none_iff_exists'.1 hne
    exact ⟨(d.phi, o), ⟨d, ⟨phi, hd⟩, o, ho, rfl⟩, hn phi d hd⟩

/-- The analysis of a checked body describes its merges, and settles every web that it finds no
obstacle to. -/
theorem settled_of_compute (hwf : body.WellFormed) (hi : body.Issued) (hc : body.Checked)
    (hy : Metered.Yields (compute p body g leftOut blacklist enabled) b a b') :
    a.merges.Faithful body g (Merges.candidates body g leftOut) ∧
      ∀ w ∈ a.webs, w.obstacle = none → Settled (.ofBody p body g) a.merges w := by
  obtain ⟨hlisted, hset, -⟩ := listed_of_compute hwf hy
  exact ⟨hlisted.faithful hwf hi hc, hset⟩

end MergeAnalysis

end EscapeAnalysis
