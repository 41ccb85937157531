import EscapeAnalysis.Proofs.Refinement
import EscapeAnalysis.Proofs.Tables
import EscapeAnalysis.Proofs.Walks

/-!
# Dominance

Every path from the entry to a block passes through the block's dominators (`Flow.Dom`). The order
lists a block after one that leads to it, which is what the refinement of dominators relies on
(`DomTree.ordered_predPositions`), and where it ends a block has just its dominators above it
(`DomTree.climbs_iff`): none is ever lost, and what is above a block is above all its predecessors
and so on every path. The dominators of a block form a chain (`DomTree.idom?_spec`).
-/

namespace EscapeAnalysis

open List Body

namespace Flow

variable {g : Flow} {a b c p s : BlockId} {l l₁ l₂ : List BlockId}

def Edge (g : Flow) (p s : BlockId) : Prop := p ∈ g.preds s ∧ s ∈ g.blocks

/-- The blocks of a path from the entry, the last one first. -/
inductive Path (g : Flow) : List BlockId → Prop
  | entry : Path g [g.entry]
  | step {p s : BlockId} {l} : Path g (p :: l) → g.Edge p s → Path g (s :: p :: l)

def Reachable (g : Flow) (b : BlockId) : Prop := ∃ l, g.Path (b :: l)

/-- Every path to `b` passes through `a`. -/
def Dom (g : Flow) (a b : BlockId) : Prop := ∀ l, g.Path (b :: l) → a ∈ b :: l

namespace Path

theorem drop : ∀ (l₁ : List BlockId), g.Path (l₁ ++ a :: l₂) → g.Path (a :: l₂)
  | [], h => h
  | b :: l₁, h => by
    rcases l₁ with _ | ⟨c, l₁⟩
    · cases h with
      | step h _ => exact h
    · cases h with
      | step h _ => exact drop (c :: l₁) h

theorem reachable_of_mem (h : g.Path l) (ha : a ∈ l) : g.Reachable a := by
  obtain ⟨l₁, l₂, rfl⟩ := append_of_mem ha
  exact ⟨l₂, h.drop _⟩

theorem first_entry (hne : b ≠ g.entry) (h : g.Path (b :: l)) :
    ∃ q m, g.Path (q :: m) ∧ g.Edge q b ∧ b ∉ q :: m ∧ q :: m ⊆ l := by
  generalize hn : l.length = n
  induction n using Nat.strongRecOn generalizing l with
  | ind n ih =>
    cases h with
    | entry => exact absurd rfl hne
    | @step q _ m h e =>
      by_cases hb : b ∈ q :: m
      · obtain ⟨l₁, l₂, hl⟩ := append_of_mem hb
        have hlt : l₂.length < n := by
          rw [← hn, hl, length_append, length_cons]
          omega
        obtain ⟨q', m', hpath, he, hmem, hsub⟩ := ih _ hlt (drop l₁ (hl ▸ h)) rfl
        refine ⟨q', m', hpath, he, hmem, fun d hd => ?_⟩
        exact hl ▸ mem_append_right l₁ (.tail b (hsub hd))
      · exact ⟨q, m, h, e, hb, fun _ => id⟩

end Path

theorem Reachable.step (h : g.Reachable p) (e : g.Edge p s) : g.Reachable s := by
  obtain ⟨l, h⟩ := h
  exact ⟨p :: l, .step h e⟩

namespace Dom

theorem refl (g : Flow) (a : BlockId) : g.Dom a a := fun _ _ => by simp

theorem trans (hab : g.Dom a b) (hbc : g.Dom b c) : g.Dom a c := by
  intro l h
  obtain ⟨l₁, l₂, e⟩ := append_of_mem (hbc l h)
  rw [e] at h ⊢
  exact mem_append_right _ (hab l₂ (h.drop _))

theorem of_edge (h : g.Dom a s) (hne : a ≠ s) (e : g.Edge p s) : g.Dom a p := by
  intro l hl
  rcases mem_cons.1 (h (p :: l) (.step hl e)) with ha | ha
  · exact absurd ha hne
  · exact ha

theorem antisymm (hr : g.Reachable b) (hab : g.Dom a b) (hba : g.Dom b a) : a = b := by
  -- a path to `b` holds a shorter path to `a`, and that a shorter one to `b`
  have shrink : ∀ (n : Nat) (l : List BlockId), l.length ≤ n → g.Path (b :: l) → a = b := by
    intro n
    induction n using Nat.strongRecOn with
    | ind n ih =>
      intro l hn h
      rcases mem_cons.1 (hab l h) with e | ha
      · exact e
      · obtain ⟨l₁, l₂, rfl⟩ := append_of_mem ha
        have h' : g.Path (a :: l₂) := Path.drop (b :: l₁) h
        rcases mem_cons.1 (hba l₂ h') with e | hb
        · exact e.symm
        · obtain ⟨l3, l4, rfl⟩ := append_of_mem hb
          have h'' : g.Path (b :: l4) := Path.drop (a :: l3) h'
          simp only [length_append, length_cons] at hn
          exact ih l4.length (by omega) l4 (Nat.le_refl _) h''
  obtain ⟨l, h⟩ := hr
  exact shrink l.length l (Nat.le_refl _) h

theorem reachable (hr : g.Reachable b) (h : g.Dom a b) : g.Reachable a := by
  obtain ⟨l, hl⟩ := hr
  exact hl.reachable_of_mem (h l hl)

/-- What dominates every block from which a block is entered for the first time strictly dominates
the block. -/
theorem of_first_entries (hr : g.Reachable b) (hne : b ≠ g.entry)
    (h : ∀ q, g.Reachable q → g.Edge q b → ¬ g.Dom b q → g.Dom a q) : g.Dom a b ∧ a ≠ b := by
  have enter : ∀ l, g.Path (b :: l) → a ∈ l ∧ a ≠ b := by
    intro l hl
    obtain ⟨q, m, hpath, he, hb, hsub⟩ := hl.first_entry hne
    have ha := h q ⟨m, hpath⟩ he (fun hd => hb (hd m hpath)) m hpath
    exact ⟨hsub ha, fun hab => hb (hab ▸ ha)⟩
  obtain ⟨l, hl⟩ := hr
  exact ⟨fun l hl => .tail b (enter l hl).1, (enter l hl).2⟩

end Dom

end Flow

/-- What every body has that the library makes: its tables are well formed, and its entry is one
of its blocks. -/
structure Body.WellFormed (body : Body) : Prop where
  blocks : body.blocks.WellFormed
  insts : body.insts.WellFormed
  states : body.states.WellFormed
  entry : ∃ b, body.blocks.get? body.entry = some b

theorem Body.WellFormed.ofEntries {blocks insts states entry params ret} {b : Block}
    (h : (.ofEntries blocks : SlotTable .block Block).get? entry = some b) :
    (⟨.ofEntries blocks, .ofEntries insts, .ofEntries states, entry, params, ret⟩ :
      Body).WellFormed :=
  ⟨.ofEntries _, .ofEntries _, .ofEntries _, b, h⟩

namespace Body

variable {body : Body} {b p s : BlockId} {i : Nat}

/-- The blocks that can be reached, each before those that it dominates. -/
abbrev order (body : Body) : List BlockId := body.flow.order.blocks

theorem mem_flow_blocks : b ∈ body.flow.blocks ↔ ∃ block, body.blocks.get? b = some block :=
  SlotTable.mem_keys_iff

theorem mem_flow_blocks_of_succ (h : s ∈ body.flow.succs p) : p ∈ body.flow.blocks := by
  rw [mem_flow_blocks]
  simp only [flow, block] at h
  rcases hp : body.blocks.get? p with _ | block
  · have hnone : ((none : Option Block).getD default).term.targets = [] := rfl
    rw [hp, hnone] at h
    simp at h
  · exact ⟨block, rfl⟩

theorem edge_iff : body.flow.Edge p s ↔ s ∈ body.flow.succs p ∧ s ∈ body.flow.blocks := by
  simp only [Flow.Edge, Flow.preds, mem_filter, decide_eq_true_eq]
  exact ⟨fun h => ⟨h.1.2, h.2⟩, fun h => ⟨⟨mem_flow_blocks_of_succ h.1, h.1⟩, h.2⟩⟩

theorem complete_order (body : Body) :
    (walkFrom body.flow.blocks body.flow.succs [body.flow.entry]).Complete body.flow.blocks
      body.flow.succs [body.flow.entry] :=
  Walk.complete_walkFrom ..

theorem nodup_order (body : Body) : body.order.Nodup := (complete_order body).nodup

theorem order_head (body : Body) : body.order[0]? = some body.flow.entry := by
  rw [← List.head?_eq_getElem?]
  exact (complete_order body).head

theorem entry_mem_order (body : Body) : body.flow.entry ∈ body.order :=
  mem_of_getElem? (order_head body)

theorem order_parent (h : b ∈ body.order) : b = body.flow.entry ∨
    ∃ p, b ∈ body.flow.succs p ∧ Before p b body.order :=
  ((complete_order body).parent b h).imp_left mem_singleton.1

theorem idxOf_order (h : body.order[i]? = some b) : body.order.idxOf b = i := by
  obtain ⟨hlt, rfl⟩ := List.getElem?_eq_some_iff.1 h
  exact (nodup_order body).idxOf_getElem i hlt

theorem mem_order_of_edge (hp : p ∈ body.order) (e : body.flow.Edge p s) : s ∈ body.order := by
  rw [edge_iff] at e
  exact (complete_order body).closed_next p hp s e.1 e.2

theorem WellFormed.live_of_mem_order (hwf : body.WellFormed) (h : b ∈ body.order) :
    b ∈ body.flow.blocks := by
  rcases (complete_order body).known b h with h | h
  · exact mem_singleton.1 h ▸ mem_flow_blocks.2 hwf.entry
  · exact h

theorem WellFormed.index?_eq_some_iff (hwf : body.WellFormed) :
    body.flow.order.index? b = some i ↔ body.order[i]? = some b := by
  have hindex : body.flow.order.index? b =
      (SideTable.ofList body.order.zipIdx).get? b := rfl
  have hkeys : body.order.zipIdx.map Prod.fst = body.order := by simp
  rw [hindex]
  constructor
  · intro h
    have := SideTable.mem_of_get?_ofList h
    rw [mem_zipIdx_iff_getElem?] at this
    simpa using this
  · intro h
    have hmem : (b, i) ∈ body.order.zipIdx := by
      rw [mem_zipIdx_iff_getElem?]
      simpa using h
    refine SideTable.get?_ofList_of_nodup hwf.blocks (fun e he => ?_)
      (by rw [hkeys]; exact nodup_order body) hmem
    have : e.1 ∈ body.order := hkeys ▸ mem_map.2 ⟨e, he, rfl⟩
    exact mem_flow_blocks.1 (hwf.live_of_mem_order this)

theorem WellFormed.reaches_iff (hwf : body.WellFormed) :
    body.flow.order.reaches b = true ↔ b ∈ body.order := by
  rw [Order.reaches, SideTable.contains_iff, mem_iff_getElem?]
  exact exists_congr fun i => hwf.index?_eq_some_iff

theorem exists_path_of_getElem? (body : Body) :
    ∀ (i : Nat) {b : BlockId}, body.order[i]? = some b →
      ∃ l, body.flow.Path (b :: l) ∧
        ∀ c ∈ l, ∃ j, j < i ∧ body.order[j]? = some c := by
  intro i
  induction i using Nat.strongRecOn with
  | ind i ih =>
    intro b hb
    have hmem := mem_of_getElem? hb
    rcases order_parent hmem with rfl | ⟨p, hp, hbefore⟩
    · exact ⟨[], .entry, by simp⟩
    · obtain ⟨j, hj⟩ := mem_iff_getElem?.1 hbefore.left_mem
      have hlt : j < i := by
        have := hbefore.idxOf_lt (nodup_order body)
        rwa [idxOf_order hj, idxOf_order hb] at this
      obtain ⟨l, hl, hbelow⟩ := ih j hlt hj
      by_cases hentry : b = body.flow.entry
      · subst hentry
        exact ⟨[], .entry, by simp⟩
      have hlive : b ∈ body.flow.blocks :=
        ((complete_order body).known b hmem).resolve_left (by simpa using hentry)
      refine ⟨p :: l, .step hl (edge_iff.2 ⟨hp, hlive⟩), fun c hc => ?_⟩
      rcases mem_cons.1 hc with rfl | hc
      · exact ⟨j, hlt, hj⟩
      · obtain ⟨k, hk, hkc⟩ := hbelow c hc
        exact ⟨k, by omega, hkc⟩

theorem mem_order_iff : b ∈ body.order ↔ body.flow.Reachable b := by
  constructor
  · intro h
    obtain ⟨i, hi⟩ := mem_iff_getElem?.1 h
    obtain ⟨l, hl, -⟩ := exists_path_of_getElem? body i hi
    exact ⟨l, hl⟩
  · rintro ⟨l, hl⟩
    generalize hm : b :: l = m at hl
    induction hl generalizing b l with
    | entry =>
      cases hm
      exact entry_mem_order body
    | step _ e ih =>
      cases hm
      exact mem_order_of_edge (ih _ rfl) e

theorem le_of_dom {a j} (ha : body.order[i]? = some a)
    (hb : body.order[j]? = some b) (h : body.flow.Dom a b) : i ≤ j := by
  obtain ⟨l, hl, hbelow⟩ := exists_path_of_getElem? body j hb
  rcases mem_cons.1 (h l hl) with rfl | hal
  · exact Nat.le_of_eq ((idxOf_order ha).symm.trans (idxOf_order hb))
  · obtain ⟨k, hk, hka⟩ := hbelow a hal
    have := (idxOf_order ha).symm.trans (idxOf_order hka)
    omega

end Body

def Body.domTree (body : Body) : DomTree := .ofFlow body.flow body.flow.order

namespace DomTree

open Dominators

variable {body : Body} {a b c p : BlockId} {i j k : Nat}

def predPositions (body : Body) : Array (List Nat) :=
  body.flow.order.blocks.toArray.map fun b =>
    (body.flow.preds b).filterMap body.flow.order.index?

/-- The dominators that the refinement ends with. -/
def doms (body : Body) : Doms :=
  (settle (predPositions body) (start (predPositions body).size)).getD #[]

/-- Dominance between positions. -/
def DomAt (body : Body) (k i : Nat) : Prop :=
  ∃ a b, body.order[k]? = some a ∧ body.order[i]? = some b ∧ body.flow.Dom a b

theorem size_predPositions (body : Body) : (predPositions body).size = body.order.length := by
  simp [predPositions]

section

variable (hwf : body.WellFormed)
include hwf

theorem mem_predPositions (hb : body.order[i]? = some b) :
    j ∈ (predPositions body).getD i [] ↔
      ∃ p, body.order[j]? = some p ∧ body.flow.Edge p b := by
  have hlive := hwf.live_of_mem_order (mem_of_getElem? hb)
  simp only [predPositions, Array.getD_eq_getD_getElem?, Array.getElem?_map, List.getElem?_toArray,
    hb, Option.map_some, Option.getD_some, mem_filterMap, hwf.index?_eq_some_iff, Flow.Edge]
  exact ⟨fun ⟨p, hp, hj⟩ => ⟨p, hj, hp, hlive⟩, fun ⟨p, hj, hp, _⟩ => ⟨p, hp, hj⟩⟩

theorem ordered_predPositions : Ordered (predPositions body) (DomAt body) := by
  have hsize := size_predPositions body
  have hblock : ∀ {i}, i < (predPositions body).size → ∃ b, body.order[i]? = some b := fun hi =>
    ⟨_, List.getElem?_eq_getElem (hsize ▸ hi)⟩
  have hmem : ∀ {i p}, p ∈ (predPositions body).getD i [] → i < (predPositions body).size := by
    intro i p hp
    by_contra hi
    simp [hi] at hp
  refine ⟨?_, fun {i p} hp => ?_, fun {i} hpos hi => ?_, fun {y} h => ?_, fun {y i p} h hne hp => ?_⟩
  · exact hsize ▸ (List.getElem?_eq_some_iff.1 (order_head body)).1
  · obtain ⟨b, hb⟩ := hblock (hmem hp)
    obtain ⟨q, hq, -⟩ := (mem_predPositions hwf hb).1 hp
    exact hsize ▸ (List.getElem?_eq_some_iff.1 hq).1
  · obtain ⟨b, hb⟩ := hblock hi
    have hb' := mem_of_getElem? hb
    rcases order_parent hb' with rfl | ⟨q, hq, hbefore⟩
    · exact absurd ((idxOf_order hb).symm.trans (idxOf_order (order_head body))) (by omega)
    · obtain ⟨j, hj⟩ := mem_iff_getElem?.1 hbefore.left_mem
      have hlt := hbefore.idxOf_lt (nodup_order body)
      rw [idxOf_order hj, idxOf_order hb] at hlt
      refine ⟨j, (mem_predPositions hwf hb).2 ⟨q, hj, edge_iff.2 ⟨hq, ?_⟩⟩, hlt⟩
      exact hwf.live_of_mem_order hb'
  · obtain ⟨a, b, ha, hb, hdom⟩ := h
    exact Nat.le_zero.1 (le_of_dom ha hb hdom)
  · obtain ⟨a, b, ha, hb, hdom⟩ := h
    obtain ⟨q, hq, e⟩ := (mem_predPositions hwf hb).1 hp
    refine ⟨a, q, ha, hq, hdom.of_edge ?_ e⟩
    rintro rfl
    exact hne ((idxOf_order ha).symm.trans (idxOf_order hb))

theorem settle_eq_doms :
    settle (predPositions body) (start (predPositions body).size) = some (doms body) := by
  obtain ⟨doms, hsettle, -⟩ := exists_settled (ordered_predPositions hwf)
  simp [DomTree.doms, hsettle]

theorem settled_doms : Settled (predPositions body) (DomAt body) (doms body) := by
  obtain ⟨doms, hsettle, h⟩ := exists_settled (ordered_predPositions hwf)
  obtain rfl := Option.some.inj (hsettle.symm.trans (settle_eq_doms hwf))
  exact h

theorem isSome_up (hb : body.order[i]? = some b) : (up (doms body) i).isSome :=
  (settled_doms hwf).isSome_of_lt
    (size_predPositions body ▸ (List.getElem?_eq_some_iff.1 hb).1)

/-- What a block has above it are its dominators. -/
theorem climbs_iff (ha : body.order[k]? = some a) (hb : body.order[i]? = some b) :
    Climbs (doms body) i k ↔ body.flow.Dom a b := by
  have hs := settled_doms hwf
  refine ⟨fun h l hl => ?_, fun h => hs.complete ⟨a, b, ha, hb, h⟩ ?_⟩
  · -- along a path all that its last block has above it is met
    generalize hm : b :: l = m at hl
    induction hl generalizing b l i with
    | entry =>
      cases hm
      obtain rfl : i = 0 := (idxOf_order hb).symm.trans (idxOf_order (order_head body))
      obtain rfl : k = 0 := Nat.le_zero.1 (h.le hs.toRooted)
      simp_all
    | @step p s m hpath e ih =>
      cases hm
      by_cases hki : k = i
      · subst hki
        rw [ha] at hb
        simp [Option.some.inj hb]
      · obtain ⟨d, hd, hdk⟩ := h.of_ne hki
        obtain ⟨j, hj⟩ := mem_iff_getElem?.1 (mem_order_iff.2 ⟨m, hpath⟩)
        have hle := h.le hs.toRooted
        have hjk := hs.shared hd (by omega) ((mem_predPositions hwf hb).2 ⟨p, hj, e⟩) hdk
        exact .tail _ (ih hj hjk _ rfl)
  · exact size_predPositions body ▸ (List.getElem?_eq_some_iff.1 hb).1

theorem parents_getD (i : Nat) :
    body.domTree.parents.getD i none = if i = 0 then none else up (doms body) i := by
  have hs := settled_doms hwf
  have hsize : 0 < (doms body).size := lt_size_of_isSome (by simp [hs.entry])
  exact up_set hsize none i

theorem passes_iff (hi : (up (doms body) i).isSome) :
    passes body.domTree.parents k i = true ↔ Climbs (doms body) i k := by
  have hs := settled_doms hwf
  induction i using Nat.strongRecOn with
  | ind i ih =>
    rw [passes, parents_getD hwf, Bool.or_eq_true, beq_iff_eq]
    by_cases hik : i = k
    · simp [hik, Climbs.refl]
    · rcases Nat.eq_zero_or_pos i with rfl | hpos
      · simp only [hik, if_true, Bool.false_eq_true, or_self, false_iff]
        exact fun h => hik (Nat.le_zero.1 (h.le hs.toRooted)).symm
      · obtain ⟨j, hj⟩ := Option.isSome_iff_exists.1 hi
        have hlt := hs.lt hj hpos
        simp only [hik, Nat.ne_of_gt hpos, if_false, hj, hlt, if_true, false_or]
        refine (ih j hlt (hs.known hi hlt)).trans ⟨.up hj, fun h => ?_⟩
        obtain ⟨j', hj', h⟩ := h.of_ne (Ne.symm hik)
        exact Option.some.inj (hj.symm.trans hj') ▸ h

theorem dominates_iff (hb : b ∈ body.order) :
    body.domTree.dominates a b = true ↔ body.flow.Dom a b := by
  obtain ⟨i, hi⟩ := mem_iff_getElem?.1 hb
  rw [dominates, Bool.or_eq_true, beq_iff_eq]
  by_cases hab : a = b
  · simp [hab, Flow.Dom.refl]
  · simp only [hab, false_or]
    have hbi : body.domTree.order.index? b = some i := hwf.index?_eq_some_iff.2 hi
    rw [hbi]
    rcases hk : body.domTree.order.index? a with _ | k
    · simp only [Bool.false_eq_true, false_iff]
      intro hd
      have := mem_order_iff.2 (hd.reachable (mem_order_iff.1 hb))
      obtain ⟨k, hk'⟩ := mem_iff_getElem?.1 this
      have : body.domTree.order.index? a = some k := hwf.index?_eq_some_iff.2 hk'
      rw [hk] at this
      cases this
    · exact (passes_iff hwf (isSome_up hwf hi)).trans
        (climbs_iff hwf (hwf.index?_eq_some_iff.1 hk) hi)

theorem parent_spec (hb : body.order[i]? = some b)
    (hi : i ≠ 0) : ∃ k p, body.domTree.parents.getD i none = some k ∧ k < i ∧
      body.order[k]? = some p ∧ body.flow.Dom p b ∧
      ∀ a, body.flow.Dom a b → a ≠ b → body.flow.Dom a p := by
  have hs := settled_doms hwf
  obtain ⟨k, hk⟩ := Option.isSome_iff_exists.1 (isSome_up hwf hb)
  have hlt := hs.lt hk (Nat.pos_of_ne_zero hi)
  obtain ⟨p, hp⟩ : ∃ p, body.order[k]? = some p :=
    ⟨_, List.getElem?_eq_getElem (Nat.lt_trans hlt (List.getElem?_eq_some_iff.1 hb).1)⟩
  refine ⟨k, p, by rw [parents_getD hwf, if_neg hi, hk], hlt, hp,
    (climbs_iff hwf hp hb).1 (.up hk (.refl k)), fun a ha hab => ?_⟩
  obtain ⟨j, hj⟩ := mem_iff_getElem?.1 (mem_order_iff.2 (ha.reachable
    (mem_order_iff.1 (mem_of_getElem? hb))))
  have hji : j ≠ i := by
    rintro rfl
    rw [hj] at hb
    exact hab (Option.some.inj hb)
  obtain ⟨k', hk', hkj⟩ := ((climbs_iff hwf hj hb).2 ha).of_ne hji
  obtain rfl := Option.some.inj (hk.symm.trans hk')
  exact (climbs_iff hwf hj hp).1 hkj

theorem idom?_spec (hb : b ∈ body.order)
    (hne : b ≠ body.flow.entry) : ∃ p, body.domTree.idom? b = some p ∧ p ≠ b ∧
      p ∈ body.order ∧ body.flow.Dom p b ∧
      ∀ a, body.flow.Dom a b → a ≠ b → body.flow.Dom a p := by
  obtain ⟨i, hi⟩ := mem_iff_getElem?.1 hb
  have hi0 : i ≠ 0 := by
    rintro rfl
    rw [order_head] at hi
    exact hne (Option.some.inj hi).symm
  obtain ⟨k, p, hk, hlt, hp, hdom, hall⟩ := parent_spec hwf hi hi0
  refine ⟨p, ?_, ?_, mem_of_getElem? hp, hdom, hall⟩
  · have hbi : body.domTree.order.index? b = some i := hwf.index?_eq_some_iff.2 hi
    have hblock : body.domTree.block? k = some p := hp
    rw [idom?, hbi, Option.bind_some, hk, Option.bind_some, hblock]
  · rintro rfl
    have := (idxOf_order hp).symm.trans (idxOf_order hi)
    omega

theorem idom?_entry : body.domTree.idom? body.flow.entry = none := by
  have hi : body.domTree.order.index? body.flow.entry = some 0 :=
    hwf.index?_eq_some_iff.2 (order_head body)
  rw [idom?, hi, Option.bind_some, parents_getD hwf, if_pos rfl, Option.bind_none]

end

section Children

variable {parents : Array (Option Nat)}

theorem getD_foldl_kids : ∀ (l : List (Option Nat × Nat)) {kids : Array (List Nat)},
    k < kids.size →
    (l.foldl (fun kids e => e.1.elim kids fun p => kids.modify p (· ++ [e.2])) kids).getD k [] =
      kids.getD k [] ++ (l.filter fun e => e.1 = some k).map Prod.snd
  | [], _, _ => by simp
  | (none, i) :: l, kids, hk => by simp [getD_foldl_kids l hk]
  | (some p, i) :: l, kids, hk => by
    have hget : (kids.modify p (· ++ [i])).getD k [] =
        kids.getD k [] ++ if p = k then [i] else [] := by
      simp only [Array.getD_eq_getD_getElem?, Array.getElem?_modify, Array.getElem?_eq_getElem hk]
      by_cases hpk : p = k <;> simp [hpk]
    rw [foldl_cons, Option.elim_some, getD_foldl_kids l (by simpa using hk), hget]
    by_cases hpk : p = k <;> simp [hpk]

theorem getD_kidsOf (hk : k < parents.size) :
    (kidsOf parents).getD k [] =
      (parents.toList.zipIdx.filter fun e => e.1 = some k).map Prod.snd := by
  refine (getD_foldl_kids _ (by simpa using hk)).trans ?_
  simp [hk]

theorem children_of_getElem? (hwf : body.WellFormed) (hp : body.order[k]? = some p) :
    body.domTree.children p =
      ((body.domTree.parents.toList.zipIdx.filter fun e => e.1 = some k).map Prod.snd).filterMap
        (body.order[·]?) := by
  have hk : k < body.domTree.parents.size := by
    have hlt := lt_size_of_isSome (isSome_up hwf hp)
    rwa [show body.domTree.parents = (doms body).setIfInBounds 0 none from rfl,
      Array.size_setIfInBounds]
  have hindex : body.domTree.order.index? p = some k := hwf.index?_eq_some_iff.2 hp
  have hkids : body.domTree.kids = kidsOf body.domTree.parents := rfl
  rw [children, hindex, Option.map_some, Option.getD_some, hkids, getD_kidsOf hk]
  rfl

theorem mem_children (hwf : body.WellFormed) :
    c ∈ body.domTree.children p ↔ body.domTree.idom? c = some p := by
  have hidom : ∀ {i k}, body.order[i]? = some c → body.domTree.parents.getD i none = some k →
      body.domTree.idom? c = body.order[k]? := by
    intro i k hi hk
    have hindex : body.domTree.order.index? c = some i := hwf.index?_eq_some_iff.2 hi
    rw [idom?, hindex, Option.bind_some, hk]
    rfl
  have hparent : ∀ {i k}, (some k, i) ∈ body.domTree.parents.toList.zipIdx ↔
      body.domTree.parents.getD i none = some k := by
    intro i k
    rw [mem_zipIdx_iff_getElem?, Array.getElem?_toList, Array.getD_eq_getD_getElem?]
    cases body.domTree.parents[i]? <;> simp
  constructor
  · intro h
    rcases hp : body.domTree.order.index? p with _ | k
    · simp [children, hp] at h
    · have hk := hwf.index?_eq_some_iff.1 hp
      rw [children_of_getElem? hwf hk] at h
      simp only [mem_filterMap, mem_map, mem_filter, decide_eq_true_eq, Prod.exists] at h
      obtain ⟨i, ⟨_, _, ⟨hmem, rfl⟩, rfl⟩, hi⟩ := h
      rw [hidom hi (hparent.1 hmem), hk]
  · intro h
    obtain ⟨i, hi, h'⟩ := Option.bind_eq_some_iff.1 h
    obtain ⟨k, hk, hp⟩ := Option.bind_eq_some_iff.1 h'
    rw [children_of_getElem? hwf hp, mem_filterMap]
    refine ⟨i, mem_map.2 ⟨(some k, i), ?_, rfl⟩, hwf.index?_eq_some_iff.1 hi⟩
    exact mem_filter.2 ⟨hparent.2 hk, by simp⟩

theorem filterMap_range_getElem? {α : Type} (l : List α) :
    (range l.length).filterMap (l[·]?) = l := by
  have hmap : (range l.length).map (l[·]?) = l.map some := ext_getElem (by simp) (by simp)
  calc (range l.length).filterMap (l[·]?)
      = ((range l.length).map (l[·]?)).filterMap id := by rw [filterMap_map]; rfl
    _ = l := by rw [hmap, filterMap_map]; exact filterMap_some

theorem children_sublist (hwf : body.WellFormed) (p : BlockId) :
    (body.domTree.children p).Sublist body.order := by
  rcases hp : body.domTree.order.index? p with _ | k
  · simp [children, hp]
  · have hsize : body.domTree.parents.size = body.order.length := by
      rw [show body.domTree.parents = (doms body).setIfInBounds 0 none from rfl,
        Array.size_setIfInBounds, (settled_doms hwf).size, size_predPositions]
    have hsub : ((body.domTree.parents.toList.zipIdx.filter fun e => e.1 = some k).map
        Prod.snd).Sublist (range body.order.length) := by
      refine (filter_sublist.map Prod.snd).trans ?_
      rw [zipIdx_map_snd, Array.length_toList, hsize, range_eq_range']
    rw [children_of_getElem? hwf (hwf.index?_eq_some_iff.1 hp)]
    exact (hsub.filterMap _).trans (by rw [filterMap_range_getElem?])

end Children

theorem complete_preorder (body : Body) :
    ∃ w : Walk BlockId, body.domTree.preorder = w.opened.reverse ∧
      w.Complete body.order body.domTree.children [body.flow.entry] := by
  have htake : body.order.take 1 = [body.flow.entry] := by
    have hhead := order_head body
    rcases h : body.order with _ | ⟨b, l⟩
    · simp [h] at hhead
    · simpa [h] using hhead
  refine ⟨_, rfl, ?_⟩
  rw [show body.domTree.order.blocks.take 1 = [body.flow.entry] from htake]
  exact Walk.complete_walkFrom ..

/-- What strictly dominates a block comes before it in reverse post-order, so statements about
dominators can be proved from the entry on. -/
theorem dominator_induction (hwf : body.WellFormed) {P : BlockId → Prop}
    (entry : P body.flow.entry)
    (step : ∀ b ∈ body.order, ∀ p ∈ body.order,
      body.domTree.idom? b = some p → b ≠ body.flow.entry →
      (∀ a, body.flow.Dom a b → a ≠ b → body.flow.Dom a p) → P p → P b) :
    ∀ b ∈ body.order, P b := by
  have loop : ∀ (i : Nat) (b : BlockId), body.order[i]? = some b → P b := by
    intro i
    induction i using Nat.strongRecOn with
    | ind i ih =>
      intro b hi
      by_cases hne : b = body.flow.entry
      · exact hne ▸ entry
      · obtain ⟨p, hp, hpb, hmem, hdom, hall⟩ := idom?_spec hwf (mem_of_getElem? hi) hne
        obtain ⟨k, hk⟩ := mem_iff_getElem?.1 hmem
        have hle := le_of_dom hk hi hdom
        have hkne : k ≠ i := fun he => hpb (Option.some.inj (hk.symm.trans (he ▸ hi)))
        exact step b (mem_of_getElem? hi) p hmem hp hne hall (ih k (by omega) p hk)
  intro b hb
  obtain ⟨i, hi⟩ := mem_iff_getElem?.1 hb
  exact loop i b hi

theorem mem_preorder (hwf : body.WellFormed) : b ∈ body.domTree.preorder ↔ b ∈ body.order := by
  obtain ⟨w, hw, hc⟩ := complete_preorder body
  rw [hw, mem_reverse, hc.opened_iff]
  constructor
  · intro h
    rcases hc.known b h with h | h
    · exact mem_singleton.1 h ▸ entry_mem_order body
    · exact h
  · refine dominator_induction hwf (P := fun b => b ∈ w.closed) (mem_of_head? hc.head) ?_ b
    intro b hb p _ hp _ _ hmem
    exact hc.closed_next p hmem b ((mem_children hwf).2 hp) hb

end DomTree

end EscapeAnalysis
