import EscapeAnalysis.Flow.Frontier
import EscapeAnalysis.Proofs.Dominance

/-!
# Dominator trees and frontiers

A block is in the frontier of another if that one dominates a predecessor of it but not, strictly,
the block itself. Climbing the tree from the predecessors of a join up to its parent meets exactly
the blocks whose frontier the join is in (`Frontiers.mem_climb`).

A way from the immediate dominator of `y` to `y` that does not come back to that dominator leaves
the dominance of each block it meets, in the frontier of that block (`Flow.Via.exists_inFrontier`).
So outside the iterated frontier nothing is written on the way (`Flow.ImmDom.of_via`).
-/

namespace EscapeAnalysis

open List Body DomTree

namespace Flow

def StrictDom (g : Flow) (a b : BlockId) : Prop := g.Dom a b ∧ a ≠ b

/-- `p` is the strict dominator of `b` that all strict dominators of `b` dominate. -/
def ImmDom (g : Flow) (p b : BlockId) : Prop :=
  g.StrictDom p b ∧ ∀ a, g.StrictDom a b → g.Dom a p

/-- The dominance of `b` ends at `y`: `b` dominates a predecessor of `y` and does not strictly
dominate `y`. -/
def InFrontier (g : Flow) (b y : BlockId) : Prop :=
  (∃ p, g.Reachable p ∧ g.Edge p y ∧ g.Dom b p) ∧ ¬ g.StrictDom b y

variable {g : Flow} {a b d p q u y : BlockId} {mid : List BlockId}

theorem ImmDom.unique (hr : g.Reachable b) (hp : g.ImmDom p b) (hq : g.ImmDom q b) : q = p :=
  (hp.2 q hq.1).antisymm (hp.1.1.reachable hr) (hq.2 p hp.1)

theorem not_strictDom_entry : ¬ g.StrictDom a g.entry :=
  fun h => h.2 (mem_singleton.1 (h.1 [] .entry))

theorem ImmDom.dom_iff (h : g.ImmDom u y) (hr : g.Reachable y) : g.Dom a u ↔ g.StrictDom a y := by
  refine ⟨fun ha => ⟨ha.trans h.1.1, ?_⟩, h.2 a⟩
  rintro rfl
  exact h.1.2 (h.1.1.antisymm hr ha)

/-- A path leads from `a` through the blocks `mid` to `y`. -/
inductive Via (g : Flow) (y : BlockId) : BlockId → List BlockId → Prop
  | last {a : BlockId} : g.Edge a y → Via g y a []
  | cons {a b : BlockId} {mid} : g.Edge a b → Via g y b mid → Via g y a (b :: mid)

namespace Via

theorem drop : ∀ (l1 : List BlockId) {l2 : List BlockId} {a c : BlockId},
    g.Via y a (l1 ++ c :: l2) → g.Via y c l2
  | [], _, _, _, .cons _ h => h
  | _ :: l1, _, _, _, .cons _ h => drop l1 h

theorem reachable_of_mem (h : g.Via y a mid) (hr : g.Reachable a) : ∀ c ∈ mid, g.Reachable c := by
  induction h with
  | last => simp
  | cons e _ ih =>
    intro c hc
    rcases mem_cons.1 hc with rfl | hc
    · exact hr.step e
    · exact ih (hr.step e) c hc

/-- What dominates the end of a path and is not met on it dominates its start: a path to the start
that avoids it could be prolonged to the end. -/
theorem dom_start (h : g.Via y a mid) (hu : g.Dom u y) (hmid : u ∉ mid) (huy : u ≠ y) :
    g.Dom u a := by
  intro l hl
  induction h generalizing l with
  | last e =>
    exact (mem_cons.1 (hu _ (.step hl e))).resolve_left huy
  | cons e _ ih =>
    rw [mem_cons, not_or] at hmid
    exact (mem_cons.1 (ih hmid.2 _ (.step hl e))).resolve_left hmid.1

/-- A path from the dominance of a block to an end that the block does not strictly dominate passes
through the frontier of the block. -/
theorem exists_inFrontier (h : g.Via y a mid) (hr : g.Reachable a) (hb : g.Dom b a)
    (hy : ¬ g.StrictDom b y) :
    g.InFrontier b y ∨ ∃ l1 c l2, mid = l1 ++ c :: l2 ∧ g.InFrontier b c := by
  induction h with
  | last e => exact .inl ⟨⟨_, hr, e, hb⟩, hy⟩
  | @cons a c mid e _ ih =>
    by_cases hc : g.StrictDom b c
    · rcases ih (hr.step e) hc.1 with h | ⟨l1, d, l2, rfl, hd⟩
      · exact .inl h
      · exact .inr ⟨c :: l1, d, l2, rfl, hd⟩
    · exact .inr ⟨[], c, mid, rfl, ⟨a, hr, e, hb⟩, hc⟩

end Via

/-- A path from the immediate dominator of its end that does not come back to it carries what
frontiers hand on: if `T` holds at the frontiers of `S` and `T`, and the path meets `S` or `T`, then
`T` holds at its end. -/
theorem ImmDom.of_via (himm : g.ImmDom u y) (hr : g.Reachable y) {S T : BlockId → Prop}
    (hT : ∀ d c, g.Reachable d → S d ∨ T d → g.Reachable c → c ≠ g.entry → g.InFrontier d c → T c)
    (hvia : g.Via y d mid) (hd : g.Reachable d) (hmem : u ∉ d :: mid) (h : S d ∨ T d) : T y := by
  have hne : ∀ {c}, g.StrictDom u c → c ≠ g.entry := by
    rintro c hc rfl
    exact not_strictDom_entry hc
  generalize hn : mid.length = n
  induction n using Nat.strongRecOn generalizing d mid with
  | ind n ih =>
    rw [mem_cons, not_or] at hmem
    -- a strict dominator of the end that is met after `u` would dominate `u` and be `u`
    have hdy : ¬ g.StrictDom d y := fun hd' =>
      hmem.1 ((hvia.dom_start himm.1.1 hmem.2 himm.1.2).antisymm hd (himm.2 d hd'))
    rcases hvia.exists_inFrontier hd (.refl g d) hdy with hy | ⟨l1, c, l2, rfl, hc⟩
    · exact hT d y hd h hr (hne himm.1) hy
    · have hc' : u ∉ c :: l2 := fun hu => hmem.2 (mem_append_right l1 hu)
      have hrc := hvia.reachable_of_mem hd c (by simp)
      have hcvia := hvia.drop l1
      have huc : g.StrictDom u c :=
        ⟨hcvia.dom_start himm.1.1 (fun hu => hc' (.tail c hu)) himm.1.2,
          fun hu => hc' (hu ▸ (.head _))⟩
      refine ih l2.length ?_ hcvia hrc hc' (.inr (hT d c hd h hrc (hne huc) hc)) rfl
      simp only [length_append, length_cons] at hn
      omega

end Flow

namespace Body

variable {body : Body} {a b : BlockId} {i j : Nat}

def frontiers (body : Body) : Frontiers := .ofTree body.flow body.domTree

theorem position_inj (ha : body.order[i]? = some a)
    (hb : body.order[j]? = some b) : i = j ↔ a = b := by
  refine ⟨fun h => ?_, fun h => ?_⟩
  · subst h
    exact Option.mem_unique ha hb
  · rw [← idxOf_order ha, ← idxOf_order hb, h]

end Body

namespace DomTree

variable {body : Body} {a b c p : BlockId}

theorem immDom_of_idom? (hwf : body.WellFormed) (h : body.domTree.idom? b = some p) :
    body.flow.Reachable b ∧ body.flow.ImmDom p b := by
  have hb : b ∈ body.order := by
    obtain ⟨i, hi, -⟩ := Option.bind_eq_some_iff.1 h
    exact mem_of_getElem? (hwf.index?_eq_some_iff.1 hi)
  have hne : b ≠ body.flow.entry := by
    rintro rfl
    rw [idom?_entry hwf] at h
    cases h
  obtain ⟨q, hq, hqb, -, hdom, hall⟩ := idom?_spec hwf hb hne
  obtain rfl := Option.mem_unique hq h
  exact ⟨mem_order_iff.1 hb, ⟨hdom, hqb⟩, fun a ha => hall a ha.1 ha.2⟩

/-- The dominator tree is exact. The refinement of dominators comes to an end, where another sweep
changes nothing; a block dominates a reachable block iff it is on every path to it; the entry has no
parent; the parent of every other reachable block is the one strict dominator that all strict
dominators dominate; and the children of a block are those whose parent it is, in reverse
post-order. -/
theorem domTree_exact (hwf : body.WellFormed) :
    (∃ doms, Dominators.settle (predPositions body)
        (Dominators.start (predPositions body).size) = some doms ∧
      Dominators.sweep (predPositions body) doms = some doms) ∧
    (∀ a b, body.flow.Reachable b →
      (body.domTree.dominates a b = true ↔ body.flow.Dom a b)) ∧
    body.domTree.idom? body.flow.entry = none ∧
    (∀ b, body.flow.Reachable b → b ≠ body.flow.entry →
      ∃ p, body.domTree.idom? b = some p ∧ body.flow.ImmDom p b ∧
        ∀ q, body.flow.ImmDom q b → q = p) ∧
    ∀ p, (∀ c, c ∈ body.domTree.children p ↔ body.domTree.idom? c = some p) ∧
      (body.domTree.children p).Sublist body.flow.order.blocks ∧
      (body.domTree.children p).Nodup := by
  have hsettle := settle_eq_doms hwf
  refine ⟨⟨_, hsettle, Dominators.sweep_of_settle hsettle⟩,
    fun a b hb => dominates_iff hwf (mem_order_iff.2 hb), idom?_entry hwf,
    fun b hb hne => ?_, fun p => ⟨fun c => mem_children hwf, children_sublist hwf p,
      (children_sublist hwf p).nodup (nodup_order body)⟩⟩
  obtain ⟨p, hp, -⟩ := idom?_spec hwf (mem_order_iff.2 hb) hne
  obtain ⟨-, himm⟩ := immDom_of_idom? hwf hp
  exact ⟨p, hp, himm, fun q hq => himm.unique hb hq⟩

/-- A loop with a choice in it, and a block that nothing leads to. -/
def loopedChoice : Body where
  blocks := .ofEntries
    [{ insts := [⟨0, 1⟩], term := .jump ⟨1, 1⟩ },
      { term := .branch ⟨0, 1⟩ ⟨2, 1⟩ ⟨5, 1⟩ },
      { term := .branch ⟨0, 1⟩ ⟨3, 1⟩ ⟨4, 1⟩ },
      { term := .jump ⟨6, 1⟩ },
      { term := .jump ⟨6, 1⟩ },
      { term := .ret none },
      { term := .jump ⟨1, 1⟩ },
      { term := .jump ⟨6, 1⟩ }]
  insts := .ofEntries [⟨.param 0, some .int⟩]
  states := .ofEntries []
  entry := ⟨0, 1⟩
  params := [.int]
  ret := none

theorem wellFormed_loopedChoice : loopedChoice.WellFormed := .ofEntries rfl

theorem reachable_loopedChoice : loopedChoice.flow.Reachable ⟨6, 1⟩ :=
  have h : loopedChoice.order[6]? = some ⟨6, 1⟩ := by decide +kernel
  mem_order_iff.1 (mem_of_getElem? h)

theorem idom?_loopedChoice : loopedChoice.domTree.idom? ⟨6, 1⟩ = some ⟨2, 1⟩ := by decide +kernel

theorem domTree_exact_loopedChoice :
    loopedChoice.domTree.children ⟨2, 1⟩ = [⟨4, 1⟩, ⟨3, 1⟩, ⟨6, 1⟩] ∧
    loopedChoice.flow.ImmDom ⟨2, 1⟩ ⟨6, 1⟩ ∧ ¬ loopedChoice.flow.Dom ⟨3, 1⟩ ⟨6, 1⟩ := by
  obtain ⟨-, hdom, -, hidom, -⟩ := domTree_exact wellFormed_loopedChoice
  obtain ⟨p, hp, himm, -⟩ := hidom _ reachable_loopedChoice (by decide)
  have hnot : loopedChoice.domTree.dominates ⟨3, 1⟩ ⟨6, 1⟩ = false := by decide +kernel
  refine ⟨by decide +kernel, Option.mem_unique hp idom?_loopedChoice ▸ himm, fun h => ?_⟩
  exact absurd ((hdom _ _ reachable_loopedChoice).2 h) (by simp [hnot])

end DomTree

namespace Frontiers

variable {g : Flow} {t : DomTree} {r : Nat × List Nat}

section Notes

variable {k join : Nat} {sets : Array (List Nat)}

theorem size_note (r : Nat) : (note join sets r).size = sets.size := by simp [note]

theorem size_foldl_note : ∀ (runners : List Nat) (sets : Array (List Nat)),
    (runners.foldl (note join) sets).size = sets.size
  | [], _ => rfl
  | r :: runners, _ => (size_foldl_note runners _).trans (size_note r)

theorem getD_note (hk : k < sets.size) (r : Nat) :
    (note join sets r).getD k [] =
      if r = k ∧ (sets.getD k []).getLast? ≠ some join then sets.getD k [] ++ [join]
      else sets.getD k [] := by
  simp only [note, Array.getD_eq_getD_getElem?, Array.getElem?_modify,
    Array.getElem?_eq_getElem hk, Option.getD_some, Option.map_some]
  by_cases hr : r = k
  · by_cases hl : sets[k].getLast? = some join <;> simp [hr, hl]
  · simp [hr]

theorem getD_foldl_note : ∀ (runners : List Nat) {sets : Array (List Nat)}, k < sets.size →
    (runners.foldl (note join) sets).getD k [] =
      if k ∈ runners ∧ (sets.getD k []).getLast? ≠ some join then sets.getD k [] ++ [join]
      else sets.getD k []
  | [], _, _ => by simp
  | r :: runners, sets, hk => by
    rw [foldl_cons, getD_foldl_note runners ((size_note r).symm ▸ hk), getD_note hk]
    generalize sets.getD k [] = l
    by_cases hr : r = k
    · by_cases hl : l.getLast? = some join <;> simp [hr, hl]
    · simp [hr, Ne.symm hr]

theorem getD_foldl_joins : ∀ (joins : List (Nat × List Nat)) {sets : Array (List Nat)},
    k < sets.size → (joins.map Prod.fst).Nodup →
    (∀ j ∈ joins.map Prod.fst, j ∉ sets.getD k []) →
    (joins.foldl (fun sets e => e.2.foldl (note e.1) sets) sets).getD k [] =
      sets.getD k [] ++ (joins.filter (k ∈ ·.2)).map Prod.fst
  | [], _, _, _, _ => by simp
  | (j, runners) :: joins, sets, hk, hnd, hnew => by
    rw [map_cons, nodup_cons] at hnd
    have hlast : (sets.getD k []).getLast? ≠ some j := fun h =>
      hnew j (by simp) (mem_of_getLast? h)
    have hget : (runners.foldl (note j) sets).getD k [] =
        sets.getD k [] ++ if k ∈ runners then [j] else [] := by
      rw [getD_foldl_note runners hk]
      generalize sets.getD k [] = l at hlast
      by_cases hr : k ∈ runners <;> simp [hr, hlast]
    rw [foldl_cons, getD_foldl_joins joins (by rwa [size_foldl_note]) hnd.2, hget]
    · by_cases hr : k ∈ runners <;> simp [hr]
    · intro i hi hmem
      rw [hget, mem_append] at hmem
      rcases hmem with hmem | hmem
      · exact hnew i (.tail _ hi) hmem
      · split at hmem
        · exact hnd.1 (mem_singleton.1 hmem ▸ hi)
        · simp at hmem

end Notes

/-- The position of a join with the positions that the climbs from its predecessors pass. -/
def joinAt (g : Flow) (t : DomTree) (e : BlockId × Nat) : Option (Nat × List Nat) :=
  let preds := (g.preds e.1).filterMap t.order.index?
  if preds.length < 2 then none
  else (t.parents.getD e.2 none).map fun stop => (e.2, preds.flatMap (climb t.parents stop))

theorem joinAt_eq_some_iff {e} :
    joinAt g t e = some r ↔ ¬ ((g.preds e.1).filterMap t.order.index?).length < 2 ∧
      ∃ stop, t.parents.getD e.2 none = some stop ∧
        (e.2, ((g.preds e.1).filterMap t.order.index?).flatMap (climb t.parents stop)) = r := by
  rw [joinAt]
  split
  · simp_all
  · simp only [Option.map_eq_some_iff, *, not_false_eq_true, true_and]

def joins (g : Flow) (t : DomTree) : List (Nat × List Nat) :=
  t.order.blocks.zipIdx.filterMap (joinAt g t)

theorem mem_joins :
    r ∈ joins g t ↔ ∃ y j, t.order.blocks[j]? = some y ∧ joinAt g t (y, j) = some r := by
  rw [joins, mem_filterMap]
  simp only [Prod.exists, mem_zipIdx_iff_getElem?]

theorem nodup_joins (g : Flow) (t : DomTree) : ((joins g t).map Prod.fst).Nodup := by
  have hfst : ∀ l : List (BlockId × Nat), (l.filterMap (joinAt g t)).map Prod.fst =
      (l.filter fun e => (joinAt g t e).isSome).map Prod.snd := by
    intro l
    induction l with
    | nil => rfl
    | cons e l ih =>
      rcases h : joinAt g t e with _ | r
      · simp [h, ih]
      · obtain ⟨-, stop, -, rfl⟩ := joinAt_eq_some_iff.1 h
        simp [h, ih]
  rw [joins, hfst]
  refine (filter_sublist.map Prod.snd).nodup ?_
  rw [zipIdx_map_snd]
  exact nodup_range'

theorem get_ofTree (g : Flow) (t : DomTree) {k} (hk : k < t.order.blocks.length) :
    (ofTree g t).get k = ((joins g t).filter (k ∈ ·.2)).map Prod.fst := by
  have hstart : (Array.replicate t.order.blocks.length ([] : List Nat)).getD k [] = [] := by
    simp [hk]
  refine (getD_foldl_joins (joins g t) (by simpa using hk) (nodup_joins g t) fun j _ => ?_).trans ?_
  · simp [hstart]
  · rw [hstart, nil_append]

theorem size_ofTree (g : Flow) (t : DomTree) : (ofTree g t).sets.size = t.order.blocks.length :=
  foldlRecOn (motive := fun sets : Array (List Nat) => sets.size = t.order.blocks.length)
    (joins g t) _ (Array.size_replicate ..) fun sets h e _ => (size_foldl_note e.2 sets).trans h

theorem parent_of_mem_get {j k} (h : j ∈ (ofTree g t).get k) :
    ∃ y i, t.order.blocks[j]? = some y ∧ t.parents.getD j none = some i := by
  have hk : k < t.order.blocks.length := by
    rw [← size_ofTree g t]
    refine Nat.lt_of_not_le fun hle => ?_
    simp [get, hle] at h
  rw [get_ofTree g t hk] at h
  obtain ⟨r, hr, rfl⟩ := mem_map.1 h
  obtain ⟨y, j, hy, hj⟩ := mem_joins.1 (mem_filter.1 hr).1
  obtain ⟨-, stop, hstop, rfl⟩ := joinAt_eq_some_iff.1 hj
  exact ⟨y, stop, hy, hstop⟩

section Body

variable {body : Body} {a b p u y : BlockId} {i j k stop : Nat} (hwf : body.WellFormed)
include hwf

theorem mem_climb (hu : body.order[stop]? = some u) (ha : body.order[k]? = some a) :
    ∀ (i : Nat) {p : BlockId}, body.order[i]? = some p → body.flow.Dom u p →
      (k ∈ climb body.domTree.parents stop i ↔ body.flow.Dom a p ∧ ¬ body.flow.Dom a u) := by
  intro i
  induction i using Nat.strongRecOn with
  | ind i ih =>
    intro p hp hdom
    rw [climb]
    by_cases his : i = stop
    · obtain rfl := (position_inj hp hu).1 his
      rw [if_pos his]
      exact ⟨fun h => by simp at h, fun h => absurd h.1 h.2⟩
    · have hup : u ≠ p := fun h => his ((position_inj hp hu).2 h.symm)
      have hi : i ≠ 0 := by
        rintro rfl
        obtain rfl := Option.mem_unique (order_head body) hp
        exact Flow.not_strictDom_entry ⟨hdom, hup⟩
      obtain ⟨j, q, hj, hlt, hq, hqp, hall⟩ := parent_spec hwf hp hi
      have hr := mem_order_iff.1 (mem_of_getElem? hp)
      rw [if_neg his, hj]
      dsimp only
      rw [if_pos hlt, mem_cons, ih j hlt hq (hall u hdom hup), position_inj ha hp]
      constructor
      · rintro (rfl | ⟨haq, hau⟩)
        · exact ⟨.refl _ _, fun h => hup (hdom.antisymm hr h)⟩
        · exact ⟨haq.trans hqp, hau⟩
      · rintro ⟨hap, hau⟩
        exact (Classical.em (a = p)).imp_right fun hne => ⟨hall a hap hne, hau⟩

theorem mem_preds (hy : body.order[j]? = some y) :
    i ∈ (body.flow.preds y).filterMap body.domTree.order.index? ↔
      ∃ p, body.order[i]? = some p ∧ body.flow.Edge p y := by
  rw [← mem_predPositions hwf hy]
  simp only [predPositions, Array.getD_eq_getD_getElem?, Array.getElem?_map,
    List.getElem?_toArray, hy, Option.map_some, Option.getD_some]
  rfl

theorem two_preds (hy : body.order[j]? = some y) (hne : y ≠ body.flow.entry)
    (h : body.flow.InFrontier b y) :
    ¬ ((body.flow.preds y).filterMap body.domTree.order.index?).length < 2 := by
  intro hlen
  obtain ⟨⟨p, hp, he, hbp⟩, hb⟩ := h
  have hone : ∀ i i', i ∈ (body.flow.preds y).filterMap body.domTree.order.index? →
      i' ∈ (body.flow.preds y).filterMap body.domTree.order.index? → i = i' := by
    intro i i' hi hi'
    rcases hl : (body.flow.preds y).filterMap body.domTree.order.index? with _ | ⟨c, _ | ⟨d, l⟩⟩
    · simp [hl] at hi
    · rw [hl, mem_singleton] at hi hi'
      exact hi.trans hi'.symm
    · rw [hl, length_cons, length_cons] at hlen
      omega
  refine hb (Flow.Dom.of_first_entries (mem_order_iff.1 (mem_of_getElem? hy)) hne
    fun q hq hqe _ => ?_)
  obtain ⟨i, hi⟩ := mem_iff_getElem?.1 (mem_order_iff.2 hp)
  obtain ⟨i', hi'⟩ := mem_iff_getElem?.1 (mem_order_iff.2 hq)
  have := hone i i' ((mem_preds hwf hy).2 ⟨p, hi, he⟩) ((mem_preds hwf hy).2 ⟨q, hi', hqe⟩)
  exact (position_inj hi hi').1 this ▸ hbp

theorem mem_get_iff (hb : body.order[k]? = some b)
    (hy : body.order[j]? = some y) (hne : y ≠ body.flow.entry) :
    j ∈ body.frontiers.get k ↔ body.flow.InFrontier b y := by
  have hj : j ≠ 0 := by
    rintro rfl
    exact hne (Option.some.inj (hy.symm.trans (order_head body)))
  obtain ⟨stop, u, hstop, hlt, hu, huy, hall⟩ := parent_spec hwf hy hj
  have hr := mem_order_iff.1 (mem_of_getElem? hy)
  have hne' : u ≠ y := fun h => by
    have := (position_inj hu hy).2 h
    omega
  have himm : body.flow.ImmDom u y := ⟨⟨huy, hne'⟩, fun a ha => hall a ha.1 ha.2⟩
  -- what a climb from a predecessor passes
  have hclimb : ∀ {i p}, body.order[i]? = some p → body.flow.Edge p y →
      (k ∈ climb body.domTree.parents stop i ↔ body.flow.Dom b p ∧ ¬ body.flow.StrictDom b y) :=
    fun {i p} hp he => by
      rw [← himm.dom_iff hr]
      exact mem_climb hwf hu hb i hp (huy.of_edge hne' he)
  rw [Body.frontiers, get_ofTree _ _ (List.getElem?_eq_some_iff.1 hb).1, mem_map]
  constructor
  · rintro ⟨r, hmem, rfl⟩
    obtain ⟨hjoin, hk⟩ := mem_filter.1 hmem
    obtain ⟨y', j', hy', hat⟩ := mem_joins.1 hjoin
    obtain ⟨-, stop', hstop', rfl⟩ := joinAt_eq_some_iff.1 hat
    obtain rfl : y = y' := Option.mem_unique hy hy'
    obtain rfl : stop = stop' := Option.mem_unique hstop hstop'
    obtain ⟨i, hi, hk⟩ := mem_flatMap.1 (of_decide_eq_true hk)
    obtain ⟨p, hp, he⟩ := (mem_preds hwf hy).1 hi
    obtain ⟨hbp, hnot⟩ := (hclimb hp he).1 hk
    exact ⟨⟨p, mem_order_iff.1 (mem_of_getElem? hp), he, hbp⟩, hnot⟩
  · intro h
    have htwo := two_preds hwf hy hne h
    obtain ⟨⟨p, hp, he, hbp⟩, hnot⟩ := h
    obtain ⟨i, hi⟩ := mem_iff_getElem?.1 (mem_order_iff.2 hp)
    refine ⟨_, mem_filter.2 ⟨mem_joins.2 ⟨y, j, hy, joinAt_eq_some_iff.2
      ⟨htwo, stop, hstop, rfl⟩⟩, decide_eq_true ?_⟩, rfl⟩
    exact mem_flatMap.2 ⟨i, (mem_preds hwf hy).2 ⟨p, hi, he⟩, (hclimb hi he).2 ⟨hbp, hnot⟩⟩

theorem block_of_mem_get (h : j ∈ body.frontiers.get k) :
    ∃ y, body.order[j]? = some y ∧ y ≠ body.flow.entry := by
  obtain ⟨y, i, hy, hi⟩ := parent_of_mem_get h
  have hy : body.order[j]? = some y := hy
  refine ⟨y, hy, ?_⟩
  rintro rfl
  obtain rfl := (position_inj hy (order_head body)).2 rfl
  rw [parents_getD hwf, if_pos rfl] at hi
  cases hi

theorem of?_eq_some_iff {l} : body.frontiers.of? b = some l ↔
    ∃ k, body.order[k]? = some b ∧
      (body.frontiers.get k).filterMap (body.order[·]?) = l := by
  rw [of?, Option.map_eq_some_iff]
  exact exists_congr fun k => and_congr_left fun _ => hwf.index?_eq_some_iff

theorem nodup_of?_spec (hb : body.flow.Reachable b) :
    ∃ l, body.frontiers.of? b = some l ∧ l.Nodup ∧
      ∀ y, y ∈ l ↔ body.flow.Reachable y ∧ y ≠ body.flow.entry ∧ body.flow.InFrontier b y := by
  obtain ⟨k, hk⟩ := mem_iff_getElem?.1 (mem_order_iff.2 hb)
  refine ⟨_, (of?_eq_some_iff hwf).2 ⟨k, hk, rfl⟩, ?_, fun y => ?_⟩
  · have hnd : (body.frontiers.get k).Nodup := by
      rw [Body.frontiers, get_ofTree _ _ (List.getElem?_eq_some_iff.1 hk).1]
      exact (filter_sublist.map Prod.fst).nodup (nodup_joins ..)
    refine pairwise_filterMap.2 (hnd.imp fun hne y hy z hz hyz => hne ?_)
    exact (position_inj hy hz).2 hyz
  · rw [mem_filterMap]
    constructor
    · rintro ⟨j, hj, hy⟩
      obtain ⟨y', hy', hne⟩ := block_of_mem_get hwf hj
      obtain rfl := Option.mem_unique hy hy'
      exact ⟨mem_order_iff.1 (mem_of_getElem? hy), hne, (mem_get_iff hwf hk hy hne).1 hj⟩
    · rintro ⟨hr, hne, h⟩
      obtain ⟨j, hj⟩ := mem_iff_getElem?.1 (mem_order_iff.2 hr)
      exact ⟨j, (mem_get_iff hwf hk hj hne).2 h, hj⟩

end Body

section Iterated

variable {body : Body} {defs : List BlockId} {d y : BlockId}

/-- `T` holds at the frontiers of the definitions and of the blocks where it holds. -/
def Closed (f : Frontiers) (defs : List BlockId) (T : BlockId → Prop) : Prop :=
  ∀ d l, d ∈ defs ∨ T d → f.of? d = some l → ∀ y ∈ l, T y

/-- The positions whose frontiers make up an iterated frontier. -/
def sources (f : Frontiers) (defs : List BlockId) : List Nat :=
  flood .newestFirst (List.range f.order.blocks.length) f.get
    (defs.filterMap f.order.index?).eraseDups (defs.filterMap f.order.index?)

theorem mem_iterated : y ∈ body.frontiers.iterated defs ↔ ∃ j, body.order[j]? = some y ∧
    ∃ k ∈ body.frontiers.sources defs, j ∈ body.frontiers.get k := by
  simp only [iterated, mem_filterMap, mem_filter, mem_range, decide_eq_true_eq,
    mem_flatMap]
  constructor
  · rintro ⟨j, ⟨-, hj⟩, hy⟩
    exact ⟨j, hy, hj⟩
  · rintro ⟨j, hy, hj⟩
    exact ⟨j, ⟨(List.getElem?_eq_some_iff.1 hy).1, hj⟩, hy⟩

theorem mem_sources (hwf : body.WellFormed) {k} (hk : body.order[k]? = some d)
    (h : d ∈ defs ∨ d ∈ body.frontiers.iterated defs) : k ∈ body.frontiers.sources defs := by
  obtain ⟨hstart, hnext⟩ := mem_flood .newestFirst
    (List.range body.frontiers.order.blocks.length) body.frontiers.get
    (defs.filterMap body.frontiers.order.index?).eraseDups
    (defs.filterMap body.frontiers.order.index?)
  rcases h with h | h
  · refine hstart k (mem_eraseDups.2 (mem_filterMap.2 ⟨d, h, ?_⟩))
    exact hwf.index?_eq_some_iff.2 hk
  · obtain ⟨j, hj, i, hi, hmem⟩ := mem_iterated.1 h
    obtain rfl := (position_inj hk hj).2 rfl
    have hlt : k < body.order.length := (List.getElem?_eq_some_iff.1 hk).1
    rcases hnext i hi k hmem (mem_range.2 hlt) with hs | hs
    · exact hstart k (mem_eraseDups.2 hs)
    · exact hs

theorem closed_iterated (hwf : body.WellFormed) (defs : List BlockId) :
    body.frontiers.Closed defs (· ∈ body.frontiers.iterated defs) := by
  intro d l hd hl y hy
  obtain ⟨k, hk, rfl⟩ := (of?_eq_some_iff hwf).1 hl
  obtain ⟨j, hj, hy⟩ := mem_filterMap.1 hy
  exact mem_iterated.2 ⟨j, hy, k, mem_sources hwf hk hd, hj⟩

theorem of_mem_iterated (hwf : body.WellFormed) {T} (hT : body.frontiers.Closed defs T)
    (h : y ∈ body.frontiers.iterated defs) : T y := by
  have hnext : ∀ {k d j y}, body.order[k]? = some d → d ∈ defs ∨ T d →
      j ∈ body.frontiers.get k → body.order[j]? = some y → T y := by
    intro k d j y hk hd hj hy
    exact hT d _ hd ((of?_eq_some_iff hwf).2 ⟨k, hk, rfl⟩) y (mem_filterMap.2 ⟨j, hj, hy⟩)
  have hsources : ∀ k ∈ body.frontiers.sources defs,
      ∃ d, body.order[k]? = some d ∧ (d ∈ defs ∨ T d) := by
    refine flood_induction _ ?_ _ _ ?_
    · rintro k j ⟨d, hk, hd⟩ hj -
      obtain ⟨y, hy, -⟩ := block_of_mem_get hwf hj
      exact ⟨y, hy, .inr (hnext hk hd hj hy)⟩
    · intro k hk
      obtain ⟨d, hd, hi⟩ := mem_filterMap.1 (mem_eraseDups.1 hk)
      exact ⟨d, hwf.index?_eq_some_iff.1 hi, .inl hd⟩
  obtain ⟨j, hy, k, hk, hj⟩ := mem_iterated.1 h
  obtain ⟨d, hd, hdefs⟩ := hsources k hk
  exact hnext hd hdefs hj hy

theorem iterated_sublist (f : Frontiers) (defs : List BlockId) :
    (f.iterated defs).Sublist f.order.blocks :=
  Eq.subst (motive := (f.iterated defs).Sublist) (DomTree.filterMap_range_getElem? f.order.blocks)
    (filter_sublist.filterMap _)

/-- Frontiers are exact, and iterated frontiers suffice to place merges. The frontier of a reachable
block lists, once each, the reachable blocks other than the entry that its dominance ends at. The
iterated frontier of some blocks is the least set that holds their frontiers and those of its own
members, in reverse post-order. A block outside it is reached from its immediate dominator without
passing, on the way, one of the blocks or a member of the set. -/
theorem frontiers_exact (hwf : body.WellFormed) :
    (∀ b, body.flow.Reachable b → ∃ l, body.frontiers.of? b = some l ∧ l.Nodup ∧
      ∀ y, body.flow.Reachable y → y ≠ body.flow.entry →
        (y ∈ l ↔ body.flow.InFrontier b y)) ∧
    ∀ defs : List BlockId,
      body.frontiers.Closed defs (· ∈ body.frontiers.iterated defs) ∧
      (∀ T, body.frontiers.Closed defs T → ∀ y ∈ body.frontiers.iterated defs, T y) ∧
      (body.frontiers.iterated defs).Sublist body.flow.order.blocks ∧
      (body.frontiers.iterated defs).Nodup ∧
      ∀ y u mid, body.flow.Reachable y → y ≠ body.flow.entry →
        y ∉ body.frontiers.iterated defs → body.domTree.idom? y = some u →
        body.flow.Via y u mid → u ∉ mid →
        ∀ d ∈ mid, d ∉ defs ∧ d ∉ body.frontiers.iterated defs := by
  refine ⟨fun b hb => ?_, fun defs => ⟨closed_iterated hwf defs,
    fun T hT y => of_mem_iterated hwf hT, iterated_sublist _ _,
    (iterated_sublist _ _).nodup (nodup_order body), ?_⟩⟩
  · obtain ⟨l, hl, hnd, hmem⟩ := nodup_of?_spec hwf hb
    exact ⟨l, hl, hnd, fun y hy hne => (hmem y).trans ⟨fun h => h.2.2, fun h => ⟨hy, hne, h⟩⟩⟩
  · intro y u mid hy _ hout hu hvia hmid d hd
    obtain ⟨-, himm⟩ := immDom_of_idom? hwf hu
    have hrd := hvia.reachable_of_mem (himm.1.1.reachable hy) d hd
    obtain ⟨l₁, l₂, rfl⟩ := append_of_mem hd
    rw [← not_or]
    refine fun h => hout (himm.of_via hy ?_ (hvia.drop l₁) hrd
      (fun h => hmid (mem_append_right l₁ h)) h)
    intro d c hrd hd hrc hne hc
    obtain ⟨l, hl, -, hmem⟩ := nodup_of?_spec hwf hrd
    exact closed_iterated hwf defs d l hd hl c ((hmem c).2 ⟨hrc, hne, hc⟩)

theorem of?_loopedChoice : loopedChoice.frontiers.of? ⟨6, 1⟩ = some [⟨1, 1⟩] := by
  decide +kernel

theorem iterated_loopedChoice :
    loopedChoice.frontiers.iterated [⟨2, 1⟩] = [⟨1, 1⟩] := by decide +kernel

theorem frontiers_exact_loopedChoice :
    DomTree.loopedChoice.flow.InFrontier ⟨6, 1⟩ ⟨1, 1⟩ ∧
    (⟨6, 1⟩ ∉ DomTree.loopedChoice.frontiers.iterated [⟨2, 1⟩] ∧
      DomTree.loopedChoice.flow.Via ⟨6, 1⟩ ⟨2, 1⟩ [⟨3, 1⟩] ∧
      ∀ d ∈ [⟨3, 1⟩], d ∉ DomTree.loopedChoice.frontiers.iterated [⟨2, 1⟩]) := by
  obtain ⟨hof, hiter⟩ := frontiers_exact wellFormed_loopedChoice
  constructor
  · obtain ⟨l, hl, -, hmem⟩ := hof _ reachable_loopedChoice
    obtain rfl := Option.some.inj (of?_loopedChoice.symm.trans hl)
    have h : loopedChoice.flow.order.blocks[1]? = some ⟨1, 1⟩ := by decide +kernel
    exact (hmem _ (mem_order_iff.1 (mem_of_getElem? h)) (by decide)).1 (by simp)
  · obtain ⟨-, -, -, -, hphis⟩ := hiter [⟨2, 1⟩]
    have hout : ⟨6, 1⟩ ∉ loopedChoice.frontiers.iterated [⟨2, 1⟩] := by
      rw [iterated_loopedChoice]
      decide
    have edge : ∀ p ∈ [(⟨2, 1⟩, ⟨3, 1⟩), (⟨3, 1⟩, ⟨6, 1⟩)],
        p.2 ∈ loopedChoice.flow.succs p.1 ∧ p.2 ∈ loopedChoice.flow.blocks := by
      decide +kernel
    have hvia : loopedChoice.flow.Via ⟨6, 1⟩ ⟨2, 1⟩ [⟨3, 1⟩] :=
      .cons (edge_iff.2 (edge (⟨2, 1⟩, ⟨3, 1⟩) (by simp)))
        (.last (edge_iff.2 (edge (⟨3, 1⟩, ⟨6, 1⟩) (by simp))))
    exact ⟨hout, hvia, fun d hd => (hphis _ _ _ reachable_loopedChoice (by decide) hout
      idom?_loopedChoice hvia (by decide) d hd).2⟩

end Iterated

end Frontiers

end EscapeAnalysis
