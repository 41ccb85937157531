import EscapeAnalysis.Locking.Elide
import EscapeAnalysis.Proofs.Constraints
import EscapeAnalysis.Proofs.Edits
import EscapeAnalysis.Proofs.MonitorPaths

/-!
# Balanced monitors

Where the monitors of a node are balanced, each block has a level: how often the monitor is held
when control enters the block, whatever the path (`MonitorOps.Levels`). An allocation that comes
before all operations on its objects is always at level zero (`Levels.levelAt_eq_zero`).

A monitor operation is elided exactly if it may act on an object of an elided allocation, and then
it acts on nothing else: its operand is the allocation behind some casts.
-/

namespace EscapeAnalysis

open List Body

namespace MonitorOps

variable {ops : MonitorOps} {body : Body} {n : Node} {x : InstId} {xs : List InstId} {i : Nat}
  {level : BlockId → Int} {b : BlockId}

/-- How often a monitor is held at the start of each block, whatever the path. -/
structure Levels (ops : MonitorOps) (body : Body) (n : Node) (level : BlockId → Int) : Prop where
  entry : level body.entry = 0
  nonneg : ∀ b ∈ body.order, ∀ i, 0 ≤ ops.run n ((body.block b).insts.take i) (level b)
  edge : ∀ b ∈ body.order, ∀ s, body.flow.Edge b s →
    level s = ops.run n (body.block b).insts (level b)

/-- How often the monitor is held right before position `i` of block `b`. -/
def levelAt (ops : MonitorOps) (body : Body) (n : Node) (level : BlockId → Int) (b : BlockId)
    (i : Nat) : Int :=
  ops.run n ((body.block b).insts.take i) (level b)

theorem levelAt_succ (hx : (body.block b).insts[i]? = some x) :
    ops.levelAt body n level b (i + 1) = ops.levelAt body n level b i + ops.delta n x :=
  run_take_succ hx _

theorem levelAt_length :
    ops.levelAt body n level b (body.block b).insts.length =
      ops.run n (body.block b).insts (level b) := by
  rw [levelAt, take_length]

theorem Even.exists_levels (h : ops.Even body n) : ∃ level, ops.Levels body n level := by
  classical
  -- any path to a block tells its level
  let level : BlockId → Int := fun b =>
    if hb : body.flow.Reachable b then ops.depthAlong body n (b :: hb.choose) else 0
  have hlevel : ∀ {b l}, body.flow.Path (b :: l) → level b = ops.depthAlong body n (b :: l) := by
    intro b l hpath
    have hb : body.flow.Reachable b := ⟨l, hpath⟩
    exact (dif_pos hb).trans (h.agree hb.choose_spec hpath)
  refine ⟨level, hlevel .entry, fun b hb i => ?_, fun b hb s e => ?_⟩ <;>
    obtain ⟨l, hpath⟩ := mem_order_iff.1 hb
  · exact hlevel hpath ▸ h.nonneg hpath i
  · rw [hlevel (.step hpath e), hlevel hpath]
    rfl

theorem levels_zero (h : ∀ x, ops.delta n x = 0) : ops.Levels body n fun _ => 0 := by
  have hrun : ∀ xs, ops.run n xs 0 = 0 := fun xs => run_eq_of_delta (fun x _ => h x) 0
  exact ⟨rfl, fun b _ i => Int.le_of_eq (hrun _).symm, fun b _ s _ => (hrun _).symm⟩

section Zero

variable {level : BlockId → Int} {a : InstId} {b : BlockId}
  (hl : ops.Levels body n level)
  (hops : ∀ b ∈ body.order, ∀ j x, (body.block b).insts[j]? = some x →
    ops.delta n x ≠ 0 → body.Available a b j)

include hl hops in
/-- A path that has not met the allocation has met no operation on its objects. -/
theorem Levels.eq_zero_of_path {l} (hpath : body.flow.Path (b :: l))
    (ha : ∀ d ∈ l, a ∉ (body.block d).insts) : level b = 0 := by
  generalize hm : b :: l = m at hpath
  induction hpath generalizing b l with
  | entry =>
    cases hm
    exact hl.entry
  | @step p s m hpath e ih =>
    cases hm
    have hp := mem_order_iff.2 ⟨m, hpath⟩
    rw [hl.edge p hp _ e, ih (fun d hd => ha d (by simp [hd])) rfl]
    refine run_eq_of_delta (fun x hx => Classical.byContradiction fun hne => ?_) 0
    obtain ⟨j, hj⟩ := mem_iff_getElem?.1 hx
    obtain ⟨d, k, hk, ⟨rfl, -⟩ | ⟨-, hdom⟩⟩ := hops p hp j x hj hne
    · exact ha d (by simp) (mem_of_getElem? hk)
    · exact ha d (hdom m hpath) (mem_of_getElem? hk)

/-- A block can be reached without meeting an instruction that is not available on entry. -/
theorem exists_path_avoiding (hc : body.Checked) (hlive : ∃ inst, body.insts.get? a = some inst)
    (hb : b ∈ body.order) (hna : ¬ body.Available a b 0) :
    ∃ l, body.flow.Path (b :: l) ∧ ∀ d ∈ l, a ∉ (body.block d).insts := by
  obtain ⟨inst, hinst⟩ := hlive
  by_cases hplaced : ∃ d, a ∈ (body.block d).insts
  · obtain ⟨d, hd⟩ := hplaced
    obtain ⟨j, hj⟩ := mem_iff_getElem?.1 hd
    have honly : ∀ d', a ∈ (body.block d').insts → d' = d := by
      intro d' hd'
      obtain ⟨j', hj'⟩ := mem_iff_getElem?.1 hd'
      exact (hc.once a inst hinst d' d j' j hj' hj).1
    by_cases hdb : d = b
    · subst hdb
      by_cases he : d = body.flow.entry
      · exact ⟨[], he ▸ .entry, by simp⟩
      · obtain ⟨l, hpath⟩ := mem_order_iff.1 hb
        obtain ⟨q, m, hq, e, hnot, -⟩ := hpath.first_entry he
        exact ⟨q :: m, .step hq e, fun d' hd' ha => hnot (honly d' ha ▸ hd')⟩
    · have hndom : ¬ body.flow.Dom d b := fun hdom => hna ⟨d, j, hj, .inr ⟨hdb, hdom⟩⟩
      simp only [Flow.Dom, Classical.not_forall] at hndom
      obtain ⟨l, hpath, hnot⟩ := hndom
      exact ⟨l, hpath, fun d' hd' ha => hnot (honly d' ha ▸ .tail b hd')⟩
  · obtain ⟨l, hpath⟩ := mem_order_iff.1 hb
    exact ⟨l, hpath, fun d _ ha => hplaced ⟨d, ha⟩⟩

include hl hops in
/-- Where the allocation is not available, the monitors of its objects are not held. -/
theorem Levels.levelAt_eq_zero (hc : body.Checked) (hlive : ∃ inst, body.insts.get? a = some inst)
    (hb : b ∈ body.order) (hna : ¬ body.Available a b i) :
    ops.levelAt body n level b i = 0 := by
  obtain ⟨l, hpath, hl'⟩ := exists_path_avoiding hc hlive hb fun h => hna (h.mono (Nat.zero_le i))
  rw [levelAt, hl.eq_zero_of_path hops hpath hl']
  refine run_eq_of_delta (fun x hx => Classical.byContradiction fun hne => ?_) 0
  obtain ⟨j, hj⟩ := mem_iff_getElem?.1 hx
  rw [List.getElem?_take] at hj
  split at hj
  · exact hna ((hops b hb j x hj hne).mono (by omega))
  · cases hj

end Zero

end MonitorOps

namespace NodeSet

variable {s : NodeSet} {m n : Node}

theorem mem_foldl_unless {β : Type} (p : β → Bool) (f : β → NodeSet) :
    ∀ (l : List β) (s : NodeSet), n ∈ l.foldl (fun s b => if p b then s else s ∪ f b) s ↔
      n ∈ s ∨ ∃ b ∈ l, p b = false ∧ n ∈ f b
  | [], s => by simp
  | b :: l, s => by
    rw [foldl_cons, mem_foldl_unless p f l]
    cases hp : p b <;> simp [hp, or_assoc]

theorem mem_foldl_insert (p : Node → Bool) :
    ∀ (l : List Node) (s : NodeSet), n ∈ l.foldl (fun s m => if p m then s.insert m else s) s ↔
      n ∈ s ∨ n ∈ l ∧ p n = true
  | [], s => by simp
  | m :: l, s => by
    rw [foldl_cons, mem_foldl_insert p l]
    cases hp : p m
    · simp only [Bool.false_eq_true, if_false, mem_cons]
      refine or_congr_right (and_congr_left fun hn => ?_)
      exact ⟨.inr, fun h => h.resolve_left fun e => by simp [e, hp] at hn⟩
    · simp only [if_true, mem_insert, mem_cons, or_assoc]
      refine or_congr_right ⟨fun h => ?_, fun h => ?_⟩
      · rcases h with rfl | h
        · exact ⟨.inl rfl, hp⟩
        · exact ⟨.inr h.1, h.2⟩
      · exact h.1.imp_right fun hl => ⟨hl, h.2⟩

theorem eq_of_size_eq_one (h : s.size = 1) (hm : m ∈ s) (hn : n ∈ s) : m = n := by
  have hlen : s.toList.length = 1 := by simpa [toList, size, BitSet.size] using h
  obtain ⟨a, ha⟩ := length_eq_one_iff.1 hlen
  rw [← mem_toList, ha, List.mem_singleton] at hm hn
  exact hm.trans hn.symm

end NodeSet

namespace Body

variable {body : Body} {x obj : InstId} {delta : Int}

theorem mem_monitorOps : (x, obj, delta) ∈ body.monitorOps ↔
    ∃ b ∈ body.order, x ∈ (body.block b).insts ∧
      (body.op? x).bind Op.monitor? = some (obj, delta) := by
  simp only [monitorOps, mem_flatMap, mem_filterMap, Option.map_eq_some_iff, Prod.exists,
    Prod.mk.injEq]
  constructor
  · rintro ⟨b, hb, y, hy, o, d, hop, rfl, rfl, rfl⟩
    exact ⟨b, hb, hy, hop⟩
  · rintro ⟨b, hb, hx, hop⟩
    exact ⟨b, hb, x, hx, obj, delta, hop, rfl, rfl, rfl⟩

theorem mem_monitorUses : (x, obj) ∈ body.monitorUses ↔
    ∃ b delta, x ∈ (body.block b).insts ∧
      (body.op? x).bind Op.monitor? = some (obj, delta) := by
  simp only [monitorUses, mem_flatMap, mem_filterMap, Option.map_eq_some_iff, Prod.exists,
    Prod.mk.injEq, SlotTable.values, mem_map, SlotTable.mem_toList_iff]
  constructor
  · rintro ⟨block, ⟨b, _, hb, rfl⟩, y, hy, o, d, hop, rfl, rfl⟩
    exact ⟨b, d, by simpa [Body.block, hb] using hy, hop⟩
  · rintro ⟨b, d, hx, hop⟩
    exact ⟨_, ⟨b, _, get?_of_mem_insts hx, rfl⟩, x, hx, obj, d, hop, rfl, rfl⟩

end Body

namespace Graph

variable {g : Graph} {body : Body} {x obj : InstId} {delta : Int} {n : Node}

/-- The monitor operations in reachable code that act on one node for certain. -/
def knownOps (g : Graph) (body : Body) : MonitorOps :=
  .ofList <| (body.monitorOps.map fun (x, obj, delta) => (x, g.ptsOf obj, delta)).flatMap
    fun (x, pts, delta) =>
      if pts.size = 1 then pts.toList.map fun n => (x, { node := n, delta }) else []

theorem mem_of_knownOps {op} (h : (g.knownOps body).get? x = some op) :
    ∃ obj, (x, obj, op.delta) ∈ body.monitorOps ∧ (g.ptsOf obj).size = 1 ∧
      op.node ∈ g.ptsOf obj := by
  have hmem := SideTable.mem_of_get?_ofList h
  simp only [mem_flatMap, mem_map, Prod.exists] at hmem
  obtain ⟨_, _, _, ⟨y, obj, d, hop, he⟩, hmem⟩ := hmem
  cases he
  split at hmem
  · rename_i hsize
    obtain ⟨m, hm, he⟩ := mem_map.1 hmem
    cases he
    exact ⟨obj, hop, hsize, NodeSet.mem_toList.1 hm⟩
  · cases hmem

theorem single_knownOps (g : Graph) (body : Body) : (g.knownOps body).Single := by
  intro x op hop
  obtain ⟨obj, hmem, -⟩ := mem_of_knownOps hop
  obtain ⟨-, -, -, hmon⟩ := mem_monitorOps.1 hmem
  obtain ⟨op', -, hmon⟩ := Option.bind_eq_some_iff.1 hmon
  exact (Op.of_monitor? hmon).imp And.right And.right

/-- The nodes that some monitor operation in reachable code may or may not act on. -/
def unclearNodes (g : Graph) (body : Body) : NodeSet :=
  (body.monitorOps.map fun (x, obj, delta) => (x, g.ptsOf obj, delta)).foldl
    (fun s (_, pts, _) => if pts.size = 1 then s else s ∪ pts) ∅

theorem unbalanced_eq (g : Graph) (body : Body) : g.unbalanced body =
    ((g.knownOps body).values.map MonitorOp.node).eraseDups.foldl
      (fun s m => if m ∉ g.unclearNodes body && (g.knownOps body).balance body m ≠ .even
        then s.insert m else s) (g.unclearNodes body) := rfl

theorem mem_unclearNodes : n ∈ g.unclearNodes body ↔
    ∃ e ∈ body.monitorOps, (g.ptsOf e.2.1).size ≠ 1 ∧ n ∈ g.ptsOf e.2.1 := by
  have h := NodeSet.mem_foldl_unless (n := n)
    (fun e : InstId × InstId × Int => decide ((g.ptsOf e.2.1).size = 1)) (fun e => g.ptsOf e.2.1)
    body.monitorOps ∅
  simp only [decide_eq_true_eq, decide_eq_false_iff_not, NodeSet.not_mem_empty, false_or] at h
  rw [unclearNodes, foldl_map]
  exact h

/-- Every operation that may act on a node that is not out of balance acts on it for certain, and
if there is one, the node is balanced. -/
theorem of_not_mem_unbalanced (h : n ∉ g.unbalanced body) :
    (∀ e ∈ body.monitorOps, n ∈ g.ptsOf e.2.1 → (g.ptsOf e.2.1).size = 1) ∧
    ((∃ x op, (g.knownOps body).get? x = some op ∧ op.node = n) →
      (g.knownOps body).balance body n = .even) := by
  rw [unbalanced_eq, NodeSet.mem_foldl_insert, not_or] at h
  obtain ⟨hclear, hbalanced⟩ := h
  refine ⟨fun e he hn => ?_, fun ⟨x, op, hop, hnode⟩ => ?_⟩
  · exact Classical.byContradiction fun hsize => hclear (mem_unclearNodes.2 ⟨e, he, hsize, hn⟩)
  · refine Classical.byContradiction fun hno => hbalanced ⟨?_, by simp [hclear, hno]⟩
    rw [mem_eraseDups, mem_map]
    exact ⟨op, SideTable.mem_values_iff.2 ⟨x, hop⟩, hnode⟩

section Numbering

variable {p : Program} {done : List InstId}

/-- Each allocation of the graph has its own number. -/
def Numbered (g : Graph) : Prop := ∀ n a, g.allocs[n]? = some a → g.allocOf.get? a.inst = some n

/-- The allocations of the graph are numbered, and all of them are among the instructions read so
far. -/
structure NumberedIn (p : Program) (body : Body) (done : List InstId) (g : Graph) : Prop where
  tables : Tables p body g
  numbered : g.Numbered
  read : ∀ y n, g.allocOf.get? y = some n → y ∈ done

theorem NumberedIn.addInst (hwf : body.insts.WellFormed) (h : NumberedIn p body done g)
    (hx : x ∉ done) : NumberedIn p body (x :: done) (addInst p body g x) := by
  refine ⟨h.tables.addInst hwf x, fun n a ha => ?_, fun y n hy => ?_⟩
  · rcases hal : allocation? p body x with _ | ⟨shape, escape⟩
    · obtain ⟨h1, h2, -⟩ := addInst_of_none (g := g) hal
      rw [h1] at ha
      rw [h2]
      exact h.numbered n a ha
    · obtain ⟨inst, hinst⟩ := exists_inst_of_allocation? hal
      obtain ⟨h1, h2, -⟩ := addInst_of_some (g := g) hal
      rw [h2, SideTable.get?_insert hwf h.tables.allocOf hinst]
      rw [h1, Array.getElem?_push] at ha
      split at ha
      · cases ha
        rw [if_pos rfl, ‹n = _›]
      · have hold := h.numbered n a ha
        rw [if_neg, hold]
        rintro rfl
        exact hx (h.read _ n hold)
  · rcases hal : allocation? p body x with _ | ⟨shape, escape⟩
    · rw [(addInst_of_none hal).2.1] at hy
      exact .tail x (h.read y n hy)
    · rw [(addInst_of_some hal).2.1] at hy
      rcases SideTable.get?_insert_cases _ _ _ hy with ⟨rfl, -⟩ | hy
      · exact .head _
      · exact .tail x (h.read y n hy)

theorem NumberedIn.insts (hwf : body.insts.WellFormed) {xs : List InstId}
    (h : NumberedIn p body done g) (hnd : xs.Nodup) (hdis : ∀ x ∈ xs, x ∉ done) :
    NumberedIn p body (xs.reverse ++ done) (xs.foldl (Graph.addInst p body) g) := by
  induction xs generalizing g done with
  | nil => exact h
  | cons x xs ih =>
    rw [nodup_cons] at hnd
    have := ih (h.addInst hwf (hdis x (by simp))) hnd.2 fun y hy hmem => by
      rcases mem_cons.1 hmem with rfl | hmem
      · exact hnd.1 hy
      · exact hdis y (by simp [hy]) hmem
    simpa using this

theorem NumberedIn.addTerm (h : NumberedIn p body done g) (t : Terminator) :
    NumberedIn p body done (g.addTerm t) := by
  have ht := h.tables.addTerm t
  rw [addTerm_eq] at ht ⊢
  exact ⟨ht, h.numbered, h.read⟩

theorem numbered_of_propagate (hwf : body.insts.WellFormed) (hc : body.Checked)
    {settings settings' changed b b'}
    (h : Metered.Yields ((ofBody p body settings).propagate settings') b (g, changed) b') :
    g.Numbered := by
  have loop : ∀ (bs : List BlockId) (done : List InstId) (g : Graph),
      (bs.flatMap fun b => (body.block b).insts).Nodup →
      (∀ b ∈ bs, ∀ x ∈ (body.block b).insts, x ∉ done) → NumberedIn p body done g →
      (bs.foldl (fun g b =>
        ((body.block b).insts.foldl (Graph.addInst p body) g).addTerm (body.block b).term)
        g).Numbered := by
    intro bs
    induction bs with
    | nil => exact fun done g _ _ h => h.numbered
    | cons b bs ih =>
      intro done g hnd hdis h
      rw [flatMap_cons, nodup_append] at hnd
      refine ih _ _ hnd.2.1 (fun d hd x hx hmem => ?_)
        ((h.insts hwf hnd.1 (hdis b (by simp))).addTerm _)
      rcases mem_append.1 hmem with hmem | hmem
      · exact hnd.2.2 x (by simpa using hmem) x (mem_flatMap.2 ⟨d, hd, hx⟩) rfl
      · exact hdis d (by simp [hd]) x hx hmem
  obtain ⟨f, rfl, -⟩ := of_propagate h
  exact loop body.order [] { elemLimit := settings.arraySizeLimit } hc.nodup_reached
    (by simp)
    ⟨.start _, by
      simp [Numbered], fun y n h => by simp [SideTable.get?] at h⟩

end Numbering

section Elidable

variable {replaced : Nat → Bool} {k : Nat}

theorem isDirect_eq_true : g.isDirect body x = true ↔
    ∃ n, g.allocOf.get? (body.underlying x) = some n ∧ g.ptsOf x = .singleton (.alloc n) := by
  rw [isDirect]
  cases g.allocOf.get? (body.underlying x) <;> simp

theorem of_mem_elidable (h : k ∈ g.elidable body replaced) :
    k < g.allocs.size ∧ g.escapeOf k = .none ∧ .alloc k ∉ g.unbalanced body ∧
      ∀ e ∈ body.monitorUses, .alloc k ∈ g.ptsOf e.2 → g.isDirect body e.2 = true := by
  simp only [elidable, mem_filter, allocNumbers, mem_range, Bool.and_eq_true,
    beq_iff_eq, decide_eq_true_eq] at h
  obtain ⟨hlt, ⟨⟨-, hesc⟩, -⟩, hrejected⟩ := h
  have hmem := NodeSet.mem_foldl_unless (n := .alloc k)
    (fun e : InstId × InstId => g.isDirect body e.2) (fun e => g.ptsOf e.2) body.monitorUses
    (g.unbalanced body)
  have hno := fun h => hrejected (hmem.2 h)
  refine ⟨hlt, hesc, fun h => hno (.inl h), fun e he hk => ?_⟩
  exact Classical.byContradiction fun hd => hno (.inr ⟨e, he, by simpa using hd, hk⟩)

end Elidable

end Graph

namespace Body

variable {body : Body} {b : BlockId} {x y : InstId} {i : Nat}

theorem castSource?_eq_some : body.castSource? x = some y ↔
    ∃ cls, body.op? x = some (.checkCast y cls) := by
  rw [castSource?]
  split
  · rename_i obj cls hop
    simp [hop]
  · rename_i hno
    simp only [reduceCtorEq, false_iff, not_exists]
    exact fun cls hop => hno y cls hop

theorem Checked.available_of_monitor {op obj d} (hc : body.Checked)
    (hb : b ∈ body.order) (hi : (body.block b).insts[i]? = some x)
    (hop : body.op? x = some op) (hmon : op.monitor? = some (obj, d)) : body.Available obj b i := by
  obtain ⟨op', hop', hcheck⟩ := hc.inst b hb i x hi
  obtain rfl : op' = op := by simpa [hop'] using hop
  obtain ⟨rfl, -⟩ | ⟨rfl, -⟩ := Op.of_monitor? hmon <;>
    exact hcheck.operands rfl obj (by simp [Op.operands])

theorem Checked.available_underlying (hc : body.Checked) (hb : b ∈ body.order)
    (h : body.Available x b i) : body.Available (body.underlying x) b i := by
  refine chainEnd_induction (P := fun y => body.Available y b i) (fun y z hy hyz => ?_) _ x h
  obtain ⟨cls, hop⟩ := castSource?_eq_some.1 hyz
  exact hc.available_of_operand hb hop rfl (by simp [Op.operands]) hy

end Body

/-- The elision of locks in a body that passes the check, with a solved graph of that body. -/
structure Elision (p : Program) (body : Body) where
  graph : Graph
  replaced : Nat → Bool
  wf : body.WellFormed
  checked : body.Checked
  solved : graph.Solved p body
  numbered : graph.Numbered

namespace Elision

variable {p : Program} {body : Body} (E : Elision p body)

def sites : List Nat := E.graph.elidable body E.replaced

def site (n : Nat) : InstId := (E.graph.alloc n).inst

/-- The monitor operations that go. -/
def dead : List InstId :=
  (body.monitorUses.filter fun (_, obj) => body.underlying obj ∈ E.sites.map E.site).map Prod.fst

/-- All instructions that go. -/
def gone : List InstId := E.dead ++ body.barriersOf E.dead

def mark : MonitorSlot → MonitorSlot := .eliminate E.graph (E.sites.map E.site)

def result : Body := (body.elide E.graph E.replaced).1

variable {E} {n : Nat} {b : BlockId} {x y obj : InstId} {i : Nat} {d : Int} {sp : SafepointId}

section Result

theorem gone_of_sites (h : E.sites = []) : E.gone = [] := by
  have hdead : E.dead = [] := by simp [dead, h]
  rw [gone, hdead, nil_append, eq_nil_iff_forall_not_mem]
  intro x hx
  obtain ⟨store, hs, -⟩ := (mem_barriersOf []).1 hx
  cases hs

theorem mark_of_sites (h : E.sites = []) (slot : MonitorSlot) : E.mark slot = slot := by
  obtain ⟨obj, eliminated⟩ := slot
  cases obj <;> simp [mark, MonitorSlot.eliminate, h]

theorem op?_result (x : InstId) : E.result.op? x = if x ∈ E.gone then none else body.op? x := by
  rw [result, Body.elide]
  split
  · rename_i h
    rw [gone_of_sites (isEmpty_iff.1 h)]
    simp
  · exact op?_removeInsts ..

theorem block_result (b : BlockId) : E.result.block b =
    { body.block b with insts := (body.block b).insts.filter (· ∉ E.gone) } := by
  rw [result, Body.elide]
  split
  · rename_i h
    simp [gone_of_sites (isEmpty_iff.1 h), filter_eq_self.2]
  · exact block_removeInsts ..

theorem states_result (sp : SafepointId) : E.result.states.get? sp =
    (body.states.get? sp).map fun state =>
      { state with monitors := state.monitors.map E.mark } := by
  rw [result, Body.elide]
  split
  · rename_i h
    have hmark : E.mark = id := funext (mark_of_sites (isEmpty_iff.1 h))
    simp [hmark]
  · exact SlotTable.get?_map ..

theorem entry_result : E.result.entry = body.entry := by
  rw [result, Body.elide]
  split <;> rfl

theorem params_result : E.result.params = body.params := by
  rw [result, Body.elide]
  split <;> rfl

end Result

theorem site_eq (hx : E.graph.allocOf.get? x = some n) : E.site n = x := by
  obtain ⟨_, _, -, halloc, -⟩ := E.solved.read.tables.alloc _ n hx
  rw [site, Graph.alloc, Array.getD_eq_getD_getElem?, halloc]
  rfl

section Sites

variable (hn : n ∈ E.sites)
include hn

theorem lt_of_mem_sites : n < E.graph.allocs.size := (Graph.of_mem_elidable hn).1

theorem escapeOf_of_mem_sites : E.graph.escapeOf n = .none := (Graph.of_mem_elidable hn).2.1

theorem allocOf_site : E.graph.allocOf.get? (E.site n) = some n := by
  have hlt := lt_of_mem_sites hn
  have ha : E.graph.allocs[n]? = some (E.graph.alloc n) := by
    simp [Graph.alloc, Array.getElem?_eq_getElem hlt, Array.getD_eq_getD_getElem?]
  exact E.numbered n _ ha

theorem op?_site : ∃ op, body.op? (E.site n) = some op ∧ op.isAlloc = true := by
  obtain ⟨shape, escape, ha, -⟩ := E.solved.read.tables.alloc _ n (allocOf_site hn)
  rw [Graph.allocation?] at ha
  split at ha
  · exact ⟨_, ‹_›, rfl⟩
  · exact ⟨_, ‹_›, rfl⟩
  · cases ha

/-- An operand that may be an object of the allocation is the allocation behind some casts, and
nothing else. -/
theorem direct (hx : (x, obj) ∈ body.monitorUses) (hpts : .alloc n ∈ E.graph.ptsOf obj) :
    body.underlying obj = E.site n ∧ E.graph.ptsOf obj = .singleton (.alloc n) := by
  have hdirect := (Graph.of_mem_elidable hn).2.2.2 (x, obj) hx hpts
  obtain ⟨k, hk, hsingle⟩ := Graph.isDirect_eq_true.1 hdirect
  rw [hsingle, NodeSet.mem_singleton] at hpts
  cases hpts
  exact ⟨(site_eq hk).symm, hsingle⟩

end Sites

theorem mem_sites_of_inst (h : (E.graph.alloc n).inst ∈ E.sites.map E.site) : n ∈ E.sites := by
  obtain ⟨k, hk, he⟩ := mem_map.1 h
  by_cases hn : n < E.graph.allocs.size
  · have hget : E.graph.allocs[n]? = some (E.graph.alloc n) := by
      simp [Graph.alloc, Array.getElem?_eq_getElem hn, Array.getD_eq_getD_getElem?]
    have hsite := allocOf_site hk
    rw [he, E.numbered n _ hget] at hsite
    exact Option.some.inj hsite ▸ hk
  · obtain ⟨op, hop, -⟩ := op?_site hk
    obtain ⟨inst, hinst, -⟩ := op?_eq_some_iff.1 hop
    refine absurd ?_ (E.wf.insts.ne_null hinst)
    rw [he, Graph.alloc, Array.getD_eq_getD_getElem?, Array.getElem?_eq_none (Nat.le_of_not_lt hn)]
    rfl

theorem obj_mark (slot : MonitorSlot) : (E.mark slot).obj = slot.obj := by
  rw [mark, MonitorSlot.eliminate]
  split
  · split <;> rfl
  · rfl

theorem eliminated_mark {slot} (hx : slot.obj = .value x) :
    (E.mark slot).eliminated = true ↔
      slot.eliminated = true ∨ ∃ n ∈ E.sites, .alloc n ∈ E.graph.ptsOf x := by
  have hany : ((E.graph.allocsOf x).any fun n => (E.graph.alloc n).inst ∈ E.sites.map E.site) =
      true ↔ ∃ n ∈ E.sites, .alloc n ∈ E.graph.ptsOf x := by
    simp only [any_eq_true, Graph.allocsOf, NodeSet.mem_allocs, decide_eq_true_eq]
    constructor
    · rintro ⟨n, hn, hsite⟩
      exact ⟨n, mem_sites_of_inst hsite, hn⟩
    · rintro ⟨n, hn, hpts⟩
      exact ⟨n, hpts, mem_map_of_mem hn⟩
  obtain ⟨obj, eliminated⟩ := slot
  cases hx
  simp only [mark, MonitorSlot.eliminate]
  split
  · rename_i h
    exact ⟨fun _ => .inr (hany.1 h), fun _ => rfl⟩
  · rename_i h
    exact ⟨.inl, fun he => he.resolve_right fun hn => h (hany.2 hn)⟩

theorem mem_gone_of_pts (hn : n ∈ E.sites) (hx : x ∈ (body.block b).insts)
    (hop : (body.op? x).bind Op.monitor? = some (obj, d)) (hpts : .alloc n ∈ E.graph.ptsOf obj) :
    x ∈ E.gone := by
  have huse := mem_monitorUses.2 ⟨b, d, hx, hop⟩
  refine mem_append_left _ (mem_map.2 ⟨(x, obj), mem_filter.2 ⟨huse, ?_⟩, rfl⟩)
  exact decide_eq_true (mem_map.2 ⟨n, hn, (direct hn huse hpts).1.symm⟩)

theorem of_mem_gone (hb : b ∈ body.order) (hi : (body.block b).insts[i]? = some x)
    (hx : x ∈ E.gone) : ∃ op obj d, body.op? x = some op ∧ op.monitor? = some (obj, d) ∧
      ∃ n ∈ E.sites, body.underlying obj = E.site n := by
  have hdead : ∀ y ∈ E.dead, ∃ op obj d, body.op? y = some op ∧ op.monitor? = some (obj, d) ∧
      ∃ n ∈ E.sites, body.underlying obj = E.site n := by
    intro y hy
    obtain ⟨⟨z, obj⟩, hmem, rfl⟩ := mem_map.1 hy
    obtain ⟨huse, hsite⟩ := mem_filter.1 hmem
    obtain ⟨b, d, -, hop⟩ := mem_monitorUses.1 huse
    obtain ⟨op, hop, hmon⟩ := Option.bind_eq_some_iff.1 hop
    obtain ⟨n, hn, he⟩ := mem_map.1 (of_decide_eq_true hsite)
    exact ⟨op, obj, d, hop, hmon, n, hn, he.symm⟩
  rcases mem_append.1 hx with hx | hx
  · exact hdead x hx
  · obtain ⟨store, hstore, hbarrier⟩ := (mem_barriersOf _).1 hx
    obtain ⟨op, hop, hcheck⟩ := E.checked.inst b hb i x hi
    obtain rfl : op = .barrier store := by simpa [hbarrier] using hop.symm
    -- a barrier belongs to a store, and none of those goes
    obtain ⟨op', hop', hstoreop⟩ := hcheck.barrier store rfl
    obtain ⟨op, _, _, hop, hmon, -⟩ := hdead store hstore
    obtain rfl : op' = op := by simpa [hop'] using hop
    obtain ⟨rfl, -⟩ | ⟨rfl, -⟩ := Op.of_monitor? hmon <;> simp [Op.isRefStore] at hstoreop

section Levels

variable (hn : n ∈ E.sites)
include hn

theorem delta_eq (hb : b ∈ body.order) (hx : x ∈ (body.block b).insts)
    (hop : (body.op? x).bind Op.monitor? = some (obj, d)) (hpts : .alloc n ∈ E.graph.ptsOf obj) :
    (E.graph.knownOps body).delta (.alloc n) x = d := by
  have hmem : (x, obj, d) ∈ body.monitorOps := mem_monitorOps.2 ⟨b, hb, hx, hop⟩
  have hsize := (Graph.of_not_mem_unbalanced (Graph.of_mem_elidable hn).2.2.1).1 _ hmem hpts
  obtain ⟨op, hget⟩ : ∃ op, (E.graph.knownOps body).get? x = some op := by
    refine SideTable.contains_foldl_insert E.wf.insts (.empty _) (fun e he => ?_)
      (.inr ?_)
    · simp only [mem_flatMap, mem_map, Prod.exists] at he
      obtain ⟨_, _, _, ⟨y, obj', d', hop', hy⟩, he⟩ := he
      cases hy
      split at he
      · obtain ⟨m, -, rfl⟩ := mem_map.1 he
        obtain ⟨b', hb', hy, -⟩ := mem_monitorOps.1 hop'
        exact E.checked.live hb' hy
      · cases he
    · refine mem_map.2 ⟨(x, ⟨.alloc n, d⟩), ?_, rfl⟩
      refine mem_flatMap.2 ⟨_, mem_map.2 ⟨_, hmem, rfl⟩, ?_⟩
      simp only [hsize, if_true]
      exact mem_map.2 ⟨.alloc n, NodeSet.mem_toList.2 hpts, rfl⟩
  obtain ⟨obj', hop', hsize', hnode⟩ := Graph.mem_of_knownOps hget
  obtain ⟨_, -, -, hop'⟩ := mem_monitorOps.1 hop'
  rw [hop] at hop'
  cases hop'
  rw [MonitorOps.delta, hget]
  simp only [NodeSet.eq_of_size_eq_one hsize' hnode hpts, if_true]

theorem of_delta_ne_zero (h : (E.graph.knownOps body).delta (.alloc n) x ≠ 0) :
    ∃ b ∈ body.order, ∃ obj d, x ∈ (body.block b).insts ∧
      (body.op? x).bind Op.monitor? = some (obj, d) ∧ body.underlying obj = E.site n ∧
      E.graph.ptsOf obj = .singleton (.alloc n) := by
  rw [MonitorOps.delta] at h
  split at h
  · rename_i op hget
    split at h
    · rename_i hnode
      obtain ⟨obj, hmem, -, hpts⟩ := Graph.mem_of_knownOps hget
      obtain ⟨b, hb, hx, hop⟩ := mem_monitorOps.1 hmem
      obtain ⟨hunder, hsingle⟩ :=
        direct hn (mem_monitorUses.2 ⟨b, _, hx, hop⟩) (hnode ▸ hpts)
      exact ⟨b, hb, obj, _, hx, hop, hunder, hsingle⟩
    · exact absurd rfl h
  · exact absurd rfl h

theorem delta_eq_zero {op} (hop : body.op? x = some op) (hmon : op.monitor? = none) :
    (E.graph.knownOps body).delta (.alloc n) x = 0 := by
  refine Classical.byContradiction fun hne => ?_
  obtain ⟨_, -, obj, d, -, hop', -⟩ := of_delta_ne_zero hn hne
  simp [hop, hmon] at hop'

theorem delta_site : (E.graph.knownOps body).delta (.alloc n) (E.site n) = 0 := by
  obtain ⟨op, hop, halloc⟩ := E.op?_site hn
  exact delta_eq_zero hn hop (by cases op <;> first | rfl | cases halloc)

theorem exists_levels : ∃ level, (E.graph.knownOps body).Levels body (.alloc n) level := by
  obtain ⟨-, hbalanced⟩ := Graph.of_not_mem_unbalanced (Graph.of_mem_elidable hn).2.2.1
  by_cases hop : ∃ x op, (E.graph.knownOps body).get? x = some op ∧ op.node = .alloc n
  · have hexact := MonitorOps.found_entry.search (n := .alloc n) E.wf
      (E.graph.single_knownOps body) (by simp [MonitorOps.Visited])
    rw [← MonitorOps.balance, hbalanced hop] at hexact
    simp only [reduceCtorEq, false_and, or_false, true_and] at hexact
    exact hexact.exists_levels
  · refine ⟨_, MonitorOps.levels_zero fun x => ?_⟩
    rw [MonitorOps.delta]
    split
    · rename_i op hget
      exact if_neg fun hnode => hop ⟨x, op, hget, hnode⟩
    · rfl

theorem available_site (hb : b ∈ body.order) (hi : (body.block b).insts[i]? = some x)
    (h : (E.graph.knownOps body).delta (.alloc n) x ≠ 0) : body.Available (E.site n) b i := by
  obtain ⟨_, -, obj, d, -, hop, hunder, -⟩ := of_delta_ne_zero hn h
  obtain ⟨op, hop, hmon⟩ := Option.bind_eq_some_iff.1 hop
  exact hunder ▸ E.checked.available_underlying hb (E.checked.available_of_monitor hb hi hop hmon)

end Levels

section Code

variable (hb : b ∈ body.order)
include hb

theorem not_gone_of_mem_phis (hx : x ∈ body.phis b) : x ∉ E.gone := by
  intro hgone
  obtain ⟨i, hi⟩ := mem_iff_getElem?.1 (mem_insts_of_mem_phis hx)
  obtain ⟨op, obj, d, hop, hmon, -⟩ := of_mem_gone hb hi hgone
  have hphi := (isPhi_of_op? hop).symm.trans (isPhi_of_mem_phis hx)
  obtain ⟨rfl, -⟩ | ⟨rfl, -⟩ := Op.of_monitor? hmon <;> simp [Op.isPhi] at hphi

theorem phis_code_result : E.result.phis b = body.phis b ∧
    E.result.code b = (body.code b).filter (· ∉ E.gone) := by
  refine E.checked.phis_code_of_filter hb (by rw [block_result])
    (fun x hx => decide_eq_true (not_gone_of_mem_phis hb hx)) fun x _ hkept => ?_
  rw [isPhi, op?_result, if_neg (of_decide_eq_true hkept), isPhi]

end Code

end Elision

end EscapeAnalysis
