import EscapeAnalysis.Proofs.Dominance
import EscapeAnalysis.Proofs.Steps

/-!
# What the check of a body establishes

A run only enters blocks that the entry reaches, or keys that name no block, and what is left of a
block is the end of its code (`Machine.Located`).

An instruction is available at a position if it stands earlier in the same block or in a block that
dominates it. A body that passes `Body.check` has no instruction in two places, and whatever its
reachable code reads is available where it is read.
-/

namespace EscapeAnalysis

open List EscapeAnalysis.Except Checker

namespace Body

variable {body : Body} {b : BlockId} {x : InstId}

theorem block_of_not_live (h : body.blocks.get? b = none) : body.block b = default := by
  rw [block, h]
  rfl

theorem mem_insts_of_mem_code (h : x ∈ body.code b) : x ∈ (body.block b).insts :=
  (dropWhile_suffix _).subset h

theorem mem_insts_of_mem_phis (h : x ∈ body.phis b) : x ∈ (body.block b).insts :=
  ( takeWhile_prefix _).subset h

theorem isPhi_iff : body.isPhi x = true ↔ ∃ inputs, body.op? x = some (.phi inputs) := by
  rw [isPhi]
  rcases body.op? x with _ | op
  · simp
  · cases op <;> simp [Op.isPhi]

theorem isPhi_of_mem_phis (h : x ∈ body.phis b) : body.isPhi x = true := by
  have hall := all_takeWhile (l := (body.block b).insts) (p := body.isPhi)
  exact all_eq_true.1 hall x h

end Body

namespace Machine

variable {σ : Type} {m : Machine} {host : Host σ} {s t : RunState σ}
variable {f : Frame} {phis : List InstId}

theorem Takes.mem_targets {values term b} (h : Takes values term b) : b ∈ term.targets := by
  cases h with
  | jump => simp [Terminator.targets]
  | branch => split <;> simp [Terminator.targets]
  | invoke => simp [Terminator.targets]

/-- The value that a phi takes over is that of its first input for the edge. -/
theorem phiInput_eq_ok {pred x v} :
    m.phiInput f pred x = .ok v ↔ ∃ inputs y, m.body.op? x = some (.phi inputs) ∧
      inputs.find? (·.1 == pred) = some (pred, y) ∧ f.values.get? y = some v := by
  simp only [phiInput]
  constructor
  · intro h
    split at h
    · cases h
    · rename_i b y hfind
      rcases ho : m.body.op? x with _ | op
      · simp [ho] at hfind
      · cases op <;> simp only [ho, List.find?_nil] at hfind <;> try cases hfind
        rename_i inputs
        have hb : b = pred := by simpa using List.find?_some hfind
        subst hb
        refine ⟨inputs, y, rfl, hfind, ?_⟩
        split at h
        · rename_i w hw
          cases h
          exact hw
        · cases h
  · rintro ⟨inputs, y, ho, hfind, hv⟩
    simp only [ho, hfind, hv]
    rfl

theorem foldl_set_eq : ∀ (l : List (InstId × Value)) (f : Frame),
    l.foldl (fun f (phi, v) => f.set phi v) f =
      { f with values := l.foldl (fun t (x, v) => t.insert x v) f.values }
  | [], _ => rfl
  | e :: l, f => foldl_set_eq l (f.set e.1 e.2)

theorem enterPhis_spec {f'} (h : m.enterPhis f phis = .ok f') :
    ∃ incoming : List (InstId × Value), incoming.map Prod.fst = phis ∧
      (∀ e ∈ incoming, ∃ pred, f.pred = some pred ∧ m.phiInput f pred e.1 = .ok e.2) ∧
      f' = { f with values := incoming.foldl (fun t (x, v) => t.insert x v) f.values } := by
  rcases phis with _ | ⟨x, phis⟩
  · simp only [enterPhis, pure_eq_ok] at h
    exact ⟨[], rfl, by simp, h ▸ rfl⟩
  · rcases hp : f.pred with _ | pred
    · simp [enterPhis, hp, throw, throwThe, MonadExceptOf.throw] at h
    · simp only [enterPhis, hp, bind_eq_ok, pure_eq_ok, mapM_eq_ok] at h
      obtain ⟨incoming, hin, rfl⟩ := h
      obtain ⟨h1, h2⟩ := inputs_of_map_eq hin
      exact ⟨incoming, h1, fun e he => ⟨pred, rfl, h2 e he⟩, hp ▸ foldl_set_eq incoming f⟩
where
  inputs_of_map_eq {f : Frame} {pred : BlockId} : ∀ {xs : List InstId}
      {incoming : List (InstId × Value)},
      xs.map (fun phi => do pure (phi, ← m.phiInput f pred phi)) = incoming.map Except.ok →
      incoming.map Prod.fst = xs ∧ ∀ e ∈ incoming, m.phiInput f pred e.1 = .ok e.2
    | [], [], _ => by simp
    | x :: xs, e :: incoming, h => by
      simp only [map_cons, List.cons.injEq, bind_eq_ok, pure_eq_ok] at h
      obtain ⟨⟨v, hv, rfl⟩, hrest⟩ := h
      obtain ⟨h1, h2⟩ := inputs_of_map_eq hrest
      refine ⟨by simp [h1], fun e he => ?_⟩
      rcases mem_cons.1 he with rfl | he
      · exact hv
      · exact h2 e he

theorem enterPhis_congr {m' : Machine} (hop : ∀ x ∈ phis, m'.body.op? x = m.body.op? x) :
    m'.enterPhis f phis = m.enterPhis f phis := by
  have hin : ∀ pred, (phis.mapM fun phi => do pure (phi, ← m'.phiInput f pred phi)) =
      (phis.mapM fun phi => do pure (phi, ← m.phiInput f pred phi)) := by
    intro pred
    induction phis with
    | nil => rfl
    | cons x phis ih =>
      rw [mapM_cons, mapM_cons, ih fun y hy => hop y (.tail _ hy),
        phiInput, phiInput, hop x (.head _)]
  rcases phis with _ | ⟨x, phis⟩
  · rfl
  · rcases hp : f.pred with _ | pred <;> simp only [enterPhis, hp, hin]

theorem exists_enterPhis
    (h : ∀ x ∈ phis, ∃ pred v, f.pred = some pred ∧ m.phiInput f pred x = .ok v) :
    ∃ f', m.enterPhis f phis = .ok f' := by
  rcases phis with _ | ⟨x, phis⟩
  · exact ⟨f, rfl⟩
  · obtain ⟨pred, v, hp, -⟩ := h x (.head _)
    simp only [enterPhis, hp, bind_eq_ok, pure_eq_ok]
    rcases hin : (x :: phis).mapM fun phi => do pure (phi, ← m.phiInput f pred phi) with
      e | incoming
    · obtain ⟨y, hy, he⟩ := mapM_eq_error hin
      obtain ⟨pred', w, hp', hw⟩ := h y hy
      obtain rfl : pred = pred' := by simpa [hp] using hp'
      simp [hw, bind, Except.bind, pure, Except.pure] at he
    · exact ⟨_, incoming, hin, rfl⟩

/-- The run is in a block that the entry reaches, or nowhere, and has the end of its code left. A
block that it is about to enter is the entry or has been reached along an edge. -/
structure Located (m : Machine) (s : RunState σ) : Prop where
  block : s.frame.block ∈ m.body.flow.order.blocks ∨ m.body.blocks.get? s.frame.block = none
  rest : ∀ rest, s.rest = some rest → rest <:+ m.body.code s.frame.block
  pred : s.rest = none → ∀ p, s.frame.pred = some p →
    p ∈ m.body.flow.order.blocks ∧ s.frame.block ∈ (m.body.block p).term.targets
  entry : s.rest = none → s.frame.pred = none → s.frame.block = m.body.entry

theorem located_start (m : Machine) (heap : Heap) (state : σ) : m.Located (m.start heap state) where
  block := .inl (Body.entry_mem_order m.body)
  rest _ h := by cases h
  pred _ _ h := by cases h
  entry _ _ := rfl

namespace Located

variable {x : InstId} {b : BlockId} {rest : List InstId}

variable (hl : m.Located s)
include hl

theorem mem_order_of_mem (hx : x ∈ (m.body.block s.frame.block).insts) :
    s.frame.block ∈ m.body.order := by
  refine hl.block.resolve_right fun hnone => ?_
  rw [Body.block_of_not_live hnone] at hx
  cases hx

theorem mem_insts (hr : s.Next x rest) :
    s.frame.block ∈ m.body.order ∧
      x ∈ (m.body.block s.frame.block).insts := by
  have hx : x ∈ (m.body.block s.frame.block).insts :=
    Body.mem_insts_of_mem_code ((hl.rest _ hr).subset (by simp))
  exact ⟨hl.mem_order_of_mem hx, hx⟩

theorem mem_order (hterm : (m.body.block s.frame.block).term ≠ .unreachable) :
    s.frame.block ∈ m.body.order := by
  refine hl.block.resolve_right fun hnone => hterm ?_
  rw [Body.block_of_not_live hnone]
  rfl

theorem mem_order_of_ends {e heap state} (he : m.Ends host s e heap state) :
    s.frame.block ∈ m.body.order := by
  cases he with
  | ret _ hterm | retValue _ hterm | throw _ hterm | deopt _ hterm =>
    exact hl.mem_order (by simp [hterm])
  | leave hr | uncaught hr => exact (hl.mem_insts hr).1

section

variable (hb : b ∈ (m.body.block s.frame.block).term.targets)
include hb

theorem mem_order_of_targets : s.frame.block ∈ m.body.order :=
  hl.mem_order fun h => by simp [h, Terminator.targets] at hb

theorem target : b ∈ m.body.order ∨ m.body.blocks.get? b = none := by
  have hs := hl.mem_order_of_targets hb
  rcases hlive : m.body.blocks.get? b with _ | block
  · exact .inr rfl
  · exact .inl (Body.mem_order_of_edge hs
      (Body.edge_iff.2 ⟨hb, Body.mem_flow_blocks.2 ⟨block, hlive⟩⟩))

theorem jump (hblock : t.frame.block = b)
    (hpred : t.frame.pred = some s.frame.block) (hrest : t.rest = none) : m.Located t where
  block := hblock ▸ hl.target hb
  rest _ h := by simp [hrest] at h
  pred _ p hp := by
    obtain rfl : s.frame.block = p := by simpa [hpred] using hp
    exact ⟨hl.mem_order_of_targets hb, hblock ▸ hb⟩
  entry _ h := by simp [hpred] at h

end

theorem behind (hr : s.Next x rest) (v : Option Value) (heap : Heap) (state : σ) :
    m.Located (s.past x v rest heap state) := by
  refine ⟨by simpa using hl.block, fun rest' hrest => ?_, by simp, by simp⟩
  cases hrest
  simpa using (suffix_cons _ _).trans (hl.rest _ hr)

theorem step (h : m.Step host s t) : m.Located t := by
  cases h with
  | enter hr hf =>
    obtain ⟨incoming, -, -, rfl⟩ := enterPhis_spec hf
    refine ⟨hl.block, fun rest hrest => ?_, by simp, by simp⟩
    cases hrest
    exact suffix_refl _
  | op hr => exact hl.behind hr ..
  | caught hr ho hleave ht hterm =>
    exact hl.jump (by simp [hterm, Terminator.targets, Frame.jump]) rfl rfl rfl
  | goTo hr hb => exact hl.jump hb.mem_targets rfl rfl rfl

theorem steps (h : m.Steps host s t) : m.Located t := by
  induction h with
  | refl => exact hl
  | tail _ hs ih => exact ih.step hs

end Located

end Machine

namespace Except

variable {ε α : Type}

theorem seq_eq_ok {x} {k : Unit → Except ε α} {a} :
    (x >>= k) = .ok a ↔ x = .ok () ∧ k () = .ok a := by
  rw [bind_eq_ok]
  exact ⟨fun ⟨_, h⟩ => h, fun h => ⟨(), h⟩⟩

theorem forM_eq_ok {f : α → Except ε Unit} {xs : List α} :
    xs.forM f = .ok () ↔ ∀ x ∈ xs, f x = .ok () := by
  induction xs with
  | nil => simp [List.forM, pure_eq_ok]
  | cons x xs ih =>
    show (f x >>= fun _ => xs.forM f) = .ok () ↔ _
    rw [seq_eq_ok, forall_mem_cons, ih]

theorem ite_throw_eq_ok {c : Prop} [Decidable c] {e} :
    (if c then pure () else throw e : Except ε Unit) = .ok () ↔ c := by
  split <;> simp_all [pure, Except.pure, throw, throwThe, MonadExceptOf.throw]

theorem guard_eq_ok {β : Type} {c : Prop} [Decidable c] {e} {k : α → Except ε β} {r a} :
    (if c then throw e >>= k else r) = .ok a ↔ ¬ c ∧ r = .ok a := by
  split
  · rename_i hc
    exact iff_of_false (fun h => nomatch h) fun h => h.1 hc
  · rename_i hc
    exact ⟨fun h => ⟨hc, h⟩, fun h => h.2⟩

end Except

namespace DebugValue

mutual

def objects : DebugValue → List Nat
  | object idx => [idx]
  | merge _ _ candidates => objectsAll candidates
  | value _ | const _ => []

def objectsAll : List DebugValue → List Nat
  | [] => []
  | v :: vs => v.objects ++ objectsAll vs

end

theorem mem_objectsAll {vs idx} : idx ∈ objectsAll vs ↔ ∃ v ∈ vs, idx ∈ v.objects := by
  induction vs with
  | nil => simp [objectsAll]
  | cons v vs ih => simp [objectsAll, ih]

end DebugValue

namespace Body

/-- The instructions that the body names: listed in a block, read, or used in a debug state. -/
def named (body : Body) : List InstId :=
  body.blocks.values.flatMap (fun block =>
    block.insts ++ block.insts.flatMap (fun x => ((body.op? x).map Op.operands).getD []) ++
      block.term.operand?.toList) ++
  body.states.values.flatMap DebugState.insts

/-- The body names no instruction that its table is still to hand out. -/
def Issued (body : Body) : Prop := ∀ x ∈ body.named, body.insts.Issued x

theorem issued_of_live {body : Body}
    (h : ∀ x ∈ body.named, (body.insts.get? x).isSome = true) : body.Issued := fun x hx =>
  let ⟨_, hinst⟩ := Option.isSome_iff_exists.1 (h x hx)
  SlotTable.issued_of_get? hinst

/-- Instruction `y` stands earlier in the block, or in a block that dominates it. -/
def Available (body : Body) (y : InstId) (b : BlockId) (i : Nat) : Prop :=
  ∃ d j, (body.block d).insts[j]? = some y ∧
    (d = b ∧ j < i ∨ d ≠ b ∧ body.flow.Dom d b)

def Observes (body : Body) (s : SafepointId) : Site → Prop
  | .inst b x => x ∈ (body.block b).insts ∧ (body.op? x).bind Op.safepoint? = some s
  | .term b => (body.block b).term = .deopt s

variable {body : Body} {b d p : BlockId} {x y : InstId} {i j : Nat} {program : Program}
  {site : Site}

theorem get?_of_mem_insts (h : x ∈ (body.block b).insts) :
    body.blocks.get? b = some (body.block b) := by
  rcases hb : body.blocks.get? b with _ | block
  · rw [block_of_not_live hb] at h
    cases h
  · simp [Body.block, hb]

theorem mem_placement_list : (x, (b, i)) ∈ body.blocks.toList.flatMap (fun (b, block) =>
      block.insts.zipIdx.map fun (x, idx) => (x, (b, idx))) ↔
    (body.block b).insts[i]? = some x := by
  simp only [mem_flatMap, mem_map, Prod.exists, mem_zipIdx_iff_getElem?,
    Prod.mk.injEq, SlotTable.mem_toList_iff]
  constructor
  · rintro ⟨b', block, hb, x', i', hx, rfl, rfl, rfl⟩
    simpa [Body.block, hb] using hx
  · intro h
    exact ⟨b, _, get?_of_mem_insts (mem_of_getElem? h), x, i, h, rfl, rfl, rfl⟩

theorem getElem?_of_placement (h : body.placement.get? x = some (b, i)) :
    (body.block b).insts[i]? = some x :=
  mem_placement_list.1 (SideTable.mem_of_get?_ofList h)

/-- The places where debug states are observed, in the order of the blocks. -/
def siteList (body : Body) : List (SafepointId × Site) :=
  body.blocks.toList.flatMap fun (b, block) =>
    block.insts.filterMap (fun x =>
      ((body.op? x).bind Op.safepoint?).map fun s => (s, Site.inst b x)) ++
    match block.term with
    | .deopt s => [(s, Site.term b)]
    | _ => []

theorem mem_siteList {s} : (s, site) ∈ body.siteList ↔ body.Observes s site := by
  simp only [siteList, mem_flatMap, Prod.exists, SlotTable.mem_toList_iff, mem_append,
    mem_filterMap, Option.map_eq_some_iff, Prod.mk.injEq]
  constructor
  · rintro ⟨b, block, hb, ⟨x, hx, s', hs, rfl, rfl⟩ | hterm⟩
    · exact ⟨by simpa [Body.block, hb] using hx, hs⟩
    · split at hterm
      · rename_i s' hdeopt
        simp only [mem_singleton, Prod.mk.injEq] at hterm
        obtain ⟨rfl, rfl⟩ := hterm
        simpa [Observes, Body.block, hb] using hdeopt
      · cases hterm
  · intro h
    cases site with
    | inst b x => exact ⟨b, _, get?_of_mem_insts h.1, .inl ⟨x, h.1, s, h.2, rfl, rfl⟩⟩
    | term b =>
      have hterm : (body.block b).term = .deopt s := h
      rcases hb : body.blocks.get? b with _ | block
      · rw [block_of_not_live hb] at hterm
        cases hterm
      · refine ⟨b, block, hb, .inr ?_⟩
        simp only [Body.block, hb, Option.getD_some] at hterm
        simp [hterm]

/-- A debug state of the body that is observed at one place only is recorded with that place. -/
theorem get?_sites (hwf : body.states.WellFormed)
    (hi : ∀ s site, body.Observes s site → body.states.Issued s) {s state}
    (hs : body.states.get? s = some state) (ho : body.Observes s site)
    (hone : ∀ site', body.Observes s site' → site' = site) : body.sites.get? s = some site := by
  obtain ⟨site', hsite'⟩ := SideTable.contains_foldl_insert_of_not_newer (hwf.ne_null hs)
    body.siteList .empty
    (by simp [SideTable.outdated, SideTable.empty])
    (fun e he => hi e.1 e.2 (mem_siteList.1 he) s state hs)
    (.inr (mem_map.2 ⟨_, mem_siteList.2 ho, rfl⟩))
  have hmem := mem_siteList.1 (SideTable.mem_of_get?_ofList hsite')
  exact hsite'.trans (congrArg some (hone site' hmem))

def placed (body : Body) : List InstId := body.blocks.toList.flatMap fun (_, block) => block.insts

theorem placement_keys (body : Body) : (body.blocks.toList.flatMap fun (b, block) =>
    block.insts.zipIdx.map fun (x, idx) => (x, (b, idx))).map Prod.fst = body.placed := by
  simp only [placed, map_flatMap, map_map]
  congr 1
  funext e
  exact zipIdx_map_fst 0 e.2.insts

theorem issued_of_mem_placed (hi : body.Issued) (h : x ∈ body.placed) : body.insts.Issued x := by
  refine hi x (mem_append_left _ ?_)
  simp only [placed, mem_flatMap, Prod.exists, SlotTable.values, mem_map] at h ⊢
  obtain ⟨b, block, hb, hx⟩ := h
  exact ⟨block, ⟨b, block, hb, rfl⟩, by simp [hx]⟩

end Body

namespace Checker

open Body

variable {body : Body} {b d p : BlockId} {x y : InstId} {i j : Nat} {program : Program}

theorem count_le_of_checkDistinct (hx : x ≠ .null) :
    ∀ (xs : List InstId) (seen : SideTable .inst Unit), seen.outdated x = false →
      (∀ y ∈ xs, y.index = x.index → y.version ≤ x.version) →
      checkDistinct xs seen = .ok () →
      xs.count x ≤ if seen.contains x then 0 else 1 := by
  intro xs
  induction xs with
  | nil => simp
  | cons y xs ih =>
    intro seen ho hxs hc
    rw [checkDistinct] at hc
    split at hc
    · cases hc
    rename_i hy
    have hyx := hxs y (by simp)
    have hrest := ih _ (SideTable.outdated_insert ho hyx ())
      (fun z hz => hxs z (.tail _ hz)) hc
    have hget := SideTable.get?_insert_of_not_newer hx ho hyx ()
    rw [SideTable.contains, hget] at hrest
    by_cases hxy : x = y
    · subst hxy
      simp_all
    · simp only [hxy, if_false] at hrest
      rw [count_cons_of_ne (Ne.symm hxy)]
      exact hrest

theorem checkAvailable_eq_ok (hwf : body.WellFormed) {user} (hb : b ∈ body.order)
    (h : (ofBody program body).checkAvailable user b i y = .ok ()) : body.Available y b i := by
  rw [checkAvailable] at h
  split at h
  · cases h
  rename_i d j hp
  rw [ite_throw_eq_ok] at h
  refine ⟨d, j, getElem?_of_placement hp, ?_⟩
  by_cases hd : d = b
  · exact .inl ⟨hd, by simpa [hd] using h⟩
  · rw [if_neg hd] at h
    exact .inr ⟨hd, (DomTree.dominates_iff hwf hb).1 h⟩

mutual

theorem checkObjects_eq_ok {s n} :
    ∀ {v : DebugValue}, checkObjects s n v = .ok () → ∀ idx ∈ v.objects, idx < n
  | .value _, _, _, hidx | .const _, _, _, hidx => by cases hidx
  | .object idx, h, idx', hidx => by
    obtain rfl : idx' = idx := by simpa [DebugValue.objects] using hidx
    rwa [checkObjects, ite_throw_eq_ok] at h
  | .merge _ _ candidates, h, idx, hidx => checkObjectsAll_eq_ok h idx hidx

theorem checkObjectsAll_eq_ok {s} {n : Nat} :
    ∀ {vs : List DebugValue}, checkObjectsAll s n vs = .ok () →
      ∀ idx ∈ DebugValue.objectsAll vs, idx < n
  | [], _, _, hidx => by cases hidx
  | v :: vs, h, idx, hidx => by
    rw [checkObjectsAll, seq_eq_ok] at h
    rcases mem_append.1 hidx with hidx | hidx
    · exact checkObjects_eq_ok h.2 idx hidx
    · exact checkObjectsAll_eq_ok h.1 idx hidx

end

theorem mem_reachablePreds (hwf : body.WellFormed) :
    p ∈ (ofBody program body).reachablePreds b ↔
      p ∈ body.flow.preds b ∧ p ∈ body.order := by
  rw [reachablePreds, mem_filter, ← hwf.reaches_iff]
  rfl

end Checker

namespace Body

variable {body : Body} {b d p : BlockId} {x y : InstId} {i j : Nat} {program : Program}
  {inst : Inst}

/-- What the check says of a phi: it has one input for each reachable predecessor. -/
structure PhiChecked (body : Body) (b : BlockId) (i : Nat) (inputs : List (BlockId × InstId)) :
    Prop where
  leading : i < body.phiCount b
  nodup : (inputs.map Prod.fst).Nodup
  preds : ∀ p, p ∈ inputs.map Prod.fst ↔ p ∈ body.flow.preds b ∧ p ∈ body.flow.order.blocks
  available : ∀ e ∈ inputs, body.Available e.2 e.1 (body.block e.1).insts.length

/-- What the check says of an instruction that is neither a phi nor a barrier, of a phi and of a
barrier. -/
structure InstChecked (body : Body) (b : BlockId) (i : Nat) (x : InstId) (op : Op) : Prop where
  phi : ∀ inputs, op = .phi inputs → body.PhiChecked b i inputs
  operands : op.isPhi = false → ∀ y ∈ op.operands, body.Available y b i
  barrier : ∀ store, op = .barrier store → ∃ op', body.op? store = some op' ∧ op'.isRefStore = true

def PlacedOnce (body : Body) : Prop :=
  ∀ (x : InstId) (inst : Inst), body.insts.get? x = some inst → ∀ (b d : BlockId) (i j : Nat),
    (body.block b).insts[i]? = some x → (body.block d).insts[j]? = some x → b = d ∧ i = j

structure Checked (body : Body) : Prop where
  once : body.PlacedOnce
  inst : ∀ b ∈ body.flow.order.blocks, ∀ i x, (body.block b).insts[i]? = some x →
    ∃ op, body.op? x = some op ∧ body.InstChecked b i x op
  term : ∀ b ∈ body.flow.order.blocks, ∀ x, (body.block b).term.operand? = some x →
    body.Available x b (body.block b).insts.length
  invoke : ∀ b ∈ body.flow.order.blocks, ∀ x normal handler,
    (body.block b).term = .invoke x normal handler →
      (∃ c, body.op? x = some (.call c)) ∧ (body.block b).insts.getLast? = some x

structure StatesChecked (body : Body) : Prop where
  stateInst : ∀ s b x, body.sites.get? s = some (.inst b x) → b ∈ body.flow.order.blocks →
    ∀ y ∈ (body.state s).insts,
      body.Available y b (((body.placement.get? x).map Prod.snd).getD 0)
  stateTerm : ∀ s b, body.sites.get? s = some (.term b) → b ∈ body.flow.order.blocks →
    ∀ y ∈ (body.state s).insts, body.Available y b (body.block b).insts.length
  objects : ∀ s site, body.sites.get? s = some site → site.block ∈ body.flow.order.blocks →
    ∀ v ∈ (body.state s).debugValues, ∀ idx ∈ v.objects, idx < (body.state s).recipes.length

theorem nodup_preds (body : Body) (b : BlockId) : (body.flow.preds b).Nodup :=
  (SlotTable.nodup_keys body.blocks).filter _

theorem phiChecked_of_check (hwf : body.WellFormed) {inputs : List (BlockId × InstId)}
    (h : (ofBody program body).checkPhi b i x inputs = .ok ()) :
    body.PhiChecked b i inputs := by
  simp only [checkPhi, guard_eq_ok, forM_eq_ok] at h
  obtain ⟨hidx, hfound, havail⟩ := h
  have hperm := mergeSort_perm (inputs.map Prod.fst) Key.le
  rw [Decidable.not_not.1 hfound] at hperm
  have hpreds : ∀ p, p ∈ inputs.map Prod.fst ↔
      p ∈ body.flow.preds b ∧ p ∈ body.order :=
    fun p => hperm.mem_iff.symm.trans (mem_reachablePreds hwf)
  refine ⟨Nat.not_le.1 hidx, hperm.nodup_iff.1 ((nodup_preds body b).filter _), hpreds,
    fun e he => ?_⟩
  have hmem := (hpreds e.1).1 (mem_map.2 ⟨e, he, rfl⟩)
  exact checkAvailable_eq_ok hwf hmem.2 (havail e he)

theorem instChecked_of_check (hwf : body.WellFormed) (hb : b ∈ body.order)
    (h : (ofBody program body).checkInst b i x = .ok ()) :
    ∃ op, body.op? x = some op ∧ body.InstChecked b i x op := by
  rw [checkInst] at h
  split at h
  · cases h
  · rename_i inputs hop
    refine ⟨_, hop, fun inputs' he => ?_, fun hp => by simp [Op.isPhi] at hp, by simp⟩
    obtain rfl : inputs = inputs' := by simpa using he
    exact phiChecked_of_check hwf h
  · rename_i store hop
    refine ⟨_, hop, by simp, by simp [Op.operands], fun store' he => ?_⟩
    obtain rfl : store = store' := by simpa using he
    rw [checkBarrier, ite_throw_eq_ok, Bool.and_eq_true] at h
    rcases hst : body.op? store with _ | op'
    · simp [ofBody, hst] at h
    · exact ⟨op', rfl, by simpa [ofBody, hst] using h.1⟩
  · rename_i op hphi hbar hop
    refine ⟨op, hop, fun inputs he => absurd he (hphi inputs), fun _ y hy => ?_,
      fun store he => absurd he (hbar store)⟩
    exact checkAvailable_eq_ok hwf hb (forM_eq_ok.1 h y hy)

theorem placement_of_once (hwf : body.insts.WellFormed)
    (hi : ∀ y ∈ body.placed, body.insts.Issued y) (hx : body.insts.get? x = some inst)
    (h : (body.block b).insts[i]? = some x)
    (honce : ∀ d j, (body.block d).insts[j]? = some x → d = b ∧ j = i) :
    body.placement.get? x = some (b, i) := by
  obtain ⟨⟨d, j⟩, hplace⟩ : ∃ place, body.placement.get? x = some place :=
    SideTable.contains_foldl_insert_of_not_newer (hwf.ne_null hx) _ .empty
      (by simp [SideTable.outdated, SideTable.empty])
      (fun e he => hi _ (placement_keys body ▸ mem_map.2 ⟨e, he, rfl⟩) x inst hx)
      (.inr (mem_map.2 ⟨_, mem_placement_list.2 h, rfl⟩))
  obtain ⟨rfl, rfl⟩ := honce d j (getElem?_of_placement hplace)
  exact hplace

section

variable (hwf : body.WellFormed) (hi : body.Issued)
include hwf hi

theorem placement_of_count (hx : body.insts.get? x = some inst) (hcount : body.placed.count x ≤ 1)
    (h : (body.block b).insts[i]? = some x) : body.placement.get? x = some (b, i) := by
  refine SideTable.get?_foldl_insert_of_count (hwf.insts.ne_null hx) _ .empty
    (by simp [SideTable.outdated, SideTable.empty]) ?_ ?_ (mem_placement_list.2 h)
  · intro e he hidx
    have hmem : e.1 ∈ body.placed := by
      rw [← placement_keys]
      exact mem_map.2 ⟨e, he, rfl⟩
    exact issued_of_mem_placed hi hmem x inst hx hidx
  · rw [placement_keys]
    exact hcount

theorem placedOnce_of_check
    (h : (ofBody program body).checkPlacement = .ok ()) : body.PlacedOnce := by
  intro x inst hx b d i j hb hd
  have hcount := count_le_of_checkDistinct (hwf.insts.ne_null hx) _ .empty
    (by simp [SideTable.outdated, SideTable.empty])
    (fun y hy => issued_of_mem_placed hi hy x inst hx) h
  have hcount : body.placed.count x ≤ 1 := by simpa [SideTable.contains] using hcount
  have he := (placement_of_count hwf hi hx hcount hb).symm.trans
    (placement_of_count hwf hi hx hcount hd)
  simpa using he

theorem checked_of_check (h : body.check program = .ok ()) : body.Checked := by
  simp only [Body.check, seq_eq_ok, forM_eq_ok] at h
  obtain ⟨hplace, hblocks, -⟩ := h
  have hblock : ∀ b ∈ body.order,
      (∀ e ∈ (body.block b).insts.zipIdx,
        (ofBody program body).checkInst b e.2 e.1 = .ok ()) ∧
        (ofBody program body).checkTerm b = .ok () := by
    intro b hb
    have := hblocks b hb
    simp only [checkBlock, seq_eq_ok, forM_eq_ok] at this
    exact this
  refine ⟨placedOnce_of_check hwf hi hplace, fun b hb i x hx => ?_, fun b hb x hx => ?_,
    fun b hb x normal handler hterm => ?_⟩
  · exact instChecked_of_check hwf hb
      ((hblock b hb).1 (x, i) (mem_zipIdx_iff_getElem?.2 hx))
  · have := (hblock b hb).2
    simp only [checkTerm, seq_eq_ok, forM_eq_ok] at this
    obtain ⟨havail, -⟩ := this
    exact checkAvailable_eq_ok hwf hb (havail x (by simp [ofBody, hx]))
  · have := (hblock b hb).2
    simp only [checkTerm, seq_eq_ok, forM_eq_ok] at this
    obtain ⟨-, hinv⟩ := this
    simp only [ofBody, hterm, ite_throw_eq_ok, Bool.and_eq_true, beq_iff_eq] at hinv
    refine ⟨?_, hinv.2⟩
    rcases hop : body.op? x with _ | op
    · simp [hop] at hinv
    · have hcall : op.isCall = true := by simpa [hop] using hinv.1
      cases op <;> simp_all [Op.isCall]

end

section

variable (hwf : body.WellFormed) (h : body.check program = .ok ())
include hwf h

theorem checkState_of_check {s site} (hs : body.sites.get? s = some site)
    (hb : site.block ∈ body.order) : (ofBody program body).checkState s site = .ok () := by
  simp only [Body.check, seq_eq_ok, forM_eq_ok] at h
  obtain ⟨-, -, hsites⟩ := h
  have hreach : (ofBody program body).order.reaches site.block = true :=
    hwf.reaches_iff.2 hb
  have := hsites (s, site) (SideTable.mem_toList_iff.2 hs)
  rwa [if_pos hreach] at this

/-- The recipes of a debug state are complete, if the site that is kept for it is reachable. -/
theorem length_fields_of_check {s site} (hs : body.sites.get? s = some site)
    (hb : site.block ∈ body.order) {recipe} (hrecipe : recipe ∈ (body.state s).recipes) :
    recipe.fields.length = (recipe.shape.slots program).length := by
  have := checkState_of_check hwf h hs hb
  simp only [checkState, seq_eq_ok, forM_eq_ok, guard_eq_ok] at this
  obtain ⟨-, -, -, -, hrecipes⟩ := this
  obtain ⟨i, hi⟩ := mem_iff_getElem?.1 hrecipe
  have hlen : recipe.fields.length = slotCount program recipe.shape :=
    Decidable.not_not.1 (hrecipes (recipe, i) (mem_zipIdx_iff_getElem?.2 hi)).1
  rw [hlen]
  cases recipe.shape <;> simp [slotCount, Shape.slots]

theorem statesChecked_of_check : body.StatesChecked := by
  have hstate : ∀ s site, body.sites.get? s = some site → site.block ∈ body.order →
      (ofBody program body).checkState s site = .ok () := fun s site => checkState_of_check hwf h
  refine ⟨fun s b x hs hb y hy => ?_, fun s b hs hb y hy => ?_,
    fun s site hs hb v hv idx hidx => ?_⟩
  · have := hstate s _ hs hb
    simp only [checkState, seq_eq_ok, forM_eq_ok] at this
    obtain ⟨-, havail, -⟩ := this
    have := havail y (mem_reverse.2 hy)
    split at this
    · cases this
    · exact checkAvailable_eq_ok hwf hb this
  · have := hstate s _ hs hb
    simp only [checkState, seq_eq_ok, forM_eq_ok] at this
    obtain ⟨-, havail, -⟩ := this
    have := havail y (mem_reverse.2 hy)
    split at this
    · cases this
    · exact checkAvailable_eq_ok hwf hb this
  · have := hstate s site hs hb
    simp only [checkState, seq_eq_ok, forM_eq_ok, guard_eq_ok] at this
    obtain ⟨-, -, hlocals, hmonitors, hrecipes⟩ := this
    refine checkObjects_eq_ok (s := s) ?_ idx hidx
    simp only [DebugState.debugValues, mem_append, mem_map, mem_flatMap] at hv
    rcases hv with (hv | ⟨slot, hslot, rfl⟩) | ⟨recipe, hrecipe, hv⟩
    · exact hlocals v hv
    · exact hmonitors slot hslot
    · obtain ⟨i, hi⟩ := mem_iff_getElem?.1 hrecipe
      exact (hrecipes (recipe, i) (mem_zipIdx_iff_getElem?.2 hi)).2 v hv

end

end Body

end EscapeAnalysis
