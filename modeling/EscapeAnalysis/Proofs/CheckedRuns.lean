import EscapeAnalysis.Proofs.Availability
import EscapeAnalysis.Proofs.Rebuilding

/-!
# Runs of checked bodies

What `Body.check` accepts never fails for lack of order in the code, whatever the arguments, the
heap, the host and the point where the run leaves compiled code (`Machine.orderly_of_check`). The
check does not say whether an instruction has a value at all, so the body may only read instructions
that have one.
-/

namespace EscapeAnalysis

open List Body

/-- What the debug value names is there: instructions have values, and recipes exist. -/
structure DebugValue.Covered (values : SideTable .inst Value) (recipes : List Recipe)
    (v : DebugValue) : Prop where
  insts : ∀ x ∈ v.insts, ∃ w, values.get? x = some w
  objects : ∀ idx ∈ v.objects, idx < recipes.length

namespace Rebuild

variable {program : Program} {values : SideTable .inst Value} {recipes : List Recipe}
  {r : Rebuild}

/-- There is a place for the object of each recipe, and the objects to be filled are built. -/
structure Ready (recipes : List Recipe) (r : Rebuild) : Prop where
  size : r.built.size = recipes.length
  pending : ∀ idx ∈ r.pending, ∃ o, r.built[idx]? = some (some o)

/-- Rebuilding does not find the code to be out of order, and can go on. -/
abbrev GoesOn {α : Type} (recipes : List Recipe) (res : Except RunError (α × Rebuild)) : Prop :=
  Except.Meets (fun e => e.isDisorder = false) (fun a => Ready recipes a.2) res

namespace Ready

theorem read {x} (hx : ∃ w, values.get? x = some w) :
    Except.Meets (fun e => e.isDisorder = false) (fun _ => True) (Rebuild.read values x) := by
  obtain ⟨w, hw⟩ := hx
  unfold Rebuild.read
  rw [hw]
  trivial

theorem object (hr : Ready recipes r) {idx} (hidx : idx < recipes.length) :
    GoesOn recipes (Rebuild.object program recipes r idx) := by
  have hlt : idx < r.built.size := hr.size ▸ hidx
  unfold Rebuild.object
  rw [Array.getElem?_eq_getElem hlt, List.getElem?_eq_getElem hidx]
  rcases hb : r.built[idx] with _ | o
  · refine ⟨by simpa using hr.size, fun i hi => ?_⟩
    simp only [Array.getElem?_setIfInBounds]
    by_cases he : idx = i
    · rw [if_pos he, if_pos hlt]
      exact ⟨_, rfl⟩
    · rw [if_neg he]
      rcases mem_append.1 hi with hi | hi
      · exact hr.pending i hi
      · exact absurd (mem_singleton.1 hi).symm he
  · exact hr

theorem eval (hr : Ready recipes r) {v} (hv : v.Covered values recipes) :
    GoesOn recipes (Rebuild.eval program values recipes r v) := by
  induction v using DebugValue.induct with
  | value x =>
    rw [Rebuild.eval]
    exact (read (hv.insts x (by simp [DebugValue.insts]))).bind fun _ _ => hr
  | const c =>
    rw [Rebuild.eval]
    exact hr
  | object idx =>
    rw [Rebuild.eval]
    exact (hr.object (hv.objects idx (by simp [DebugValue.objects]))).bind fun _ h => h
  | merge selector other candidates ih =>
    have hinsts := fun x hx => hv.insts x (DebugValue.mem_insts_merge.2 hx)
    rw [Rebuild.eval]
    refine (read (hinsts selector (.inl rfl))).bind fun v _ => ?_
    split
    · rfl
    · split
      · exact (read (hinsts other (.inr (.inl rfl)))).bind fun _ _ => hr
      · split
        · rfl
        · rw [evalNth_eq]
          split
          · rename_i c hc
            have hmem := mem_of_getElem? hc
            exact ih c hmem ⟨fun x hx => hinsts x (.inr (.inr ⟨c, hmem, hx⟩)), fun idx hidx =>
              hv.objects idx (DebugValue.mem_objectsAll.2 ⟨c, hmem, hidx⟩)⟩
          · rfl

theorem evalAll : ∀ {vs : List DebugValue} {r : Rebuild}, Ready recipes r →
    (∀ v ∈ vs, v.Covered values recipes) →
    GoesOn recipes (Rebuild.evalAll program values recipes r vs)
  | [], _, hr, _ => hr
  | v :: vs, _, hr, hv => by
    unfold Rebuild.evalAll
    exact (hr.eval (hv v (by simp))).bind fun _ h1 =>
      (evalAll h1 fun v h => hv v (by simp [h])).bind fun _ h2 => h2

theorem lock (hr : Ready recipes r) (o : ObjRef) :
    Except.Meets (fun e => e.isDisorder = false) (Ready recipes) (r.lock o) := by
  unfold Rebuild.lock
  split
  · rfl
  · split
    · rfl
    · exact ⟨hr.size, hr.pending⟩

theorem evalMonitors {s} : ∀ {ms : List MonitorSlot} {r : Rebuild},
    Ready recipes r → (∀ slot ∈ ms, slot.obj.Covered values recipes) →
    GoesOn recipes (Rebuild.evalMonitors program values recipes s r ms)
  | [], _, hr, _ => hr
  | slot :: ms, r, hr, hv => by
    have hslot : GoesOn recipes (Rebuild.evalMonitor program values recipes s r slot) := by
      refine (hr.eval (hv slot (by simp))).bind fun (v, r') h => ?_
      dsimp only
      split
      · split
        · exact (h.lock _).bind fun _ h => h
        · rfl
      · exact h
    unfold Rebuild.evalMonitors
    exact hslot.bind fun _ h1 => (evalMonitors h1 fun v h => hv v (by simp [h])).bind fun _ h2 => h2

theorem fillFields {slots o} : ∀ {fields : List DebugValue} {r : Rebuild} {idx : Nat},
    Ready recipes r → (∀ v ∈ fields, v.Covered values recipes) →
    Except.Meets (fun e => e.isDisorder = false) (Ready recipes)
      (Rebuild.fillFields program values recipes slots o r idx fields)
  | [], _, _, hr, _ => hr
  | v :: fields, _, _, hr, hv => by
    unfold Rebuild.fillFields
    refine (hr.eval (hv v (by simp))).bind fun _ h => ?_
    dsimp only
    split
    · rfl
    · exact fillFields ⟨h.size, h.pending⟩ fun v hmem => hv v (by simp [hmem])

theorem fill (hv : ∀ recipe ∈ recipes, ∀ v ∈ recipe.fields, v.Covered values recipes) :
    ∀ {n : Nat} {r : Rebuild}, Ready recipes r →
      Except.Meets (fun e => e.isDisorder = false) (Ready recipes)
        (Rebuild.fill program values recipes n r)
  | 0, _, hr => hr
  | n + 1, r, hr => by
    unfold Rebuild.fill
    split
    · exact hr
    · rename_i idx pending hp
      obtain ⟨o, ho⟩ := hr.pending idx (by simp [hp])
      have hidx : idx < recipes.length := by
        rw [← hr.size]
        exact (Array.getElem?_eq_some_iff.1 ho).1
      rw [ho, List.getElem?_eq_getElem hidx]
      have hready : Ready recipes { r with pending } :=
        ⟨hr.size, fun i hi => hr.pending i (by simp [hp, hi])⟩
      exact (hready.fillFields fun v => hv _ (getElem_mem hidx) v).bind fun _ h => fill hv h

end Ready

end Rebuild

theorem Body.gives_deoptimize {body : Body} {program h values s}
    (hv : ∀ state, body.states.get? s = some state → ∀ v ∈ state.debugValues,
      v.Covered values state.recipes) :
    Except.Meets (fun e => e.isDisorder = false) (fun _ => True)
      (body.deoptimize program h values s) := by
  unfold Body.deoptimize
  split
  · rfl
  · rename_i state hs
    have hv := hv state hs
    simp only [DebugState.debugValues, mem_append, mem_map, mem_flatMap] at hv
    have start : Rebuild.Ready state.recipes
        { heap := h, built := Array.replicate state.recipes.length none } := ⟨by simp, by simp⟩
    refine (start.evalAll fun v h => hv v (.inl (.inl h))).bind fun _ h1 => ?_
    refine (h1.evalMonitors fun slot h => hv _ (.inl (.inr ⟨slot, h, rfl⟩))).bind fun _ h2 => ?_
    exact (h2.fill fun recipe h v hf => hv v (.inr ⟨recipe, h, hf⟩)).bind fun _ _ => trivial

def Terminator.call? : Terminator → Option InstId
  | .invoke call _ _ => some call
  | _ => none

/-- Whether the operation has a value when it succeeds; a call has one if its callee has a
result. -/
def Op.produces (p : Program) : Op → Bool
  | .call c => (p.callee c.callee).ret.isSome
  | op => op.yields

/-- The host gives a value exactly if the callee has a result. -/
def Host.Answers {σ : Type} (host : Host σ) (p : Program) : Prop :=
  ∀ c args heap state v heap' state',
    host.call p c args heap state = .ok (.ret v, heap', state') →
      v.isSome = (p.callee c).ret.isSome

namespace Body

def consumed (body : Body) : List InstId :=
  body.blocks.values.flatMap (fun block =>
    block.insts.flatMap (fun x => ((body.op? x).map Op.operands).getD []) ++
      block.term.operand?.toList) ++
  body.states.values.flatMap DebugState.insts

/-- Instruction `x` has a value when it has run, and its block does not go on without it. -/
structure Produces (body : Body) (p : Program) (x : InstId) (op : Op) : Prop where
  value : op.produces p = true
  goesOn : ∀ block ∈ body.blocks.values, block.term.call? ≠ some x

/-- The tables of the body are well formed, and the body names nothing that they are still to hand
out. -/
structure Coherent (body : Body) : Prop extends body.WellFormed where
  issued : body.Issued
  observed : ∀ s site, body.Observes s site → body.states.Issued s

def ObservedOnce (body : Body) : Prop :=
  ∀ s site site', body.Observes s site → body.Observes s site' → site = site'

variable {body : Body} {b : BlockId} {x y : InstId}

theorem coherent_of_live (hwf : body.WellFormed)
    (hnamed : ∀ x ∈ body.named, (body.insts.get? x).isSome = true)
    (hsites : ∀ e ∈ body.siteList, (body.states.get? e.1).isSome = true) : body.Coherent where
  toWellFormed := hwf
  issued := issued_of_live hnamed
  observed _ _ h :=
    let ⟨_, hstate⟩ := Option.isSome_iff_exists.1 (hsites _ (mem_siteList.2 h))
    SlotTable.issued_of_get? hstate

theorem observedOnce_iff : body.ObservedOnce ↔
    ∀ e ∈ body.siteList, ∀ e' ∈ body.siteList, e.1 = e'.1 → e.2 = e'.2 := by
  constructor
  · rintro h ⟨s, site⟩ he ⟨s', site'⟩ he' rfl
    exact h s site site' (mem_siteList.1 he) (mem_siteList.1 he')
  · exact fun h s site site' hs hs' => h _ (mem_siteList.2 hs) _ (mem_siteList.2 hs') rfl

instance (body : Body) : Decidable body.ObservedOnce := decidable_of_iff' _ observedOnce_iff

theorem mem_consumed_of_operands {op} (hx : x ∈ (body.block b).insts) (ho : body.op? x = some op)
    (hy : y ∈ op.operands) : y ∈ body.consumed := by
  refine mem_append_left _ (mem_flatMap.2 ⟨body.block b, ?_, ?_⟩)
  · exact mem_map.2 ⟨_, SlotTable.mem_toList_iff.2 (get?_of_mem_insts hx), rfl⟩
  · exact mem_append_left _ (mem_flatMap.2 ⟨x, hx, by simpa [ho] using hy⟩)

theorem mem_consumed_of_operand? (hy : (body.block b).term.operand? = some y) :
    y ∈ body.consumed := by
  rcases hb : body.blocks.get? b with _ | block
  · rw [block_of_not_live hb] at hy
    cases hy
  · refine mem_append_left _ (mem_flatMap.2 ⟨block, ?_, ?_⟩)
    · exact mem_map.2 ⟨_, SlotTable.mem_toList_iff.2 hb, rfl⟩
    · simp only [Body.block, hb, Option.getD_some] at hy
      exact mem_append_right _ (by simp [hy])

theorem mem_consumed_of_state {s state} (hs : body.states.get? s = some state)
    (hy : y ∈ state.insts) : y ∈ body.consumed :=
  mem_append_right _ (mem_flatMap.2
    ⟨state, mem_map.2 ⟨_, SlotTable.mem_toList_iff.2 hs, rfl⟩, hy⟩)

end Body

namespace Machine

variable {σ : Type} {m : Machine} {host : Host σ} {s t : RunState σ} {e : RunError}

theorem dependable_produces (hhost : host.Answers m.program) :
    m.Dependable host (m.body.Produces m.program) where
  value hd hp := by
    cases hd with
    | plain hc he =>
      refine valued_eval ?_ _ he _ _
      have := hp.value
      revert hc this
      cases ‹Op› <;> simp [Op.produces, Op.isCall]
    | call ha hh =>
      have hv := hhost _ _ _ _ _ _ _ hh
      rw [show (m.program.callee _).ret.isSome = true from hp.value] at hv
      exact Option.isSome_iff_exists.1 hv
  invoke b _ x op normal handler _ hterm hp := by
    rcases hb : m.body.blocks.get? b with _ | block
    · rw [block_of_not_live hb] at hterm
      cases hterm
    · simp only [Body.block, hb, Option.getD_some] at hterm
      exact hp.goesOn block (mem_map.2 ⟨_, SlotTable.mem_toList_iff.2 hb, rfl⟩)
        (by simp [hterm, Terminator.call?])

/-- What is known at every state of a run of a checked body. -/
structure Ordered (m : Machine) (s : RunState σ) : Prop where
  located : m.Located s
  framed : m.Framed s
  computed : m.Computed (m.body.Produces m.program) s

theorem ordered_start (m : Machine) (heap : Heap) (state : σ) : m.Ordered (m.start heap state) :=
  ⟨located_start m heap state, framed_start m heap state, computed_start m _ heap state⟩

theorem enterPhis_eq_error {f phis} (h : m.enterPhis f phis = .error e) :
    phis ≠ [] ∧ f.pred = none ∨
      ∃ p x, f.pred = some p ∧ x ∈ phis ∧ m.phiInput f p x = .error e := by
  rcases phis with _ | ⟨x, phis⟩
  · cases h
  · rcases hp : f.pred with _ | p
    · exact .inl ⟨by simp, rfl⟩
    · refine .inr ⟨p, ?_⟩
      unfold enterPhis at h
      simp only [hp] at h
      rcases hin : (x :: phis).mapM (fun phi => do pure (phi, ← m.phiInput f p phi)) with
        e' | incoming
      · rw [hin] at h
        cases h
        obtain ⟨y, hy, he⟩ := Except.mapM_eq_error hin
        refine ⟨y, rfl, hy, ?_⟩
        rcases hv : m.phiInput f p y with e' | v
        · rw [hv] at he
          cases he
          rfl
        · rw [hv] at he
          cases he
      · rw [hin] at h
        cases h

section Checked

variable (hco : m.body.Coherent) (hc : m.body.Checked) (hst : m.body.StatesChecked)
  (hconsumed : ∀ x ∈ m.body.consumed,
    ∃ op, m.body.op? x = some op ∧ m.body.Produces m.program x op)

include hco hc in
theorem Ordered.step (hhost : host.Answers m.program) (h : m.Ordered s)
    (hstep : m.Step host s t) : m.Ordered t where
  located := h.located.step hstep
  framed := h.framed.step hstep
  computed := h.computed.step hco.toWellFormed hc (dependable_produces hhost) h.located
    h.framed hstep

include hco hc in
theorem Ordered.steps (hhost : host.Answers m.program) (h : m.Ordered s)
    (hsteps : m.Steps host s t) : m.Ordered t := by
  induction hsteps with
  | refl => exact h
  | tail _ hstep ih => exact ih.step hco hc hhost hstep

include hconsumed

theorem Ordered.exists_value (h : m.Ordered s) (hb : s.frame.block ∈ m.body.order) {y}
    (hy : y ∈ m.body.consumed) (hr : m.Reached s y) : ∃ v, s.frame.values.get? y = some v := by
  obtain ⟨op, hop, hp⟩ := hconsumed y hy
  exact h.computed hb y op hr hop hp

include hco hc in
/-- Each phi of a block has an input for the edge along which the block was reached. -/
theorem Ordered.exists_phiInput (h : m.Ordered s) (hr : s.rest = none) {p}
    (hp : s.frame.pred = some p) {x} (hx : x ∈ m.body.phis s.frame.block) :
    ∃ v, m.phiInput s.frame p x = .ok v := by
  have hmem := mem_insts_of_mem_phis hx
  have hb := h.located.mem_order_of_mem hmem
  obtain ⟨i, hi⟩ := mem_iff_getElem?.1 hmem
  obtain ⟨op, hop, hcheck⟩ := hc.inst _ hb i x hi
  obtain ⟨inputs, hphi⟩ := isPhi_iff.1 (isPhi_of_mem_phis hx)
  obtain rfl : op = .phi inputs := by simpa [hphi] using hop.symm
  have hchecked := hcheck.phi inputs rfl
  -- The block was reached from a predecessor, so the phi has an input for it.
  obtain ⟨hporder, htarget⟩ := h.located.pred hr p hp
  have hedge : m.body.flow.Edge p s.frame.block :=
    edge_iff.2 ⟨htarget, hco.toWellFormed.live_of_mem_order hb⟩
  obtain ⟨entry, hentry, rfl⟩ := mem_map.1 ((hchecked.preds p).2 ⟨hedge.1, hporder⟩)
  have hfound : (inputs.find? (·.1 == entry.1)).isSome = true :=
    List.find?_isSome.2 ⟨entry, hentry, by simp⟩
  obtain ⟨⟨q, y⟩, hq⟩ := Option.isSome_iff_exists.1 hfound
  obtain rfl : q = entry.1 := by simpa using List.find?_some hq
  have hy := mem_of_find?_eq_some hq
  obtain ⟨v, hv⟩ := h.exists_value hconsumed hb
    (mem_consumed_of_operands hmem hop (mem_map.2 ⟨_, hy, rfl⟩))
    ((reached_of_pred hr hp).2 (hchecked.available _ hy))
  exact ⟨v, phiInput_eq_ok.2 ⟨inputs, y, hop, hq, hv⟩⟩

include hco hst in
/-- A debug state that is observed where the run stands finds all that it names. -/
theorem Ordered.covered (honce : m.body.ObservedOnce) (h : m.Ordered s) (site : Site) {sp}
    (hsite : m.body.Observes sp site) (hb : site.block = s.frame.block)
    (horder : s.frame.block ∈ m.body.order)
    (hav : m.body.sites.get? sp = some site → ∀ y ∈ (m.body.state sp).insts, m.Reached s y) {state}
    (hs : m.body.states.get? sp = some state) :
    ∀ v ∈ state.debugValues, v.Covered s.frame.values state.recipes := by
  have hget := get?_sites hco.toWellFormed.states hco.observed hs hsite
    fun site' h => honce sp site' site h hsite
  have hstate : m.body.state sp = state := by simp [Body.state, hs]
  have hobjects := hst.objects sp site hget (hb ▸ horder)
  have hav := hav hget
  rw [hstate] at hobjects hav
  refine fun v hv => ⟨fun x hx => ?_, hobjects v hv⟩
  have hx : x ∈ state.insts := mem_flatMap.2 ⟨v, hv, hx⟩
  exact h.exists_value hconsumed horder (mem_consumed_of_state hs hx) (hav x hx)

include hco hc hst in
theorem Ordered.not_isDisorder (hentry : m.body.phis m.body.entry = [])
    (honce : m.body.ObservedOnce) (h : m.Ordered s) (hfails : m.Fails host s e) :
    e.isDisorder = false := by
  have operands : ∀ {x : InstId} {rest : List InstId} {op : Op}, s.rest = some (x :: rest) →
      m.body.op? x = some op → op.isPhi = false ∧
        ∀ y ∈ op.operands, ∃ v, s.frame.values.get? y = some v := by
    intro x rest op hr ho
    have hsuf := h.located.rest _ hr
    obtain ⟨hb, hx⟩ := h.located.mem_insts hr
    obtain ⟨op', ho', hcheck⟩ := hc.inst _ hb _ x (getElem?_position hsuf)
    obtain rfl : op' = op := by simpa [ho'] using ho
    have hphi := hc.not_isPhi_of_mem_code hb (hsuf.subset (by simp)) ho
    refine ⟨hphi, fun y hy => ?_⟩
    exact h.exists_value hconsumed hb (mem_consumed_of_operands hx ho hy)
      ((reached_of_rest hr).2 (hcheck.operands hphi y hy))
  have gives : ∀ {sp : SafepointId}, Except.Meets (fun e : RunError => e.isDisorder = false)
      (fun _ => True) (m.body.deoptimize m.program s.heap s.frame.values sp) →
      m.body.deoptimize m.program s.heap s.frame.values sp = .error e → e.isDisorder = false := by
    intro sp hg he
    rw [he] at hg
    exact hg
  cases hfails with
  | enter hr hf =>
    rcases enterPhis_eq_error hf with ⟨hne, hp⟩ | ⟨p, x, hp, hx, he⟩
    · rw [h.located.entry hr hp] at hne
      exact absurd hentry hne
    · obtain ⟨v, hv⟩ := h.exists_phiInput hco hc hconsumed hr hp hx
      rw [hv] at he
      cases he
  | noInstruction | host | unreachable | condition => rfl
  | @leave x rest op sp _ hr ho hl hd =>
    obtain ⟨hb, hx⟩ := h.located.mem_insts hr
    have hsp : op.safepoint? = some sp := by
      simp only [leavesAt?, Option.filter_eq_some_iff] at hl
      exact hl.1
    refine gives (gives_deoptimize fun state hs => ?_) hd
    refine h.covered hco hst hconsumed honce (.inst s.frame.block x)
      ⟨hx, by simp [ho, hsp]⟩ rfl hb (fun hget y hy => (reached_of_rest hr).2 ?_) hs
    obtain ⟨inst, hinst⟩ := live_of_op? ho
    have hplace := hc.placement hco.toWellFormed hco.issued hinst
      (getElem?_position (h.located.rest _ hr))
    have := hst.stateInst sp _ x hget hb y hy
    rwa [hplace] at this
  | @eval x rest op _ hr ho he =>
    obtain ⟨hphi, hop⟩ := operands hr ho
    cases stops_of_eval he with
    | uncomputed hy hv =>
      obtain ⟨v, hv'⟩ := hop _ hy
      simp [hv] at hv'
    | late hlate => simp [hphi] at hlate
    | noObject | noSlot => rfl
    | wrong hdisorder => exact hdisorder
  | args hr ho he =>
    obtain ⟨x, hx, hget⟩ := Except.mapM_eq_error he
    obtain ⟨v, hv⟩ := (operands hr ho).2 x hx
    rw [Frame.get_eq_ok.2 hv] at hget
    cases hget
  | @read x hr hterm hv =>
    have hb := h.located.mem_order fun hu => by simp [hu, Terminator.operand?] at hterm
    obtain ⟨v, hv'⟩ := h.exists_value hconsumed hb (mem_consumed_of_operand? hterm)
      ((reached_of_rest hr).2 (hc.term _ hb x hterm))
    simp [hv] at hv'
  | @deopt sp _ hr hterm hd =>
    have hb := h.located.mem_order fun hu => by simp [hu] at hterm
    refine gives (gives_deoptimize fun state hs => ?_) hd
    exact h.covered hco hst hconsumed honce (.term s.frame.block) hterm rfl hb
      (fun hget y hy => (reached_of_rest hr).2 (hst.stateTerm sp _ hget hb y hy)) hs

end Checked

/-- In a body that passes the check, no run finds the code to be out of order. -/
theorem orderly_of_check (hco : m.body.Coherent) (hcheck : m.body.check m.program = .ok ())
    (hentry : m.body.phis m.body.entry = [])
    (hconsumed : ∀ x ∈ m.body.consumed,
    ∃ op, m.body.op? x = some op ∧ m.body.Produces m.program x op)
    (honce : m.body.ObservedOnce) (hhost : host.Answers m.program) (fuel : Nat) (heap : Heap)
    (state : σ) : m.run host fuel heap state = .error e → e.isDisorder = false := by
  intro hrun
  have hc := checked_of_check hco.toWellFormed hco.issued hcheck
  unfold run at hrun
  split at hrun
  · rcases m.runFrom_spec fuel _ with ⟨_, _, _, hok, -⟩ | ⟨_, he, hfails⟩
    · cases hok.symm.trans hrun
    cases he.symm.trans hrun
    rcases hfails with rfl | ⟨t, hsteps, hfails⟩
    · rfl
    · have hordered : m.Ordered t := (ordered_start m heap state).steps hco hc hhost hsteps
      exact hordered.not_isDisorder hco hc (statesChecked_of_check hco.toWellFormed hcheck)
        hconsumed hentry honce hfails
  · cases hrun
    rfl

/-- Counts down, asking a callee on the way. -/
def countdown : Machine where
  program :=
    { callees := .ofEntries
        [{ name := "next", params := [.int], ret := some .int, effects := none }] }
  body :=
    { blocks := .ofEntries
        [{ insts := [⟨0, 1⟩, ⟨1, 1⟩], term := .jump ⟨1, 1⟩ },
          { insts := [⟨2, 1⟩, ⟨3, 1⟩, ⟨4, 1⟩], term := .branch ⟨3, 1⟩ ⟨1, 1⟩ ⟨2, 1⟩ },
          { insts := [⟨5, 1⟩], term := .invoke ⟨5, 1⟩ ⟨3, 1⟩ ⟨4, 1⟩ },
          { term := .ret (some ⟨4, 1⟩) },
          { insts := [⟨6, 1⟩], term := .throw ⟨6, 1⟩ }]
      insts := .ofEntries
        [⟨.param 0, some .int⟩, ⟨.const (.int 1), some .int⟩,
          ⟨.phi [(⟨0, 1⟩, ⟨0, 1⟩), (⟨1, 1⟩, ⟨3, 1⟩)], some .int⟩,
          ⟨.binary .sub ⟨2, 1⟩ ⟨1, 1⟩, some .int⟩,
          ⟨.call { callee := ⟨0, 1⟩, args := [⟨3, 1⟩], safepoint := ⟨0, 1⟩ }, some .int⟩,
          ⟨.call { callee := ⟨0, 1⟩, args := [⟨4, 1⟩], safepoint := ⟨1, 1⟩ }, some .int⟩,
          ⟨.exception, some .ref⟩]
      states := .ofEntries
        [{ locals := [.value ⟨2, 1⟩, .object 0], recipes := [⟨.array .int 1, [.value ⟨3, 1⟩]⟩] },
          { locals := [.value ⟨4, 1⟩] }]
      entry := ⟨0, 1⟩
      params := [.int]
      ret := some .int }
  args := [.int 2]

/-- A host that has an int for every callee with a result. -/
def steadyHost : Host Unit where
  call p c _ heap state := .ok (.ret ((p.callee c).ret.map fun _ => .int 0), heap, state)

theorem orderly_of_check_countdown :
    countdown.body.check countdown.program = .ok () ∧
    (∃ heap, countdown.run steadyHost 20 {} () = .ok (.ret (some (.int 0)), heap, ())) ∧
    ∀ fuel heap e, countdown.run steadyHost fuel heap () = .error e → e.isDisorder = false := by
  have hcheck : countdown.body.check countdown.program = .ok () := by cbv
  have hco : countdown.body.Coherent :=
    coherent_of_live (.ofEntries rfl) (by decide +kernel) (by decide +kernel)
  have hconsumed : ∀ x ∈ countdown.body.consumed, ∃ op, countdown.body.op? x = some op ∧
      countdown.body.Produces countdown.program x op := by
    intro x hx
    have hvalue : ∀ x ∈ countdown.body.consumed,
        (countdown.body.op? x).any (Op.produces countdown.program) = true ∧
          ∀ block ∈ countdown.body.blocks.values, block.term.call? ≠ some x := by decide +kernel
    obtain ⟨op, hop, hv⟩ := (Option.any_eq_true ..).1 (hvalue x hx).1
    exact ⟨op, hop, hv, (hvalue x hx).2⟩
  have hhost : steadyHost.Answers countdown.program := by
    rintro c args heap state v heap' state' hcall
    cases hcall
    simp
  exact ⟨hcheck, ⟨_, rfl⟩, fun fuel heap e =>
    orderly_of_check hco hcheck (by decide +kernel) hconsumed (by decide +kernel) hhost fuel heap
      ()⟩

end Machine

end EscapeAnalysis
