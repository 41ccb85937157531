import EscapeAnalysis.Proofs.CheckedRuns
import EscapeAnalysis.Proofs.HeldLocks

/-!
# Eliding locks keeps runs

The body with its locks elided follows the original step by step. Its heap differs in the locks of
the objects of elided allocations, which are free. Callees cannot see these objects, and where the
original leaves compiled code, the marked slots of the debug state take their locks again
(`Machine.run_elide`).
-/

namespace EscapeAnalysis

/-- The slot names the operand of a `monitorEnter`. -/
def Body.NamesLock (body : Body) (slot : MonitorSlot) : Prop :=
  ∃ x y b, slot.obj = .value x ∧ y ∈ (body.block b).insts ∧ body.op? y = some (.monitorEnter x)

/-- The objects whose locks are elided. -/
def Elision.Hides {p : Program} {body : Body} (E : Elision p body) (org : ObjRef → Option Nat)
    (o : ObjRef) : Prop :=
  ∃ n ∈ E.sites, org o = some n

theorem Elision.not_hides_of_escaped {p body} {E : Elision p body} {org o}
    (he : E.graph.Escaped org o) : ¬ E.Hides org o := by
  rintro ⟨n, hn, horg⟩
  exact he.ne_none horg (E.escapeOf_of_mem_sites hn)

namespace Machine

variable {σ : Type}

/-- The debug state at which the run is about to leave compiled code. -/
def exitPoint? (m : Machine) (s : RunState σ) : Option SafepointId :=
  match s.rest with
  | none => none
  | some [] =>
    match (m.body.block s.frame.block).term with
    | .deopt sp => some sp
    | _ => none
  | some (x :: _) => (m.body.op? x).bind m.leavesAt?

/-- Where the run leaves compiled code, the slots of the debug state record the locks of the objects
that it has created. -/
def RecordsLocks (m : Machine) (s : RunState σ) (log : List (ObjRef × InstId)) : Prop :=
  ∀ sp state, m.exitPoint? s = some sp → m.body.states.get? sp = some state →
    ∀ e ∈ log, ∀ obj, s.heap.get? e.1 = some obj →
      obj.locks.toNat = state.monitors.countP (·.holds s.frame.values e.1)

def elided (m : Machine) (E : Elision m.program m.body) : Machine := { m with body := E.result }

variable {m : Machine} {host : Host σ} {holds : σ → ObjRef → Prop} {E : Elision m.program m.body}
  {org : ObjRef → Option Nat} {s s' t : RunState σ} {log : List (ObjRef × InstId)} {o : ObjRef}
  {x : InstId} {rest : List InstId} {op : Op} {heap : Heap} {state : σ}

theorem term_elided (b : BlockId) : ((m.elided E).body.block b).term = (m.body.block b).term := by
  simp only [elided, Elision.block_result]

theorem op?_elided (hgone : x ∉ E.gone) : (m.elided E).body.op? x = m.body.op? x :=
  (Elision.op?_result x).trans (if_neg hgone)

/-- The states of the two runs: the new body has the same values, and the hidden objects free. -/
structure Relieved (m : Machine) (E : Elision m.program m.body) (org : ObjRef → Option Nat)
    (s s' : RunState σ) : Prop where
  frame : s'.frame = s.frame
  rest : s'.rest = s.rest.map (List.filter (· ∉ E.gone))
  heap : Heap.Frees (E.Hides org) s.heap s'.heap
  host : s'.host = s.host

theorem relieved_start (E : Elision m.program m.body) (heap : Heap) (state : σ) :
    m.Relieved E (origin E.graph []) (m.start heap state) ((m.elided E).start heap state) where
  frame := by simp only [start, elided, Elision.entry_result]
  rest := rfl
  heap := ⟨rfl, fun _ _ => rfl, fun o ho => by simp [Elision.Hides, origin] at ho⟩
  host := rfl

theorem Located.phis_code_elided (E : Elision m.program m.body) (hl : m.Located s) :
    E.result.phis s.frame.block = m.body.phis s.frame.block ∧
      E.result.code s.frame.block = (m.body.code s.frame.block).filter (· ∉ E.gone) := by
  rcases hl.block with hb | hnone
  · exact Elision.phis_code_result hb
  · simp [Body.phis, Body.code, Elision.block_result, Body.block_of_not_live hnone, default,
      instInhabitedBlock.default]

theorem Located.not_gone_of_mem_phis (hl : m.Located s)
    (hx : x ∈ m.body.phis s.frame.block) : x ∉ E.gone :=
  Elision.not_gone_of_mem_phis (hl.mem_order_of_mem (Body.mem_insts_of_mem_phis hx)) hx

theorem locksOf_created (hwf : s.heap.objects.WellFormed) (hstep : m.Step host s t)
    (hc : m.created? s = some (o, x)) : t.heap.locksOf o = 0 := by
  cases hstep with
  | enter hr | goTo hr =>
    rw [created?, hr] at hc
    cases hc
  | op hr ho _ hd => exact (locksOf_of_created hwf hr ho hd hc).2
  | caught hr ho _ ht =>
    rw [created?_of_throws hr ho ht] at hc
    cases hc

variable (hhost : host.Confined m.program holds) (hobl : host.Oblivious m.program holds)
  (hty : s.frame.RefsTyped m.body)

section Related

variable (hk : m.Tracked E org holds s) (h : m.Relieved E org s s')

include hk in
theorem Tracked.live_of_hides (ho : E.Hides org o) : s.heap.Live o := by
  obtain ⟨n, -, horg⟩ := ho
  obtain ⟨-, obj, hobj, -⟩ := hk.surveyed.sound.heap.created o n horg
  exact ⟨obj, hobj⟩

section Op

variable (hr : s.Next x rest) (ho : m.body.op? x = some op)

include h hr in
theorem Relieved.rest_of_kept (hgone : x ∉ E.gone) :
    s'.rest = some (x :: rest.filter (· ∉ E.gone)) := by
  rw [h.rest, hr]
  simp [hgone]

include hk hr ho in
theorem Tracked.not_hides (hgone : x ∉ E.gone) {obj d} (hmon : op.monitor? = some (obj, d))
    (hv : s.frame.values.get? obj = some (.ref o)) : ¬ E.Hides org o := by
  rintro ⟨n, hn, horg⟩
  exact hgone (Elision.mem_gone_of_pts hn (hk.surveyed.sound.located.mem_insts hr).2
    (by rw [ho]; exact hmon) (hk.surveyed.sound.alloc_mem_ptsOf hn hv horg))

include hk h hr ho in
theorem Relieved.eval_eq (hgone : x ∉ E.gone) :
    (m.elided E).eval s'.frame s'.heap x op = m.eval s.frame s.heap x op := by
  rw [h.frame]
  exact eval_congr (m := m) h.heap.same fun y d o hmon hv =>
    h.heap.get? (hk.not_hides hr ho hgone hmon hv)

section Host

variable {u : Thrown}
include hk hr ho

include h hhost hobl hty in
theorem Relieved.call {c} (hop : op = .call c) {args} (ha : c.args.mapM s.frame.get = .ok args)
    {reply} (hh : host.call m.program c.callee args s.heap s.host = .ok (reply, heap, state)) :
    ∃ heap', host.call m.program c.callee args s'.heap s'.host = .ok (reply, heap', state) ∧
      Heap.Frees (E.Hides org) heap heap' := by
  rw [h.host]
  refine Host.frees_of_call hhost hobl hk.surveyed.sound.heap.valid.wellFormed h.heap
    (fun o hides => ⟨hk.live_of_hides hides, ?_⟩) hh
  obtain ⟨n, hn, horg⟩ := hides
  exact hk.surveyed.not_known E.solved hr ho hty hop ha horg (E.escapeOf_of_mem_sites hn)

include h hhost hobl hty in
theorem Relieved.does (hgone : x ∉ E.gone) {v} (hd : m.Does host s x op v heap state) : ∃ heap',
      (m.elided E).Does host s' x op v heap' state ∧ Heap.Frees (E.Hides org) heap heap' := by
  cases hd with
  | @plain _ eff hc he =>
    have hlocks : ∀ o k, eff = .setLocks o k → ¬ E.Hides org o := by
      rintro o k rfl
      rcases hmon : op.monitor? with _ | ⟨obj, d⟩
      · exact absurd rfl (ne_setLocks_of_eval hmon he k)
      · obtain ⟨_, _, _, hv, -, heff, -⟩ := setLocks_of_eval hmon he
        cases heff
        exact hk.not_hides hr ho hgone hmon hv
    obtain ⟨hvalue, hheap⟩ :=
      h.heap.apply hk.surveyed.sound.heap.valid.wellFormed m.program eff hlocks
    refine ⟨_, ?_, hheap⟩
    rw [← hvalue, ← h.host]
    exact .plain hc ((h.eval_eq hk hr ho hgone).trans he)
  | call ha hh =>
    obtain ⟨heap', hh', hheap⟩ := h.call hhost hobl hty hk hr ho rfl ha hh
    exact ⟨heap', .call (h.frame ▸ ha) hh', hheap⟩

theorem Tracked.not_gone_of_throws (ht : m.Throws host s x op u heap state) : x ∉ E.gone := by
  intro hgone
  obtain ⟨o, k, -, he⟩ := eval_of_gone hk.surveyed hk.forwarding hr ho hk.leveled hgone
  cases ht with
  | plain _ he' => rcases he with he | he <;> cases he.symm.trans he'
  | call =>
    rcases he with he | he
    · cases acts_of_eval he
    · cases he

theorem Tracked.not_gone_of_leavesAt? {sp} (hl : m.leavesAt? op = some sp) : x ∉ E.gone := by
  intro hgone
  obtain ⟨op', obj, d, hop', hmon, -⟩ := E.of_mem_gone (hk.surveyed.sound.located.mem_insts hr).1
    (Body.getElem?_position (hk.surveyed.sound.located.rest _ hr)) hgone
  obtain rfl : op' = op := by simpa [hop'] using ho
  obtain ⟨rfl, -⟩ | ⟨rfl, -⟩ := Op.of_monitor? hmon <;> simp [leavesAt?, Op.safepoint?] at hl

include h hhost hobl hty in
theorem Relieved.throws (ht : m.Throws host s x op u heap state) : ∃ heap',
    (m.elided E).Throws host s' x op u heap' state ∧ Heap.Frees (E.Hides org) heap heap' := by
  have hgone := hk.not_gone_of_throws hr ho ht
  cases ht with
  | plain hc he =>
    refine ⟨s'.heap, ?_, h.heap⟩
    rw [← h.host]
    exact .plain hc ((h.eval_eq hk hr ho hgone).trans he)
  | call ha hh =>
    obtain ⟨heap', hh', hheap⟩ := h.call hhost hobl hty hk hr ho rfl ha hh
    exact ⟨heap', .call (h.frame ▸ ha) hh', hheap⟩

end Host

end Op

end Related

section Exit

variable {slot : MonitorSlot} {sp : SafepointId}

variable (hk : m.Tracked E org holds s)
include hk

theorem Tracked.eliminated_iff (hslot : m.body.NamesLock slot)
    (hholds : slot.holds s.frame.values o = true) :
    (E.mark slot).eliminated = true ↔ E.Hides org o := by
  obtain ⟨hkept, x, hx, hv⟩ := MonitorSlot.holds_iff.1 hholds
  rw [Elision.eliminated_mark hx, hkept]
  constructor
  · rintro (hfalse | ⟨n, hn, hpts⟩)
    · cases hfalse
    · obtain ⟨x', y, b, hx', hy, hop⟩ := hslot
      obtain rfl : x = x' := by simpa [hx] using hx'
      have huse := Body.mem_monitorUses.2 ⟨b, 1, hy, by rw [hop]; rfl⟩
      obtain ⟨b', hb', hstands⟩ := (hk.surveyed.sound.frame x o hv).2
      rw [(E.direct hn huse hpts).2, NodeSet.mem_singleton] at hb'
      subst hb'
      rcases hstands.alloc_or_escaped with ⟨k, horg, he⟩ | ⟨he, -⟩
      · cases he
        exact ⟨n, hn, horg⟩
      · cases he
  · rintro ⟨n, hn, horg⟩
    exact .inr ⟨n, hn, hk.surveyed.sound.alloc_mem_ptsOf hn hv horg⟩

theorem Tracked.marks (hslot : m.body.NamesLock slot) :
    Rebuild.Marks s.frame.values E.mark slot := by
  obtain ⟨x, y, b, hx, hy, hop⟩ := hslot
  refine ⟨Elision.obj_mark slot, fun he => (Elision.eliminated_mark hx).2 (.inl he),
    fun hkept he => ⟨x, hx, fun v hv => ?_⟩⟩
  rw [Elision.eliminated_mark hx, hkept] at he
  obtain ⟨n, hn, hpts⟩ := he.resolve_left nofun
  have huse := Body.mem_monitorUses.2 ⟨b, 1, hy, by rw [hop]; rfl⟩
  obtain ⟨op, hop, halloc⟩ := E.op?_site hn
  exact hk.directRefs x op v ((E.direct hn huse hpts).1 ▸ hop) halloc hv

/-- Leaving compiled code takes the elided locks again. -/
theorem Relieved.deoptimize (h : m.Relieved E org s s')
    (hslots : ∀ sp state, m.body.states.get? sp = some state → ∀ slot ∈ state.monitors,
      m.body.NamesLock slot)
    (hrec : ∀ state, m.body.states.get? sp = some state → ∀ o, E.Hides org o →
      s.heap.locksOf o = state.monitors.countP (·.holds s.frame.values o)) {d}
    (hd : m.body.deoptimize m.program s.heap s.frame.values sp = .ok (d, heap)) :
    E.result.deoptimize m.program s'.heap s'.frame.values sp = .ok (d, heap) ∧
      Exit.equiv heap (.deopt d) heap (.deopt d) = true := by
  rw [h.frame]
  refine Body.deoptimize_mark (E.states_result sp)
    (fun state hstate slot hslot => hk.marks (hslots sp state hstate slot hslot))
    hk.surveyed.sound.heap.valid (fun x o hv => (hk.surveyed.sound.frame x o hv).1) h.heap.same
    (fun state hstate o => ?_) hd
  by_cases hides : E.Hides org o
  · rw [h.heap.free o hides, Nat.zero_add, hrec state hstate o hides]
    refine List.countP_congr fun slot hslot => ?_
    rw [Bool.and_eq_true]
    exact ⟨fun hh => ⟨(hk.eliminated_iff (hslots sp state hstate slot hslot) hh).2 hides, hh⟩,
      fun hh => hh.2⟩
  · rw [h.heap.seen o hides, List.countP_eq_zero.2 fun slot hslot => ?_, Nat.add_zero]
    rw [Bool.and_eq_true]
    exact fun hh => hides ((hk.eliminated_iff (hslots sp state hstate slot hslot) hh.2).1 hh.1)

end Exit

section Step

variable (hk : m.Tracked E (origin E.graph log) holds s)
  (h : m.Relieved E (origin E.graph log) s s')

include hk in
theorem Tracked.frees_of_step (hstep : m.Step host s t) {heap'}
    (hf : Heap.Frees (E.Hides (origin E.graph log)) t.heap heap') :
    Heap.Frees (E.Hides (origin E.graph ((m.created? s).toList ++ log))) t.heap heap' := by
  have hwf := hk.surveyed.sound.heap.valid.wellFormed
  refine hf.mono (fun o hides => ?_) fun o hides hnot => ?_
  · have hlive := hk.live_of_hides hides
    obtain ⟨n, hn, horg⟩ := hides
    exact ⟨n, hn, (origin_of_live hwf hlive).trans horg⟩
  · rw [hf.seen o hnot]
    rcases hc : m.created? s with _ | ⟨o1, x1⟩
    · rw [hc] at hides
      exact absurd hides hnot
    · obtain rfl : o = o1 := by
        refine Classical.byContradiction fun hne => hnot ?_
        simpa only [Elision.Hides, hc, Option.toList_some, List.singleton_append, origin_cons,
          hne, if_false] using hides
      exact locksOf_created hwf hstep hc

include hk h hhost hobl hty in
/-- Every step of the original is met by the new body, which leaves out the removed operations. -/
theorem Relieved.step (hstep : m.Step host s t) : ∃ t', (m.elided E).Steps host s' t' ∧
    m.Relieved E (origin E.graph ((m.created? s).toList ++ log)) t t' := by
  have hl := hk.surveyed.sound.located
  have hnext : ∀ {heap'}, Heap.Frees (E.Hides (origin E.graph log)) t.heap heap' →
      Heap.Frees (E.Hides (origin E.graph ((m.created? s).toList ++ log))) t.heap heap' :=
    hk.frees_of_step hstep
  cases hstep with
  | @enter frame hr hf =>
    obtain ⟨hphis, hcode⟩ := hl.phis_code_elided E
    have hf' : (m.elided E).enterPhis s'.frame ((m.elided E).body.phis s'.frame.block) =
        .ok frame := by
      rw [h.frame]
      change (m.elided E).enterPhis s.frame (E.result.phis s.frame.block) = .ok frame
      rw [hphis]
      exact (enterPhis_congr fun x hx => op?_elided (hl.not_gone_of_mem_phis hx)).trans hf
    refine ⟨_, .single (.enter (by rw [h.rest, hr]; rfl) hf'), rfl, ?_, hnext h.heap, h.host⟩
    rw [h.frame]
    exact congrArg some hcode
  | @op x rest op v heap state hr ho hleave hd =>
    by_cases hgone : x ∈ E.gone
    · obtain ⟨o, k, hides, he⟩ := eval_of_gone hk.surveyed hk.forwarding hr ho hk.leveled hgone
      refine ⟨s', .refl s', ?_⟩
      cases hd with
      | call =>
        rcases he with he | he
        · cases acts_of_eval he
        · cases he
      | plain _ he' =>
        rcases he with he | he <;> cases he.symm.trans he'
        refine ⟨h.frame, ?_, hnext (h.heap.setLocks_left hides k), h.host⟩
        rw [h.rest, hr]
        simp [hgone]
    · obtain ⟨heap', hd', hheap⟩ := h.does hhost hobl hty hk hr ho hgone hd
      refine ⟨_, .single (.op (h.rest_of_kept hr hgone) ((op?_elided hgone).trans ho) hleave hd'),
        ?_, rfl, hnext hheap, rfl⟩
      rw [h.frame]
  | @caught x rest op u heap state normal handler hr ho hleave ht hterm =>
    have hgone := hk.not_gone_of_throws hr ho ht
    obtain ⟨heap', ht', hheap⟩ := h.throws hhost hobl hty hk hr ho ht
    have hterm' : ((m.elided E).body.block s'.frame.block).term = .invoke x normal handler := by
      rw [h.frame, term_elided, hterm]
    refine ⟨_, .single (.caught (h.rest_of_kept hr hgone) ((op?_elided hgone).trans ho) hleave ht'
      hterm'), ?_, rfl, hnext hheap, rfl⟩
    rw [h.frame]
  | goTo hr hb =>
    rw [← h.frame, ← term_elided (E := E)] at hb
    refine ⟨_, .single (.goTo (by rw [h.rest, hr]; rfl) hb), ?_, rfl, hnext h.heap, h.host⟩
    rw [h.frame]

end Step

section Ends

variable {heap' : Heap}

section

variable (hheap : E.graph.SoundHeap m.program org heap) (hf : Heap.Frees (E.Hides org) heap heap')
include hheap hf

theorem equiv_of_visible {v : Value}
    (hv : ∀ o, v = .ref o → E.graph.Visible org heap o) : heap.equiv v heap' v = true := by
  refine Heap.equiv_of_closed (P := E.graph.Visible org heap) (fun o ho => ?_) hv
  obtain ⟨obj, hobj⟩ := ho.1
  refine ⟨obj, hobj, (hf.get? (Elision.not_hides_of_escaped ho.2)).trans hobj, fun o' ho' => ?_⟩
  exact hheap.visible_of_reach (fun _ h => h) (.field (.root ho) hobj ho')

theorem equiv_threw_of_visible {u} (hu : ∀ o, u = .object (.ref o) → E.graph.Visible org heap o) :
    Exit.equiv heap (.threw u) heap' (.threw u) = true := by
  cases u with
  | object v => exact equiv_of_visible hheap hf fun o ho => hu o (ho ▸ rfl)
  | _ => rfl

end

variable (hk : m.Tracked E org holds s) (h : m.Relieved E org s s')

include hk h hhost hobl hty in
theorem Relieved.ends (hslots : ∀ sp state, m.body.states.get? sp = some state →
      ∀ slot ∈ state.monitors, m.body.NamesLock slot)
    (hrec : ∀ sp state, m.exitPoint? s = some sp → m.body.states.get? sp = some state →
      ∀ o, E.Hides org o → s.heap.locksOf o = state.monitors.countP (·.holds s.frame.values o)) {e}
    (hends : m.Ends host s e heap state) :
    ∃ heap', (m.elided E).Ends host s' e heap' state ∧ heap'.unlocked = heap.unlocked ∧
      Exit.equiv heap e heap' e = true ∧ ∀ d, e = .deopt d → heap' = heap := by
  have hsound := hk.surveyed.sound
  have hrest : s.rest = some [] → s'.rest = some [] := fun hr => by rw [h.rest, hr]; rfl
  have hterm : ((m.elided E).body.block s'.frame.block).term =
      (m.body.block s.frame.block).term := by rw [h.frame, term_elided]
  cases hends with
  | ret hr ht =>
    exact ⟨s'.heap, h.host ▸ .ret (hrest hr) (hterm.trans ht), h.heap.same, rfl, by simp⟩
  | retValue hr ht hv =>
    refine ⟨s'.heap, h.host ▸ .retValue (hrest hr) (hterm.trans ht) (h.frame ▸ hv), h.heap.same,
      equiv_of_visible hsound.heap h.heap fun o ho => ?_, by simp⟩
    exact hsound.visible_of_term E.solved (by rw [ht]; rfl) (ho ▸ hv)
  | @throw x v hr ht hv =>
    refine ⟨s'.heap, h.host ▸ .throw (hrest hr) (hterm.trans ht) (h.frame ▸ hv), h.heap.same,
      equiv_threw_of_visible hsound.heap h.heap fun o ho => ?_, by simp⟩
    cases v <;> simp only [Thrown.ofValue, Thrown.object.injEq, reduceCtorEq] at ho
    exact hsound.visible_of_term E.solved (by rw [ht]; rfl) (ho ▸ hv)
  | deopt hr ht hd =>
    obtain ⟨hd', hequiv⟩ := h.deoptimize hk hslots (hrec _ · (by simp [exitPoint?, hr, ht])) hd
    exact ⟨heap, h.host ▸ .deopt (hrest hr) (hterm.trans ht) hd', rfl, hequiv, fun _ _ => rfl⟩
  | leave hr ho hl hd =>
    have hgone := hk.not_gone_of_leavesAt? hr ho hl
    obtain ⟨hd', hequiv⟩ := h.deoptimize hk hslots (hrec _ · (by simp [exitPoint?, hr, ho, hl])) hd
    exact ⟨heap, h.host ▸ .leave (h.rest_of_kept hr hgone) ((op?_elided hgone).trans ho) hl hd',
      rfl, hequiv, fun _ _ => rfl⟩
  | uncaught hr ho hl ht hno =>
    have hgone := hk.not_gone_of_throws hr ho ht
    obtain ⟨heap', ht', hheap⟩ := h.throws hhost hobl hty hk hr ho ht
    obtain ⟨hafter, -, -, hthrown⟩ := hsound.throws (hsound.callKept E.solved hhost hty) hr ho ht
    exact ⟨heap', .uncaught (h.rest_of_kept hr hgone) ((op?_elided hgone).trans ho) hl ht'
      (hterm ▸ hno), hheap.same, equiv_threw_of_visible hafter hheap hthrown, by simp⟩

end Ends

section Run

include hhost hobl in
theorem Trace.exists_relieved (hst : m.StartsIn holds heap state) (E : Elision m.program m.body)
    (htrace : m.Trace host m.Disciplined (m.start heap state) s log) :
    m.Tracked E (origin E.graph log) holds s ∧
      ∃ s', (m.elided E).Steps host ((m.elided E).start heap state) s' ∧
        m.Relieved E (origin E.graph log) s s' := by
  induction htrace with
  | start => exact ⟨tracked_start E hst, _, .refl _, relieved_start E heap state⟩
  | step htrace hstep hu ih =>
    obtain ⟨hk, s', hsteps, h⟩ := ih
    obtain ⟨t', hmore, h'⟩ := h.step hhost hobl htrace.last.refs hk hstep
    exact ⟨hk.step hhost htrace.last hu hstep, t', hsteps.trans hmore, h'⟩

variable (hheap : heap.Valid m.program) (hargs : ∀ o, .ref o ∈ m.args → heap.Live o)
  (hheld : ∀ o, holds state o → heap.Live o)
  (hslots : ∀ sp debug, m.body.states.get? sp = some debug → ∀ slot ∈ debug.monitors,
    m.body.NamesLock slot)
  (hdisc : ∀ s, m.Steps host (m.start heap state) s → m.Disciplined s)
  (hrec : ∀ s log, m.Trace host m.Disciplined (m.start heap state) s log → m.RecordsLocks s log)

include hhost hobl hslots hdisc hrec in
theorem run_elided (hst : m.StartsIn holds heap state) (E : Elision m.program m.body)
    {fuel e heap1 state1} (hrun : m.run host fuel heap state = .ok (e, heap1, state1)) :
    ∃ n heap', (m.elided E).run host n heap state = .ok (e, heap', state1) ∧
      heap'.unlocked = heap1.unlocked ∧ Exit.equiv heap1 e heap' e = true ∧
      ∀ d, e = .deopt d → heap' = heap1 := by
  obtain ⟨hlen, s, hsteps, hends⟩ := run_iff.1 ⟨fuel, hrun⟩
  obtain ⟨log, htrace⟩ := hsteps.exists_trace hdisc
  obtain ⟨hk, s', hsteps', h⟩ := htrace.exists_relieved hhost hobl hst E
  have hlocks : ∀ sp debug, m.exitPoint? s = some sp → m.body.states.get? sp = some debug →
      ∀ o, E.Hides (origin E.graph log) o →
        s.heap.locksOf o = debug.monitors.countP (·.holds s.frame.values o) := by
    intro sp debug hsp hdebug o hides
    obtain ⟨obj, hobj⟩ := hk.live_of_hides hides
    obtain ⟨n, -, horg⟩ := hides
    obtain ⟨x, hmem⟩ := mem_of_origin horg
    rw [Heap.locksOf_of_get? hobj]
    exact hrec s log htrace sp debug hsp hdebug (o, x) hmem obj hobj
  obtain ⟨heap', hends', hresult⟩ :=
    h.ends hhost hobl htrace.last.refs hk hslots hlocks hends
  have hlen' : (m.elided E).args.length = (m.elided E).body.params.length :=
    hlen.trans (congrArg List.length E.params_result.symm)
  obtain ⟨n, hn⟩ := run_iff.2 ⟨hlen', s', hsteps', hends'⟩
  exact ⟨n, heap', hn, hresult⟩

include hhost hobl hheap hargs hheld hslots hdisc hrec in
/-- Eliding locks keeps runs. The body passes the check, the graph is that of the body, each monitor
slot names the operand of a `monitorEnter`, and where the run leaves compiled code, the slots record
the locks of the objects that it has created. The run respects types, and the host sees only what it
can reach. With enough fuel, the new body then ends with the same exit. The heaps differ in locks
alone, in none that the exit leads to, and on leaving compiled code in none at all. -/
theorem run_elide {settings settings' : Settings} {g : Graph} {changed : Bool} {b b' : Budget}
    (replaced : Nat → Bool) (hco : m.body.Coherent) (hcheck : m.body.check m.program = .ok ())
    (hg : Metered.Yields ((Graph.ofBody m.program m.body settings).propagate settings') b
      (g, changed) b')
    {fuel : Nat} {e : Exit} {heap₁ : Heap} {state₁ : σ}
    (hrun : m.run host fuel heap state = .ok (e, heap₁, state₁)) :
    ∃ n heap', (∀ k, { m with body := (m.body.elide g replaced).1 }.run host (n + k) heap state =
        .ok (e, heap', state₁)) ∧
      heap'.unlocked = heap₁.unlocked ∧ Exit.equiv heap₁ e heap' e = true ∧
      ∀ d, e = .deopt d → heap' = heap₁ := by
  have hc := Body.checked_of_check hco.toWellFormed hco.issued hcheck
  let E : Elision m.program m.body :=
    { graph := g, replaced
      wf := hco.toWellFormed
      checked := hc
      solved := Graph.solved_of_propagate hco.insts hg
      numbered := Graph.numbered_of_propagate hco.insts hc hg }
  obtain ⟨n, heap', hn, hresult⟩ :=
    run_elided hhost hobl hslots hdisc hrec ⟨hheap, hargs, hheld⟩ E hrun
  exact ⟨n, heap', fun k => run_mono k hn, hresult⟩

end Run

/-- Locks a box through a cast, and leaves compiled code before it gives the lock back. -/
def lockAndLeave : Machine where
  program :=
    { classes := .ofEntries [{ name := "Box", parent := none, layout := [⟨0, 1⟩], flags := {} }]
      fields := .ofEntries [{ name := "value", ty := .int, holder := ⟨0, 1⟩ }] }
  body :=
    { blocks := .ofEntries
        [{ insts := [⟨0, 1⟩, ⟨1, 1⟩, ⟨2, 1⟩, ⟨3, 1⟩, ⟨4, 1⟩], term := .ret none }]
      insts := .ofEntries
        [⟨.new ⟨0, 1⟩, some .ref⟩, ⟨.checkCast ⟨0, 1⟩ ⟨0, 1⟩, some .ref⟩,
          ⟨.monitorEnter ⟨1, 1⟩, none⟩, ⟨.safepoint ⟨0, 1⟩, none⟩, ⟨.monitorExit ⟨0, 1⟩, none⟩]
      states := .ofEntries
        [{ locals := [.value ⟨0, 1⟩], monitors := [{ obj := .value ⟨1, 1⟩, eliminated := false }] }]
      entry := ⟨0, 1⟩
      params := []
      ret := none }
  args := []
  forced := some ⟨0, 1⟩

theorem steps_lockAndLeave (s : RunState Unit)
    (hs : lockAndLeave.Steps Host.idle (lockAndLeave.start {} ()) s) :
    lockAndLeave.Disciplined s ∧
      ∀ debug ∈ ((lockAndLeave.exitPoint? s).bind lockAndLeave.body.states.get?).toList,
        ∀ e ∈ s.heap.objects.toList,
          e.2.locks.toNat = debug.monitors.countP (·.holds s.frame.values e.1) := by
  revert s
  refine forall_steps_of_step (by decide +kernel) (.enter rfl rfl) ?_
  refine forall_steps_of_step (by decide +kernel) (.op rfl rfl rfl (.plain rfl rfl)) ?_
  refine forall_steps_of_step (by decide +kernel) (.op rfl rfl rfl (.plain rfl rfl)) ?_
  refine forall_steps_of_step (by decide +kernel) (.op rfl rfl rfl (.plain rfl rfl)) ?_
  exact forall_steps_of_ends (by decide +kernel) (.leave rfl rfl rfl rfl)

theorem namesLock_lockAndLeave (sp : SafepointId) (debug : DebugState)
    (h : lockAndLeave.body.states.get? sp = some debug) (slot : MonitorSlot)
    (hslot : slot ∈ debug.monitors) : lockAndLeave.body.NamesLock slot := by
  have hmem : (sp, debug) ∈ [((⟨0, 1⟩ : SafepointId), lockAndLeave.body.states.values.headD {})] :=
    SlotTable.mem_toList_of_get? h
  cases List.mem_singleton.1 hmem
  cases List.mem_singleton.1 hslot
  exact ⟨⟨1, 1⟩, ⟨2, 1⟩, ⟨0, 1⟩, rfl, by decide +kernel, rfl⟩

/-- The new body takes no lock, and hands over the box locked once, as the original does. -/
theorem run_elide_lockAndLeave :
    ∃ (g : Graph) (heap : Heap), (lockAndLeave.body.elide g fun _ => false).2 = 2 ∧
      heap.locksOf ⟨0, 1⟩ = 1 ∧
      ∃ n, ∀ k, { lockAndLeave with body := (lockAndLeave.body.elide g fun _ => false).1 }.run
        Host.idle (n + k) {} () = .ok (.deopt
          { safepoint := ⟨0, 1⟩, locals := [.ref ⟨0, 1⟩], monitors := [.ref ⟨0, 1⟩] },
          heap, ()) := by
  have hco : lockAndLeave.body.Coherent :=
    Body.coherent_of_live (.ofEntries rfl) (by decide +kernel) (by decide +kernel)
  obtain ⟨heap, hrun, hlocks⟩ : ∃ heap, lockAndLeave.run Host.idle 20 {} () = .ok (.deopt
      { safepoint := ⟨0, 1⟩, locals := [.ref ⟨0, 1⟩], monitors := [.ref ⟨0, 1⟩] }, heap, ()) ∧
      heap.locksOf ⟨0, 1⟩ = 1 := ⟨_, rfl, by decide +kernel⟩
  obtain ⟨g, changed, b', hg, h⟩ := Graph.exists_propagated lockAndLeave.program lockAndLeave.body 60
    (P := fun g => (lockAndLeave.body.elide g fun _ => false).2 = 2) (by decide +kernel)
  obtain ⟨n, heap', hn, -, -, hdeopt⟩ := run_elide (Host.confined_idle _) (Host.oblivious_idle _)
    (Heap.valid_empty _) (by simp [lockAndLeave]) (fun _ h => h.elim) namesLock_lockAndLeave
    (fun s hs => (steps_lockAndLeave s hs).1) (fun s log htrace sp debug hsp hdebug e _ obj hobj =>
      (steps_lockAndLeave s htrace.steps).2 debug (by simp [hsp, hdebug]) (e.1, obj)
        (SlotTable.mem_toList_of_get? hobj))
    (fun _ => false) hco (Except.eq_ok_of_isOk (by decide +kernel)) hg hrun
  exact ⟨g, heap, of_decide_eq_true h, hlocks, n, hdeopt _ rfl ▸ hn⟩

end Machine

end EscapeAnalysis
