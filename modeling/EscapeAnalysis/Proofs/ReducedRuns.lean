import EscapeAnalysis.Proofs.CheckedRuns
import EscapeAnalysis.Proofs.SplitEntries

/-!
# Taking merges apart keeps runs

The original and the body with merges taken apart start in step, every step of the original is met
by steps of the new body, and where the original ends, so does the new body (`Machine.run_reduce`).
A user that is gone never throws, since a merge that has a null leaf is not asked for its fields or
its class. In a debug state the selector finds the leaf, or says that the kept part has the value.
-/

namespace EscapeAnalysis

open List EscapeAnalysis.Except

namespace DebugState

theorem countP_le_count (phi : InstId) (l : List DebugValue) :
    l.countP (·.isValueOf phi) ≤ (l.flatMap DebugValue.insts).count phi ∧
      (l.countP (·.isValueOf phi) = (l.flatMap DebugValue.insts).count phi →
        ∀ v ∈ l, phi ∈ v.insts → v = .value phi) := by
  induction l with
  | nil => simp
  | cons v l ih =>
    obtain ⟨hle, heq⟩ := ih
    have hv : (if v.isValueOf phi then 1 else 0) ≤ v.insts.count phi := by
      split
      · rename_i hval
        obtain rfl := DebugValue.isValueOf_iff.1 hval
        simp [DebugValue.insts]
      · omega
    rw [flatMap_cons, count_append, countP_cons]
    refine ⟨by omega, fun h => forall_mem_cons.2 ⟨fun hmem => ?_, heq (by omega)⟩⟩
    have hpos := count_pos_iff.2 hmem
    refine DebugValue.isValueOf_iff.1 (Classical.byContradiction fun hno => ?_)
    rw [if_neg hno] at h hv
    omega

end DebugState

theorem Merges.OnlyTop.eq_value {phi state} (h : OnlyTop phi state) :
    (∀ v ∈ state.locals ++ state.monitors.map MonitorSlot.obj, phi ∈ v.insts → v = .value phi) ∧
      ∀ o ∈ state.recipes, ∀ v ∈ o.fields, phi ∉ v.insts := by
  rw [OnlyTop, DebugState.insts, DebugState.debugValues, flatMap_append,
    count_append] at h
  obtain ⟨hle, heq⟩ :=
    DebugState.countP_le_count phi (state.locals ++ state.monitors.map MonitorSlot.obj)
  refine ⟨heq (by omega), fun o ho v hv hmem => ?_⟩
  have hpos := count_pos_iff.2
    (mem_flatMap.2 ⟨v, mem_flatMap.2 ⟨o, ho, hv⟩, hmem⟩)
  omega

namespace Rebuild

variable {program : Program} {values : SideTable .inst Value} {recipes : List Recipe} {r : Rebuild}
  {selector other : InstId} {candidates : List DebugValue} {v : Value}

theorem eval_merge_other (hs : values.get? selector = some (.int (-1)))
    (ho : values.get? other = some v) :
    eval program values recipes r (.merge selector other candidates) = .ok (v, r) := by
  rw [eval_of_selects (.other hs)]
  exact eval_value.2 ⟨v, ho, rfl⟩

theorem eval_merge_candidate {x k} (hk : k < 2 ^ 31)
    (hs : values.get? selector = some (.int (.ofNat k))) (hx : candidates[k]? = some (.value x))
    (hv : values.get? x = some v) :
    eval program values recipes r (.merge selector other candidates) = .ok (v, r) := by
  have hint : (Int32.ofNat k).toInt = k := Int32.toInt_ofNat_of_lt (by omega)
  rw [eval_of_selects (.candidate hs hint hx (.value x))]
  exact eval_value.2 ⟨v, hv, rfl⟩

end Rebuild

namespace Machine

open Merges

variable {σ : Type} {m : Machine} {H : Splitting m.program m.body} {host : Host σ}
  {org : ObjRef → Option Nat} {holds : σ → ObjRef → Prop} {s s' : RunState σ}
  {x y phi : InstId} {op : Op} {rest : List InstId} {sp : SafepointId}

section Throws

variable {f : Frame} {heap : Heap} {th : Thrown}

theorem target_thrown (h : target f x = .error (.thrown th)) : f.values.get? x = some .null := by
  rcases bind_eq_error.1 h with h | ⟨v, hv, h⟩
  · exact absurd h Frame.get_ne_thrown
  · cases v <;> cases h
    exact Frame.get_eq_ok.1 hv

theorem orFail_ne_thrown {α : Type} {a? : Option α} {e} : orFail a? e ≠ .error (.thrown th) := by
  cases a? <;> simp [orFail, fail, throw, throwThe, MonadExceptOf.throw, pure, Except.pure]

theorem eval_loadField_thrown {field : FieldId}
    (h : m.eval f heap x (.loadField y field) = .error (.thrown th)) :
    f.values.get? y = some .null := by
  rcases bind_eq_error.1 h with h | ⟨o, -, h⟩
  · exact target_thrown h
  · rcases bind_eq_error.1 h with h | ⟨obj, -, h⟩
    · exact absurd h orFail_ne_thrown
    · rcases bind_eq_error.1 h with h | ⟨idx, -, h⟩
      · rw [slotOf] at h
        split at h
        · exact absurd h orFail_ne_thrown
        · cases h
      · rcases bind_eq_error.1 h with h | ⟨v, -, h⟩
        · exact absurd h orFail_ne_thrown
        · cases h

theorem eval_loadClass_thrown (h : m.eval f heap x (.loadClass y) = .error (.thrown th)) :
    f.values.get? y = some .null := by
  rcases bind_eq_error.1 h with h | ⟨o, -, h⟩
  · exact target_thrown h
  · rcases bind_eq_error.1 h with h | ⟨obj, -, h⟩
    · exact absurd h orFail_ne_thrown
    · split at h <;> cases h

theorem eval_refEq_ne_thrown : m.eval f heap x (.refEq y phi) ≠ .error (.thrown th) := by
  intro h
  rcases bind_eq_error.1 h with h | ⟨a, -, h⟩
  · exact Frame.get_ne_thrown h
  · rcases bind_eq_error.1 h with h | ⟨b, -, h⟩
    · exact Frame.get_ne_thrown h
    · cases h

theorem eval_instanceOf_ne_thrown {cls : ClassId} :
    m.eval f heap x (.instanceOf y cls) ≠ .error (.thrown th) := by
  intro h
  rcases bind_eq_error.1 h with h | ⟨v, -, h⟩
  · exact Frame.get_ne_thrown h
  · split at h
    · rcases bind_eq_error.1 h with h | ⟨obj, -, h⟩
      · exact orFail_ne_thrown h
      · split at h <;> cases h
    · cases h

end Throws

theorem Resolved.ne_null {values' v k leaf} (h : m.Resolved H org s values' phi v k leaf)
    (hno : (H.merges.desc phi).hasNull = false) : v ≠ .null := by
  rintro rfl
  cases leaf with
  | null => simp [MergeDesc.hasNull, mem_of_getElem? h.found] at hno
  | alloc n y =>
    obtain ⟨o, ho, -⟩ := h.object n y rfl
    cases ho

section Ends

variable (h : m.Beside H org s s') (hs : m.Surveyed H.graph org holds s)
  (hb : s.frame.block ∈ m.body.order)

include h hs hb in
theorem Beside.not_throws_of_dead (hr : s.Next x rest) (ho : m.body.op? x = some op)
    (hx : x ∈ H.dead) {th heap state} : ¬ m.Throws host s x op th heap state := by
  intro ht
  have huse := useOk_of_rest hs hb hr ho
  have hrep := (H.reduced.why x hx).resolve_left (not_gone_of_rest hs hb hr)
  have he : m.eval s.frame s.heap x op = .error (.thrown th) := by
    obtain ⟨op', ho', -, -, -, hcall⟩ := hrep.exists_op
    obtain rfl := Option.mem_unique ho ho'
    cases ht with
    | plain hc he => exact he
    | call => cases hcall
  cases hrep with
  | field phi f hphi hop hX =>
    obtain rfl := Option.mem_unique ho hop
    obtain ⟨k, leaf, hres⟩ := h.related.merges phi hphi _ (eval_loadField_thrown he)
    cases huse phi hphi (by simp [Op.operands]) with
    | load _ hall hclean =>
      refine hres.ne_null (Bool.eq_false_iff.2 fun hnull => ?_) rfl
      obtain ⟨n, y, cls, hl, -⟩ := hall .null (by simpa [MergeDesc.hasNull] using hnull)
      cases hl
  | isNull phi lhs rhs hphi hop hmem hX =>
    obtain rfl := Option.mem_unique ho hop
    exact eval_refEq_ne_thrown he
  | cls phi cls hphi hop hsh hX =>
    obtain rfl := Option.mem_unique ho hop
    obtain ⟨k, leaf, hres⟩ := h.related.merges phi hphi _ (eval_loadClass_thrown he)
    cases huse phi hphi (by simp [Op.operands]) with
    | cls _ _ hnull => exact hres.ne_null hnull rfl
  | instanceOf phi exact cls hphi hop hsh hX =>
    obtain rfl := Option.mem_unique ho hop
    exact eval_instanceOf_ne_thrown he

/-- Where the original runs an instruction that stays, the new body comes to it. -/
theorem InStep.meet (h : m.InStep H org s s') (hs : m.Surveyed H.graph org holds s)
    (hb : s.frame.block ∈ m.body.order) (host : Host σ) (hr : s.Next x rest) (hx : x ∉ H.dead) :
    ∃ s'' rest', (m.split H).Steps host s' s'' ∧ m.Beside H org s s'' ∧
      s''.Next x rest' := by
  by_cases hlast : x :: rest <:+ m.body.lastCall s.frame.block
  · obtain ⟨s'', hsteps, hbeside, hr'', -⟩ := h.arrive hs hb host hr hlast
    exact ⟨s'', rest, hsteps, hbeside, hr''⟩
  · obtain ⟨pre, -, -, hrest'⟩ := h.main_of_rest hr hlast
    exact ⟨s', _, .refl s', h.toBeside, by simpa [hx] using hrest'⟩

section Debug

variable (hle : ∀ phi ∈ H.gone, (H.merges.desc phi).leaves.length ≤ 2 ^ 31)

include h hle in
/-- What a debug state says in place of a merge has the value of the merge. -/
theorem Beside.means_standIn (hphi : phi ∈ H.gone)
    (hclean : Clean m.body H.merges (reallocOf (H.merges.desc phi)) phi (m.here s)) {X Y}
    (hX : ((phi, .selector 0), X) ∈ H.splitter.parts) (hY : ((phi, .kept), Y) ∈ H.splitter.parts)
    (recipes recipes' : List Recipe) :
    Rebuild.Means m.program s.frame.values s'.frame.values recipes recipes' (.value phi)
      ((Reduction.standIn H.merges H.replaced phi X Y).mapInsts H.ren) := by
  intro r res hev
  obtain ⟨v, hv, rfl⟩ := Rebuild.eval_value.1 hev
  obtain ⟨k, leaf, hres⟩ := h.related.merges phi hphi v hv
  have hX' := hres.part _ X hX (by simp)
  have hY' := hres.part _ Y hY (by simp)
  have hk : k < 2 ^ 31 :=
    Nat.lt_of_lt_of_le (List.getElem?_eq_some_iff.1 hres.found).1 (hle phi hphi)
  rw [Reduction.standIn, DebugValue.mapInsts, H.ren_of_new (H.reduced.built.parts _ hX).1,
    H.ren_of_new (H.reduced.built.parts _ hY).1, DebugValue.mapInstsAll_eq_map]
  cases leaf with
  | null => exact Rebuild.eval_merge_other hX' hY'
  | alloc n x =>
    by_cases hrep : H.replaced n = true
    · obtain ⟨op, hop, halloc⟩ := hres.alloc n x rfl
      have hnd := H.not_dead_of_alloc hop halloc
      obtain ⟨o, rfl, -, hx⟩ := hres.object n x rfl
      have hX' : s'.frame.values.get? X = some (.int (.ofNat k)) := by
        simpa [MergePart.value, hrep] using hX'
      refine Rebuild.eval_merge_candidate hk hX' (x := x) ?_
        ((h.related.agree x op hop hnd).trans (hx hclean))
      simp [hres.found, hrep, DebugValue.mapInsts, H.reduced.ren_of_not_dead x hnd]
    · simp only [MergePart.value, if_neg hrep] at hX' hY'
      exact Rebuild.eval_merge_other hX' hY'

include h hs hle in
theorem Beside.deoptimize (hsite : ∀ state, m.body.states.get? sp = some state →
      (∀ y ∈ state.insts, m.Reached s y) ∧ ∀ phi ∈ H.gone, phi ∈ state.insts →
        Clean m.body H.merges (reallocOf (H.merges.desc phi)) phi (m.here s)) {res}
    (hd : m.body.deoptimize m.program s.heap s.frame.values sp = .ok res) :
    H.result.deoptimize m.program s'.heap s'.frame.values sp = .ok res := by
  rcases hst : m.body.states.get? sp with _ | state
  · simp [Body.deoptimize, hst, throw, throwThe, MonadExceptOf.throw] at hd
  obtain ⟨hav, hclean⟩ := hsite state hst
  have honly := fun phi (hphi : phi ∈ H.gone) (hmem : phi ∈ state.insts) =>
    ((H.apart.reducible phi hphi).top sp state hst hmem).eq_value
  have hcarry : ∀ v ∈ state.debugValues, (∀ y ∈ v.insts, y ∉ H.gone) →
      ∀ y ∈ v.insts, Carries H.ren s.frame.values s'.frame.values y := fun v hv hgone y hy =>
    h.related.carries_of hs.framed (hgone y hy) (hav y (mem_flatMap.2 ⟨v, hv, hy⟩))
  rw [h.heap]
  refine Body.deoptimize_rename hst ((H.reduced.states sp).trans (by rw [hst]; rfl))
    (fun v hv => ?top) (fun o ho v hv => ?recipe) hd
  case recipe =>
    have hmem : v ∈ state.debugValues :=
      mem_append_right _ (mem_flatMap.2 ⟨o, ho, hv⟩)
    exact hcarry v hmem fun y hy hgone =>
      (honly y hgone (mem_flatMap.2 ⟨v, hmem, hy⟩)).2 o ho v hv hy
  case top =>
    have hmem : v ∈ state.debugValues := mem_append_left _ hv
    by_cases hgone : ∃ phi ∈ H.gone, v = .value phi
    · obtain ⟨phi, hphi, rfl⟩ := hgone
      have hinst := DebugState.mem_insts_of_top hv
      obtain ⟨w, hw⟩ := H.reduced.named phi hphi sp state hst hinst
      obtain ⟨-, X, Y, hX, hY, hstand⟩ := H.reduced.swapped _ (mem_of_lookup hw)
      have hswap : DebugValue.swap H.table (.value phi) = w := by simp [DebugValue.swap, hw]
      rw [hswap, show w = Reduction.standIn H.merges H.replaced phi X Y from hstand]
      exact h.means_standIn hle hphi (hclean phi hphi hinst) hX hY _ _
    · have hno : ∀ y ∈ v.insts, y ∉ H.gone := fun y hy hphi =>
        hgone ⟨y, hphi, (honly y hphi (mem_flatMap.2 ⟨v, hmem, hy⟩)).1 v hv hy⟩
      have hswap : v.swap H.table = v := by
        cases v with
        | value y =>
          rcases hlook : H.table.lookup y with _ | w
          · simp [DebugValue.swap, hlook]
          · exact absurd (H.reduced.swapped _ (mem_of_lookup hlook)).1
              (hno y (by simp [DebugValue.insts]))
        | _ => rfl
      rw [hswap]
      exact fun r res => Rebuild.eval_rename (hcarry v hmem hno)

section Site

variable (hobs : ∀ s site, m.body.Observes s site → m.body.states.Issued s)
  (honce : m.body.ObservedOnce) {res : DeoptState × Heap}
include h hs hb hle hobs honce

theorem Beside.deoptimize_inst (hr : s.Next x rest) (ho : m.body.op? x = some op)
    (hsp : op.safepoint? = some sp)
    (hd : m.body.deoptimize m.program s.heap s.frame.values sp = .ok res) :
    H.result.deoptimize m.program s'.heap s'.frame.values sp = .ok res := by
  have hget := hs.getElem?_rest hr
  have hsite : m.body.Observes sp (.inst s.frame.block x) :=
    ⟨mem_of_getElem? hget, by simp [ho, hsp]⟩
  obtain ⟨inst, hinst⟩ := Body.live_of_op? ho
  have hplace := H.checked.placement H.wf H.issued hinst hget
  refine h.deoptimize hs hle (fun state hst => ?_) hd
  have hsites := Body.get?_sites H.wf.states hobs hst hsite fun site' h' =>
    honce sp site' _ h' hsite
  have hstate : m.body.state sp = state := by simp [Body.state, hst]
  refine ⟨fun y hy => ?_, fun phi hphi hmem => ?_⟩
  · have hav := H.statesChecked.stateInst sp _ x hsites hb y (hstate ▸ hy)
    rw [hplace] at hav
    exact (reached_of_rest hr).2 hav
  · rw [here_of_rest hr]
    refine (H.apart.reducible phi hphi).site sp state hst hmem _ ?_ hb
    have hs' : (MergeContext.ofBody m.program m.body H.graph).sites.get? sp = _ := hsites
    have hp' : (MergeContext.ofBody m.program m.body H.graph).placement.get? x = _ := hplace
    simp [MergeContext.pointOf?, hs', hp']

theorem Beside.deoptimize_term (hr : s.rest = some [])
    (hterm : (m.body.block s.frame.block).term = .deopt sp)
    (hd : m.body.deoptimize m.program s.heap s.frame.values sp = .ok res) :
    H.result.deoptimize m.program s'.heap s'.frame.values sp = .ok res := by
  have hsite : m.body.Observes sp (.term s.frame.block) := hterm
  refine h.deoptimize hs hle (fun state hst => ?_) hd
  have hsites := Body.get?_sites H.wf.states hobs hst hsite fun site' h' =>
    honce sp site' _ h' hsite
  have hstate : m.body.state sp = state := by simp [Body.state, hst]
  refine ⟨fun y hy => ?_, fun phi hphi hmem => ?_⟩
  · exact (reached_of_rest hr).2 (H.statesChecked.stateTerm sp _ hsites hb y (hstate ▸ hy))
  · rw [here_of_rest hr]
    refine Clean.of_atEnd ((H.apart.reducible phi hphi).site sp state hst hmem _ ?_ hb)
    have hs' : (MergeContext.ofBody m.program m.body H.graph).sites.get? sp = _ := hsites
    simp [MergeContext.pointOf?, hs']

end Site

end Debug

end Ends

theorem not_dead_of_safepoint (hop : m.body.op? x = some op) (hsp : op.safepoint? = some sp) :
    x ∉ H.dead := by
  intro hd
  rcases H.reduced.why x hd with hgone | hrep
  · obtain ⟨inputs, hop', -⟩ := (H.described hgone).inputs
    obtain rfl := Option.mem_unique hop hop'
    cases hsp
  · cases hrep with
    | field _ _ _ hop' | isNull _ _ _ _ hop' | cls _ _ _ hop' | instanceOf _ _ _ _ hop' =>
      obtain rfl := Option.mem_unique hop hop'
      cases hsp

theorem InStep.ends (h : m.InStep H org s s') (hs : m.Surveyed H.graph org holds s)
    (hle : ∀ phi ∈ H.gone, (H.merges.desc phi).leaves.length ≤ 2 ^ 31)
    (hobs : ∀ s site, m.body.Observes s site → m.body.states.Issued s) (honce : m.body.ObservedOnce)
    {e heap a} (he : m.Ends host s e heap a) :
    ∃ t', (m.split H).Steps host s' t' ∧ (m.split H).Ends host t' e heap a := by
  have hb := hs.sound.located.mem_order_of_ends he
  -- the new body at the end of the block
  have hlast : ∀ {term}, s.rest = some [] → (m.body.block s.frame.block).term = term → ∃ s'',
      (m.split H).Steps host s' s'' ∧ m.Beside H org s s'' ∧ s''.rest = some [] ∧
      ((m.split H).body.block s''.frame.block).term = term.mapOperand H.ren := by
    rintro term hr rfl
    obtain ⟨s'', hsteps, hbeside, hr'', -⟩ := h.arrive hs hb host hr (by simp)
    refine ⟨s'', hsteps, hbeside, hr'', ?_⟩
    rw [hbeside.block]
    exact H.reduced.term _ hb
  cases he with
  | ret hr hterm =>
    obtain ⟨s'', hsteps, hbeside, hr'', hterm''⟩ := hlast hr hterm
    rw [← hbeside.heap, ← hbeside.host]
    exact ⟨s'', hsteps, .ret hr'' hterm''⟩
  | retValue hr hterm hv =>
    obtain ⟨s'', hsteps, hbeside, hr'', hterm''⟩ := hlast hr hterm
    rw [← hbeside.heap, ← hbeside.host]
    exact ⟨s'', hsteps, .retValue hr'' hterm''
      (hbeside.carries_term hs hb hr (by rw [hterm]; rfl) _ hv)⟩
  | throw hr hterm hv =>
    obtain ⟨s'', hsteps, hbeside, hr'', hterm''⟩ := hlast hr hterm
    rw [← hbeside.heap, ← hbeside.host]
    exact ⟨s'', hsteps, .throw hr'' hterm''
      (hbeside.carries_term hs hb hr (by rw [hterm]; rfl) _ hv)⟩
  | deopt hr hterm hd =>
    obtain ⟨s'', hsteps, hbeside, hr'', hterm''⟩ := hlast hr hterm
    rw [← hbeside.host]
    exact ⟨s'', hsteps, .deopt hr'' hterm''
      (hbeside.deoptimize_term hs hb hle hobs honce hr hterm hd)⟩
  | @leave x rest op sp _ _ hr ho hl hd =>
    have hmem := (hs.sound.located.mem_insts hr).2
    have hsp : op.safepoint? = some sp := by
      simp only [leavesAt?, Option.filter_eq_some_iff] at hl
      exact hl.1
    have hx := not_dead_of_safepoint (H := H) ho hsp
    obtain ⟨s'', rest', hsteps, hbeside, hr''⟩ := h.meet hs hb host hr hx
    rw [← hbeside.host]
    exact ⟨s'', hsteps, .leave hr'' (H.reduced.op_old _ hb x hmem hx _ ho)
      ((leavesAt?_split op).trans hl)
      (hbeside.deoptimize_inst hs hb hle hobs honce hr ho hsp hd)⟩
  | @uncaught x rest op _ _ _ hr ho hl ht hterm =>
    have hmem := (hs.sound.located.mem_insts hr).2
    have hx : x ∉ H.dead := fun hx => h.toBeside.not_throws_of_dead hs hb hr ho hx ht
    obtain ⟨s'', rest', hsteps, hbeside, hr''⟩ := h.meet hs hb host hr hx
    refine ⟨s'', hsteps, .uncaught hr'' (H.reduced.op_old _ hb x hmem hx _ ho)
      ((leavesAt?_split op).trans hl) ?_ ?_⟩
    · exact Throws.rename (hbeside.carries_operands hs hb hr ho hx) hbeside.exception hbeside.heap
        hbeside.host ht
    · intro normal handler heq
      rw [hbeside.block] at heq
      refine hterm normal handler ?_
      have := (H.reduced.term _ hb).symm.trans heq
      cases hb' : (m.body.block s.frame.block).term <;> simp_all [Terminator.mapOperand]

variable {t : RunState σ} {log : List (ObjRef × InstId)} {heap : Heap} {state : σ}

section Split

theorem inStep_start (H : Splitting m.program m.body) (org : ObjRef → Option Nat) (heap : Heap)
    (state : σ) : m.InStep H org (m.start heap state) ((m.split H).start heap state) := by
  have hempty : ∀ x, (m.start heap state).frame.values.get? x = none := fun _ => rfl
  refine ⟨⟨⟨fun _ _ _ _ => rfl, fun _ _ _ hr => hr.elim, fun phi _ v hv => ?_, .inl ⟨rfl, rfl⟩⟩,
    framed_start _ heap state, H.reduced.entry, rfl, rfl, rfl, rfl⟩, .entering rfl rfl nofun ?_⟩
  · rw [hempty] at hv
    cases hv
  · exact fun _ => hempty

/-- Every step of the original is met by the new body. A block that does not exist is left out: the
original may go there, but does not get any further. -/
theorem InStep.step (hb : s.frame.block ∈ m.body.order → m.InStep H (origin H.graph log) s s')
    (hs : m.Surveyed H.graph (origin H.graph log) holds s) (hhost : host.Confined m.program holds)
    (htyped : m.WellTyped s) (htyped' : m.WellTyped t) (hstep : m.Step host s t) :
    ∃ t', (m.split H).Steps host s' t' ∧ (t.frame.block ∈ m.body.order →
      m.InStep H (origin H.graph ((m.created? s).toList ++ log)) t t') := by
  have horg : ∀ o, s.heap.Live o →
      origin H.graph ((m.created? s).toList ++ log) o = origin H.graph log o :=
    fun o ho => origin_of_live hs.sound.heap.valid.wellFormed ho
  cases hstep with
  | enter hr hf =>
    by_cases hblock : s.frame.block ∈ m.body.order
    · obtain ⟨t', hsteps, h⟩ := (hb hblock).enter hs hblock hr hf htyped'.nullable horg
      exact ⟨t', hsteps, fun _ => h⟩
    · obtain ⟨_, -, -, rfl⟩ := enterPhis_spec hf
      exact ⟨s', .refl s', fun h => absurd h hblock⟩
  | op hr ho hl hd =>
    have hblock := (hs.sound.located.mem_insts hr).1
    obtain ⟨t', hsteps, h⟩ :=
      (hb hblock).over hs hblock hr ho hhost htyped.refs horg hd hl
    exact ⟨t', hsteps, fun _ => h⟩
  | caught hr ho hl ht hterm =>
    have hblock := (hs.sound.located.mem_insts hr).1
    obtain ⟨t', hsteps, h⟩ :=
      (hb hblock).caught hs hr ho hl hhost htyped.refs horg ht hterm
    exact ⟨t', hsteps, fun _ => h⟩
  | goTo hr htakes =>
    have hblock := hs.sound.located.mem_order_of_targets htakes.mem_targets
    obtain ⟨t', hsteps, h⟩ := (hb hblock).goTo hs hr horg htakes
    exact ⟨t', hsteps, fun _ => h⟩

section Run

variable (hhost : host.Confined m.program holds) (hst : m.StartsIn holds heap state)
  (htyped : ∀ s, m.Steps host (m.start heap state) s → m.WellTyped s)
include hhost hst htyped

theorem exists_inStep (hsteps : m.Steps host (m.start heap state) s) :
    ∃ log s', m.Surveyed H.graph (origin H.graph log) holds s ∧
      (m.split H).Steps host ((m.split H).start heap state) s' ∧
      (s.frame.block ∈ m.body.order → m.InStep H (origin H.graph log) s s') := by
  induction hsteps with
  | refl =>
    exact ⟨[], _, surveyed_start H.graph hst, .refl _,
      fun _ => inStep_start H _ heap state⟩
  | @tail t u hsteps hstep ih =>
    obtain ⟨log, s', hs, hsteps', h⟩ := ih
    have ht := htyped t hsteps
    have hu := htyped u (hsteps.tail hstep)
    obtain ⟨t', hmore, h'⟩ := InStep.step h hs hhost ht hu hstep
    exact ⟨_, t', hs.step H.wf H.checked H.solved hhost ht.toDisciplined hu.toDisciplined hstep,
      hsteps'.trans hmore, h'⟩

theorem run_split (hle : ∀ phi ∈ H.gone, (H.merges.desc phi).leaves.length ≤ 2 ^ 31)
    (hobs : ∀ s site, m.body.Observes s site → m.body.states.Issued s) (honce : m.body.ObservedOnce)
    {fuel r} (hrun : m.run host fuel heap state = .ok r) :
    ∃ n, (m.split H).run host n heap state = .ok r := by
  obtain ⟨e, heap', state'⟩ := r
  obtain ⟨hlen, t, hsteps, hends⟩ := run_iff.1 ⟨fuel, hrun⟩
  obtain ⟨log, s', hs, hsteps', h⟩ := exists_inStep (H := H) hhost hst htyped hsteps
  obtain ⟨t', hmore, hends'⟩ :=
    (h (hs.sound.located.mem_order_of_ends hends)).ends hs hle hobs honce hends
  exact run_iff.2 ⟨hlen.trans (congrArg _ H.reduced.params.symm), t', hsteps'.trans hmore, hends'⟩

end Run

end Split

/-- Taking merges apart keeps runs. The body passes the check, each of its debug states is observed
at one place, and its run respects types. With enough fuel, the body that the reduction leaves has
the exit, the heap and the state of the host that the original has. -/
theorem run_reduce {settings settings' : Settings} {g : Graph} {changed : Bool}
    {leftOut : InstId → Bool} {blacklist : List InstId} {enabled : Bool} {a : MergeAnalysis}
    {b₁ b₂ b₃ b₄ : Budget} {replaced : Nat → Bool} {webs : List Web}
    {registry registry' : Registry} {body' : Body} {reduced : List InstId}
    (hco : m.body.Coherent) (hcheck : m.body.check m.program = .ok ())
    (honce : m.body.ObservedOnce)
    (hg : Metered.Yields ((Graph.ofBody m.program m.body settings).propagate settings') b₁
      (g, changed) b₂)
    (ha : Metered.Yields (MergeAnalysis.compute m.program m.body g leftOut blacklist enabled) b₃ a
      b₄)
    (hle : ∀ w ∈ webs, ∀ phi ∈ w.phis, (a.merges.desc phi).leaves.length ≤ 2 ^ 31)
    (hwebs : webs ⊆ (a.reducibleWebs replaced).map Prod.fst)
    (hreduce : m.body.reduce m.program a replaced registry webs = .ok (body', registry', reduced))
    (hhost : host.Confined m.program holds) (hheap : heap.Valid m.program)
    (hargs : ∀ o, .ref o ∈ m.args → heap.Live o) (hheld : ∀ o, holds state o → heap.Live o)
    (htyped : ∀ s, m.Steps host (m.start heap state) s → m.WellTyped s) {fuel : Nat}
    {r : Exit × Heap × σ} (hrun : m.run host fuel heap state = .ok r) :
    ∃ n, ∀ k, { m with body := body' }.run host (n + k) heap state = .ok r := by
  have hwf := hco.toWellFormed
  have hc := Body.checked_of_check hwf hco.issued hcheck
  obtain ⟨hf, hsettled⟩ := MergeAnalysis.settled_of_compute hwf hco.issued hc ha
  have hw : ∀ w ∈ webs, MergeAnalysis.Settled (.ofBody m.program m.body g) a.merges w := by
    intro w hw
    obtain ⟨⟨w', i⟩, hmem, rfl⟩ := mem_map.1 (hwebs hw)
    simp only [MergeAnalysis.reducibleWebs, mem_filter, Bool.and_eq_true,
      Option.isNone_iff_eq_none] at hmem
    exact hsettled w' (fst_mem_of_mem_zipIdx hmem.1) hmem.2.1
  obtain ⟨splitter, extra, table, dead, ren, hred⟩ :=
    Body.reduced_of_reduce hwf hco.issued hc hf hw hreduce
  let H : Splitting m.program m.body :=
    { graph := g, cands := Merges.candidates m.body g leftOut, merges := a.merges, replaced
      gone := webs.flatMap Web.phis, splitter, extra, table, dead, ren, result := body'
      wf := hwf
      issued := hco.issued
      checked := hc
      statesChecked := Body.statesChecked_of_check hwf hcheck
      solved := Graph.solved_of_propagate hwf.insts hg
      faithful := hf
      apart := Merges.apart_of_settled hwf hco.issued hc hf hw
      reduced := hred }
  have hleaves : ∀ phi ∈ H.gone, (H.merges.desc phi).leaves.length ≤ 2 ^ 31 := by
    intro phi hphi
    obtain ⟨w, hw, hphi⟩ := mem_flatMap.1 hphi
    exact hle w hw phi hphi
  obtain ⟨n, hn⟩ :=
    run_split (H := H) hhost ⟨hheap, hargs, hheld⟩ htyped hleaves hco.observed honce hrun
  exact ⟨n, fun k => run_mono k hn⟩

/-- Reads a box that one of two branches has made, and leaves compiled code with it. -/
def chooseBox : Machine where
  program :=
    { classes := .ofEntries [{ name := "Box", parent := none, layout := [⟨0, 1⟩], flags := {} }]
      fields := .ofEntries [{ name := "value", ty := .int, holder := ⟨0, 1⟩ }] }
  body :=
    { blocks := .ofEntries
        [{ insts := [⟨0, 1⟩], term := .branch ⟨0, 1⟩ ⟨1, 1⟩ ⟨2, 1⟩ },
          { insts := [⟨1, 1⟩, ⟨2, 1⟩], term := .jump ⟨3, 1⟩ },
          { insts := [⟨3, 1⟩], term := .jump ⟨3, 1⟩ },
          { insts := [⟨4, 1⟩, ⟨5, 1⟩], term := .deopt ⟨0, 1⟩ }]
      insts := .ofEntries
        [⟨.param 0, some .int⟩, ⟨.new ⟨0, 1⟩, some .ref⟩,
          ⟨.storeField ⟨1, 1⟩ ⟨0, 1⟩ ⟨0, 1⟩, none⟩, ⟨.new ⟨0, 1⟩, some .ref⟩,
          ⟨.phi [(⟨1, 1⟩, ⟨1, 1⟩), (⟨2, 1⟩, ⟨3, 1⟩)], some .ref⟩,
          ⟨.loadField ⟨4, 1⟩ ⟨0, 1⟩, some .int⟩]
      states := .ofEntries [{ locals := [.value ⟨4, 1⟩, .value ⟨5, 1⟩] }]
      entry := ⟨0, 1⟩
      params := [.int]
      ret := none }
  args := [.int 5]

theorem wellTyped_chooseBox (s : RunState Unit)
    (hs : chooseBox.Steps Host.idle (chooseBox.start {} ()) s) : chooseBox.WellTyped s := by
  revert s
  refine forall_steps_of_step (by decide +kernel) (.enter rfl rfl) ?_
  refine forall_steps_of_step (by decide +kernel) (.op rfl rfl rfl (.plain rfl rfl)) ?_
  refine forall_steps_of_step (by decide +kernel) (.goTo rfl (.branch rfl)) ?_
  refine forall_steps_of_step (by decide +kernel) (.enter rfl rfl) ?_
  refine forall_steps_of_step (by decide +kernel) (.op rfl rfl rfl (.plain rfl rfl)) ?_
  refine forall_steps_of_step (by decide +kernel) (.op rfl rfl rfl (.plain rfl rfl)) ?_
  refine forall_steps_of_step (by decide +kernel) (.goTo rfl (.jump _)) ?_
  refine forall_steps_of_step (by decide +kernel) (.enter rfl rfl) ?_
  refine forall_steps_of_step (by decide +kernel) (.op rfl rfl rfl (.plain rfl rfl)) ?_
  exact forall_steps_of_ends (by decide +kernel) (.deopt rfl rfl (by cbv))

/-- The box is handed over as the debug state of the new body describes it: as one of the two that
the merge joins. -/
theorem run_reduce_chooseBox :
    ∃ (a : MergeAnalysis) (body' : Body) (registry : Registry) (heap : Heap),
      chooseBox.body.reduce chooseBox.program a (fun _ => true) {}
        ((a.reducibleWebs fun _ => true).map Prod.fst) = .ok (body', registry, [⟨4, 1⟩]) ∧
      ∃ n, ∀ k, { chooseBox with body := body' }.run Host.idle (n + k) {} () =
        .ok (.deopt { safepoint := ⟨0, 1⟩, locals := [.ref ⟨0, 1⟩, .int 5], monitors := [] },
          heap, ()) := by
  have hco : chooseBox.body.Coherent :=
    Body.coherent_of_live (.ofEntries rfl) (by decide +kernel) (by decide +kernel)
  obtain ⟨heap, hrun⟩ : ∃ heap, chooseBox.run Host.idle 20 {} () =
      .ok (.deopt { safepoint := ⟨0, 1⟩, locals := [.ref ⟨0, 1⟩, .int 5], monitors := [] },
        heap, ()) := ⟨_, rfl⟩
  obtain ⟨g, changed, b₂, hg, h⟩ := Graph.exists_propagated chooseBox.program chooseBox.body 60
    (P := fun g => (Metered.result? (MergeAnalysis.compute chooseBox.program chooseBox.body g
      (fun _ => false) [] true) { limit := 300 }).any fun a =>
        (∀ w ∈ (a.reducibleWebs fun _ => true).map Prod.fst, ∀ phi ∈ w.phis,
          (a.merges.desc phi).leaves.length ≤ 2 ^ 31) ∧
        ((chooseBox.body.reduce chooseBox.program a (fun _ => true) {}
          ((a.reducibleWebs fun _ => true).map Prod.fst)).toOption.map fun r => r.2.2) =
            some [⟨4, 1⟩])
    (by decide +kernel)
  obtain ⟨a, b₄, ha, h⟩ := Metered.exists_yields h
  obtain ⟨hle, h⟩ := of_decide_eq_true h
  rcases hreduce : chooseBox.body.reduce chooseBox.program a (fun _ => true) {}
    ((a.reducibleWebs fun _ => true).map Prod.fst) with e | ⟨body', registry, reduced⟩
  · simp [hreduce, Except.toOption] at h
  · obtain rfl : reduced = [⟨4, 1⟩] := by simpa [hreduce, Except.toOption] using h
    exact ⟨a, body', registry, heap, hreduce,
      run_reduce hco (by cbv) (by decide +kernel) hg ha hle (List.Subset.refl _) hreduce
        (Host.confined_idle _) (Heap.valid_empty _) (by simp [chooseBox]) (fun _ h => h.elim)
        wellTyped_chooseBox hrun⟩

end Machine

end EscapeAnalysis
