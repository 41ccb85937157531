import EscapeAnalysis.Proofs.SplitRuns

/-!
# Steps of a run with merges taken apart

The steps of the new body that go with one step of the original inside a block: none for a user of a
merge that is gone, the same one for any other instruction, and the loads at the end of the block
before the original goes on to the last call or the terminator. The original then leaves the block,
by its terminator or by an exception that a handler catches, and the new body leaves it the same
way.
-/

namespace EscapeAnalysis

open List

variable {body : Body} {b : BlockId}

open Merges

/-- A value that is no call is available before the call that ends the block if it is available
behind it. -/
theorem Body.available_lastCall (hc : body.Checked) (hb : b ∈ body.order) {x op}
    (hop : body.op? x = some op) (hcall : op.isCall = false)
    (h : body.Available x b (body.block b).insts.length) :
    body.Available x b (body.position b (some (body.lastCall b))) := by
  cases hterm : (body.block b).term with
  | invoke call normal handler =>
    obtain ⟨⟨c, hc'⟩, hlast⟩ := hc.invoke b hb call normal handler hterm
    have hne : (body.block b).insts ≠ [] := by
      intro hnil
      simp [hnil] at hlast
    have hlen : (body.block b).insts.length - 1 + 1 = (body.block b).insts.length :=
      Nat.sub_add_cancel (length_pos_iff.2 hne)
    simp only [lastCall, hterm, position, length_singleton]
    refine (Available.of_succ (hlen ▸ h)).resolve_right fun hx => ?_
    rw [← List.getLast?_eq_getElem?, hlast, Option.some.injEq] at hx
    subst hx
    obtain rfl := Option.mem_unique hc' hop
    cases hcall
  | _ =>
    simp only [lastCall, hterm, position_nil]
    exact h

theorem Body.term_of_suffix_lastCall {x rest} (h : x :: rest <:+ body.lastCall b) :
    rest = [] ∧ ∃ normal handler, (body.block b).term = .invoke x normal handler := by
  cases hterm : (body.block b).term with
  | invoke call normal handler =>
    simp only [lastCall, hterm, suffix_cons_iff, suffix_nil, List.cons.injEq,
      reduceCtorEq, or_false] at h
    exact ⟨h.2, normal, handler, by rw [h.1]⟩
  | _ => simp [lastCall, hterm] at h

namespace Machine

variable {σ : Type} {m : Machine} {H : Splitting m.program m.body} {host : Host σ}
  {org org' : ObjRef → Option Nat} {holds : σ → ObjRef → Prop} {s s' t : RunState σ}
  {x y phi : InstId} {op : Op} {rest : List InstId}

theorem Surveyed.hasField_of_leaf {g} (h : m.Surveyed g org holds s) {o n} (horg : org o = some n)
    {cls} (hsh : g.shapeOf n = .inst cls) {f} (hf : (m.program.fieldIndex? cls f).isSome) :
    ∃ w, s.heap.HasField m.program o f w := by
  obtain ⟨-, obj, hobj, hdesc, hsized⟩ := h.sound.heap.created o n horg
  obtain ⟨idx, hidx⟩ := Option.isSome_iff_exists.1 hf
  have hshape : obj.shape = .inst cls := (hsh ▸ hdesc).eq_inst
  have hlt : idx < obj.fields.size := by
    rw [hsized, hshape]
    have := (List.getElem?_eq_some_iff.1 (Program.layout_of_fieldIndex? hidx)).1
    simpa [Shape.slots] using this
  exact ⟨_, obj, cls, idx, hobj, hshape, hidx, Array.getElem?_eq_getElem hlt⟩

theorem leavesAt?_split (op : Op) :
    (m.split H).leavesAt? (op.mapOperands H.ren) = m.leavesAt? op := by
  rw [leavesAt?, Op.safepoint?_mapOperands]
  rfl

section Loads

variable (hs : m.Surveyed H.graph org holds s) (hb : s.frame.block ∈ m.body.order)
  (hrest : s.rest = some (m.body.lastCall s.frame.block))

include hs hb hrest in
theorem exists_field_of_load (hy : y ∈ H.extra s.frame.block) {f}
    (hop : H.splitter.body.op? y = some (.loadField x f)) :
    (∃ op, m.body.op? x = some op ∧ x ∉ H.dead) ∧
      ∃ o w, s.frame.values.get? x = some (.ref o) ∧ s.heap.HasField m.program o f w := by
  obtain ⟨⟨phi, hphi, n, hin, hall⟩, -⟩ := H.leafLoad hy hop
  obtain ⟨⟨op, hx, halloc⟩, hn, hav, hleaf⟩ := H.leaf_input hphi hin
  have hcall : op.isCall = false := by cases op <;> first | rfl | cases halloc
  have hyields : op.yields = true := by cases op <;> first | rfl | cases halloc
  have hav' := Body.available_lastCall H.checked hb hx hcall hav
  obtain ⟨v, hv⟩ := hs.computed hb x op ((reached_of_rest hrest).2 hav') hx hyields
  obtain ⟨o, n', rfl, hn', horg⟩ := hs.allocs x op v hx halloc hv
  obtain rfl : n = n' := by simpa [hn] using hn'
  obtain ⟨_, _, cls, heq, hsh, hf⟩ := hall _ hleaf
  cases heq
  obtain ⟨w, hw⟩ := hs.hasField_of_leaf horg hsh hf
  exact ⟨⟨op, hx, H.not_dead_of_alloc hx halloc⟩, o, w, hv, hw⟩

theorem Beside.set_load (h : m.Beside H org s s') {b} (hy : y ∈ H.extra b) (w : Value)
    (r : Option (List InstId)) :
    m.Beside H org s { s' with frame := s'.frame.set y w, rest := r } ∧
      ∀ z, (s'.frame.set y w).values.get? z =
        if z = y then some w else s'.frame.values.get? z := by
  obtain ⟨hfresh, x, f, hop, -⟩ := H.reduced.built.loads b y hy
  have hget := fun z => h.framed.get?_setResult H.reduced.wf (H.op?_load hy hop) (some w) z
  simp only [Frame.setResult_some, Option.some_or] at hget
  refine ⟨⟨h.related.congr ?_ ?_, ?_, h.block, h.pred, h.exception, h.heap, h.host⟩, hget⟩
  · intro x op hx _
    refine (hget x).trans (if_neg ?_)
    rintro rfl
    obtain ⟨inst, hinst⟩ := Body.live_of_op? hx
    simp [hfresh] at hinst
  · intro X v hX hv
    exact (hget X).trans ((if_neg (H.load_ne_of_names hy hX)).trans hv)
  · intro z v hv
    change (s'.frame.set y w).values.get? z = some v at hv
    rw [hget z] at hv
    split at hv
    · subst z
      exact Body.live_of_op? (H.op?_load hy hop)
    · exact h.framed z v hv

include hs hb hrest in
theorem Beside.drain : ∀ (ys done : List InstId) (s' : RunState σ), m.Beside H org s s' →
    s'.rest = some (ys ++ m.body.lastCall s.frame.block) → done ++ ys = H.extra s.frame.block →
    m.Loaded H done s s'.frame.values →
    ∃ s'', (m.split H).Steps host s' s'' ∧ m.Beside H org s s'' ∧
      s''.rest = some (m.body.lastCall s.frame.block) ∧
      m.Loaded H (H.extra s.frame.block) s s''.frame.values := by
  intro ys
  induction ys with
  | nil =>
    intro done s' h hr hd hl
    exact ⟨s', .refl s', h, hr, by simpa [← hd] using hl⟩
  | cons y ys ih =>
    intro done s' h hr hd hl
    have hy : y ∈ H.extra s.frame.block := hd ▸ by simp
    obtain ⟨-, x, f, hop, -⟩ := H.reduced.built.loads _ y hy
    obtain ⟨⟨xop, hx, hnd⟩, o, w, hv, hf⟩ := exists_field_of_load hs hb hrest hy hop
    have hv' : s'.frame.values.get? x = some (.ref o) := (h.related.agree x xop hx hnd).trans hv
    obtain ⟨hbeside, hget⟩ := h.set_load hy w (some (ys ++ m.body.lastCall s.frame.block))
    have hstep : (m.split H).Step host s'
        { s' with
          frame := s'.frame.set y w, rest := some (ys ++ m.body.lastCall s.frame.block) } := by
      obtain ⟨obj, c, idx, hobj, hc, hidx, hw⟩ := hf
      have he : (m.split H).eval s'.frame s'.heap y (.loadField x f) = .ok (.value w) :=
        eval_loadField.2 ⟨o, obj, c, idx, w, hv', h.heap ▸ hobj, hc, hidx, hw, rfl⟩
      exact .op hr (H.op?_load hy hop) rfl (.plain rfl he)
    have hl' : m.Loaded H (done ++ [y]) s (s'.frame.set y w).values := by
      intro z hz x' f' hop'
      by_cases hzy : z = y
      · subst hzy
        obtain ⟨rfl, rfl⟩ : x = x' ∧ f = f' := by simpa [hop] using hop'
        exact ⟨o, w, hv, hf, (hget z).trans (if_pos rfl)⟩
      · have hz : z ∈ done := by simpa [hzy] using hz
        obtain ⟨o', w', hvx, hf', hvz⟩ := hl z hz x' f' hop'
        exact ⟨o', w', hvx, hf', (hget z).trans ((if_neg hzy).trans hvz)⟩
    obtain ⟨s'', hsteps, hrest⟩ := ih (done ++ [y]) _ hbeside rfl (by simpa using hd) hl'
    exact ⟨s'', hsteps.head hstep, hrest⟩

end Loads

/-- When the original has come to the last call or the terminator, the new body comes there too. -/
theorem InStep.arrive (h : m.InStep H org s s') (hs : m.Surveyed H.graph org holds s)
    (hb : s.frame.block ∈ m.body.order) (host : Host σ) (hr : s.rest = some rest)
    (hsub : rest <:+ m.body.lastCall s.frame.block) :
    ∃ s'', (m.split H).Steps host s' s'' ∧ m.Beside H org s s'' ∧ s''.rest = some rest ∧
      m.Loaded H (H.extra s.frame.block) s s''.frame.values := by
  cases h.aligned with
  | entering hnone => simp [hnone] at hr
  | main pre hpre hrest hrest' =>
    obtain rfl : pre ++ m.body.lastCall s.frame.block = rest := by simpa [hrest] using hr
    obtain rfl : pre = [] := by
      have := hsub.length_le
      rw [length_append] at this
      exact eq_nil_of_length_eq_zero (by omega)
    exact Beside.drain hs hb hrest _ [] s' h.toBeside hrest' rfl (by simp [Loaded])
  | last r hsuf hrest hrest' hloaded =>
    obtain rfl : r = rest := by simpa [hrest] using hr
    exact ⟨s', .refl s', h.toBeside, hrest', hloaded⟩

/-- An instruction before the last call is about to run in both bodies, unless it is gone. -/
theorem InStep.main_of_rest (h : m.InStep H org s s') (hr : s.rest = some (x :: rest))
    (hlast : ¬ x :: rest <:+ m.body.lastCall s.frame.block) :
    ∃ pre, x :: pre <:+ m.body.mainCode s.frame.block ∧
      rest = pre ++ m.body.lastCall s.frame.block ∧
      s'.rest = some ((x :: pre).filter (· ∉ H.dead) ++
        (H.extra s.frame.block ++ m.body.lastCall s.frame.block)) := by
  cases h.aligned with
  | entering hnone => simp [hnone] at hr
  | last r hsuf hrest =>
    obtain rfl : r = x :: rest := by simpa [hrest] using hr
    exact absurd hsuf hlast
  | main pre hpre hrest hrest' =>
    have heq : pre ++ m.body.lastCall s.frame.block = x :: rest := by simpa [hrest] using hr
    cases pre with
    | nil => exact absurd (by simp [← heq]) hlast
    | cons y pre =>
      obtain ⟨rfl, hrest⟩ : y = x ∧ pre ++ m.body.lastCall s.frame.block = rest := by
        simpa using heq
      exact ⟨pre, hpre, hrest.symm, hrest'⟩

section Op

variable (h : m.Beside H org s s') (hs : m.Surveyed H.graph org holds s)
  (hb : s.frame.block ∈ m.body.order) (hr : s.Next x rest)
  (ho : m.body.op? x = some op) {v : Option Value} {heap : Heap} {state : σ}

include hs hr in
theorem Surveyed.getElem?_rest :
    (m.body.block s.frame.block).insts[m.body.position s.frame.block (some (x :: rest))]? =
      some x :=
  Body.getElem?_position (hs.sound.located.rest _ hr)

include hs hb hr ho in
theorem not_isPhi_of_rest : op.isPhi = false := by
  have hsuf := hs.sound.located.rest _ hr
  exact H.checked.not_isPhi_of_mem_code hb (hsuf.subset (by simp)) ho

include hs hb hr in
theorem not_gone_of_rest : x ∉ H.gone := by
  intro hgone
  obtain ⟨inputs, hop, -⟩ := (H.described hgone).inputs
  cases not_isPhi_of_rest hs hb hr hop

include hs hb hr ho in
theorem useOk_of_rest : ∀ phi ∈ H.gone, phi ∈ op.operands →
    UseOk m.program m.body H.graph H.merges H.gone phi s.frame.block
      (m.body.position s.frame.block (some (x :: rest))) x op := fun phi hphi =>
  (H.apart.reducible phi hphi).use _ hb _ x op (hs.getElem?_rest hr) ho

include h hs hb hr ho in
theorem Beside.carries_operands (hx : x ∉ H.dead) :
    ∀ y ∈ op.operands, Carries H.ren s.frame.values s'.frame.values y := by
  intro y hy
  have hget := hs.getElem?_rest hr
  obtain ⟨op', ho', hcheck⟩ := H.checked.inst _ hb _ x hget
  obtain rfl := Option.mem_unique ho ho'
  refine h.related.carries_of hs.framed
    (H.reduced.users _ hb x (mem_of_getElem? hget) hx op ho y hy) ?_
  exact (reached_of_rest hr).2 (hcheck.operands (not_isPhi_of_rest hs hb hr ho) y hy)

theorem Surveyed.shape_of_exact {values' v k leaf} (hs : m.Surveyed H.graph org holds s)
    (hphi : phi ∈ H.gone) (h : m.Resolved H org s values' phi v k leaf) {cls}
    (hsh : (H.merges.desc phi).shapes = .exact cls) {o} (hv : v = .ref o) :
    ∃ obj, s.heap.get? o = some obj ∧ obj.shape = .inst cls := by
  have hleaf := mem_of_getElem? h.found
  cases leaf with
  | null => simp [h.null rfl] at hv
  | alloc n y =>
    obtain ⟨o', hv', horg, -⟩ := h.object n y rfl
    obtain rfl : o' = o := by simpa [hv] using hv'.symm
    obtain ⟨-, obj, hobj, hdesc, -⟩ := hs.sound.heap.created _ n horg
    rw [shapeOf_of_exact (H.apart.summarized phi hphi) hsh hleaf] at hdesc
    exact ⟨obj, hobj, hdesc.eq_inst⟩

include h hs hb hr ho in
theorem Beside.value_of_replaced {X}
    (hx : Reduction.Replaced m.program m.body H.merges H.gone H.splitter x X)
    (hd : m.Does host s x op v heap state) :
    ∃ w, v = some w ∧ heap = s.heap ∧ state = s.host ∧ s'.frame.values.get? X = some w := by
  have huse := useOk_of_rest hs hb hr ho
  have hconsts : ∀ e ∈ H.splitter.consts, s'.frame.values.get? e.2 = some e.1.toValue := by
    refine h.related.consts.resolve_left fun hstart => ?_
    simp [hr] at hstart
  obtain ⟨eff, he, rfl, rfl, rfl⟩ : ∃ eff, m.eval s.frame s.heap x op = .ok eff ∧
      v = (eff.apply m.program s.heap).1 ∧ heap = (eff.apply m.program s.heap).2 ∧
      state = s.host := by
    obtain ⟨op', ho', -, -, -, hcall⟩ := hx.exists_op
    obtain rfl := Option.mem_unique ho ho'
    cases hd with
    | plain hc he => exact ⟨_, he, rfl, rfl, rfl⟩
    | call => cases hcall
  cases hx with
  | field phi f hphi hop hX =>
    obtain rfl := Option.mem_unique ho hop
    obtain ⟨o, obj, c, idx, w, hv, hobj, hc, hidx, hw, rfl⟩ := eval_loadField.1 he
    obtain ⟨k, leaf, hres⟩ := h.related.merges phi hphi _ hv
    obtain ⟨w', hw', hfield⟩ := hres.field f X hX
    cases huse phi hphi (by simp [Op.operands]) with
    | load _ hall hclean =>
      have hf := hfield (here_of_rest hr ▸ hclean) o rfl
      obtain rfl := hf.unique ⟨obj, c, idx, hobj, hc, hidx, hw⟩
      exact ⟨w', rfl, rfl, rfl, hw'⟩
  | isNull phi lhs rhs hphi hop hmem hX =>
    obtain rfl := Option.mem_unique ho hop
    obtain ⟨a, c, ha, hc, rfl⟩ := eval_refEq he
    refine ⟨_, rfl, rfl, rfl, ?_⟩
    cases huse phi hphi (by simpa [Op.operands] using hmem) with
    | isNull _ _ other hor hne hnull =>
      rcases hor with ⟨rfl, rfl⟩ | ⟨rfl, rfl⟩
      · obtain rfl := hs.sound.consts _ _ _ hnull hc
        obtain ⟨k, leaf, hres⟩ := h.related.merges _ hphi _ ha
        simp [hres.part _ X hX (by simp), MergePart.value, Value.ofBool, Const.toValue]
      · obtain rfl := hs.sound.consts _ _ _ hnull ha
        obtain ⟨k, leaf, hres⟩ := h.related.merges _ hphi _ hc
        simp [hres.part _ X hX (by simp), MergePart.value, Value.ofBool, Const.toValue,
          eq_comm (a := Value.null)]
  | cls phi cls hphi hop hsh hX =>
    obtain rfl := Option.mem_unique ho hop
    obtain ⟨o, obj, c, hv, hobj, hc, rfl⟩ := eval_loadClass he
    obtain ⟨k, leaf, hres⟩ := h.related.merges phi hphi _ hv
    obtain ⟨obj', hobj', hshape⟩ := hs.shape_of_exact hphi hres hsh rfl
    obtain rfl := Option.mem_unique hobj hobj'
    obtain rfl : c = cls := by simpa [hc] using hshape
    exact ⟨_, rfl, rfl, rfl, hconsts _ hX⟩
  | instanceOf phi exact cls hphi hop hsh hX =>
    obtain rfl := Option.mem_unique ho hop
    obtain ⟨v, hv⟩ := get?_of_instanceOf he
    obtain ⟨k, leaf, hres⟩ := h.related.merges phi hphi _ hv
    obtain ⟨o, rfl⟩ : ∃ o, v = .ref o := by
      cases huse phi hphi (by simp [Op.operands]) with
      | instanceOf _ _ _ hnull =>
        cases leaf with
        | null => simp [MergeDesc.hasNull, mem_of_getElem? hres.found] at hnull
        | alloc n y =>
          obtain ⟨o, hv, -⟩ := hres.object n y rfl
          exact ⟨o, hv⟩
    obtain ⟨obj, hobj, hshape⟩ := hs.shape_of_exact hphi hres hsh rfl
    obtain rfl := eval_instanceOf he hv hobj hshape
    exact ⟨_, rfl, rfl, rfl, hconsts _ hX⟩

section Invoke

variable (hhost : host.Confined m.program holds) (hty : s.frame.RefsTyped m.body)
  {normal handler : BlockId} {c : Call} {args : List Value} {reply : Reply} {heap : Heap}
  {state : σ} (hterm : (m.body.block s.frame.block).term = .invoke x normal handler)
  (ha : c.args.mapM s.frame.get = .ok args)
  (hh : host.call m.program c.callee args s.heap s.host = .ok (reply, heap, state))

include hs hr hhost hty hterm ha hh in
/-- No leaf that flows out of a block with an invoke escapes, so the loads before the call are
still right behind it. -/
theorem Loaded.over_invoke (hx : m.body.op? x = some (.call c)) {values' values''}
    (hl : m.Loaded H (H.extra s.frame.block) s values')
    (hvalues : ∀ y ∈ H.extra s.frame.block, values''.get? y = values'.get? y)
    (hheap : t.heap = heap) (ht : ∀ y, y ≠ x → t.frame.values.get? y = s.frame.values.get? y) :
    m.Loaded H (H.extra s.frame.block) t values'' := by
  intro y hy z f hop
  obtain ⟨o, w, hv, hf, hw⟩ := hl y hy z f hop
  obtain ⟨⟨phi, hphi, n, hin, -⟩, -⟩ := H.leafLoad hy hop
  obtain ⟨⟨zop, hz, halloc⟩, hn, -, hleaf⟩ := H.leaf_input hphi hin
  obtain ⟨o', n', heq, hn', horg⟩ := hs.allocs z zop _ hz halloc hv
  cases heq
  obtain rfl : n = n' := by simpa [hn] using hn'
  have hesc : H.graph.escapeOf n = .none := by
    refine Classical.byContradiction fun hne => ?_
    exact (H.apart.reducible phi hphi).invoke
      (Surveyed.escaping_of_leaf hleaf (Escape.none_lt_iff.2 hne)) _ hin _ _ _ hterm
  refine ⟨o, w, (ht z ?_).trans hv, ?_, (hvalues y hy).trans hw⟩
  · rintro rfl
    obtain rfl := Option.mem_unique hz hx
    cases halloc
  · refine hf.congr ?_
    rw [hheap]
    exact hs.get?_of_call H.solved hr hx hhost hty rfl ha hh horg hesc

end Invoke

section Does

variable (hhost : host.Confined m.program holds) (hty : s.frame.RefsTyped m.body)
  (horg : ∀ o, s.heap.Live o → org' o = org o) (hd : m.Does host s x op v heap state)
include hs hr ho hhost hty horg hd

/-- A merge stays resolved over an instruction. -/
theorem Resolved.over {values' values'' w k leaf} (h : m.Resolved H org s values' phi w k leaf)
    (hw : s.frame.values.get? phi = some w)
    (hparts : ∀ part X w, ((phi, part), X) ∈ H.splitter.parts → values'.get? X = some w →
      values''.get? X = some w) :
    m.Resolved H org'
      (s.past x v rest heap state) values'' phi w k
      leaf := by
  have hsuf := hs.sound.located.rest _ hr
  have hget := hs.getElem?_rest hr
  -- the step moves the run by one position
  have hhere : ∀ hit, Clean m.body H.merges hit phi (m.here
      { frame := s.frame.setResult x v, rest := some rest, heap, host := state : RunState σ }) →
      Clean m.body H.merges hit phi (m.here s) ∧ hit x = false := by
    intro hit hc
    rw [here_of_rest rfl, Frame.block_setResult, Body.position_succ hsuf] at hc
    have hlead := h.leads
    rw [here_of_rest hr] at hlead ⊢
    exact ⟨hc.of_succ, hc.not_hit hlead hget⟩
  refine h.move ?_ ?_ (fun hit hc => (hhere hit hc).1) ?_ hparts ?_
  · have hlead := h.leads
    rw [here_of_rest hr] at hlead
    rw [here_of_rest rfl, Frame.block_setResult]
    exact hlead
  · rintro o rfl
    exact horg o (hs.sound.frame phi o hw).1
  · rintro n y rfl hc
    have hne : y ≠ x := by
      rintro rfl
      have hhit := (hhere _ hc).2
      have hmem : .alloc n y ∈ (H.merges.desc phi).leaves := mem_of_getElem? h.found
      simp only [reallocOf, decide_eq_false_iff_not, mem_eraseDups, mem_map] at hhit
      exact hhit ⟨(n, y), mem_filterMap.2 ⟨_, hmem, rfl⟩, rfl⟩
    exact (hs.framed.get?_setResult H.wf ho v y).trans (if_neg hne)
  · rintro o n y f w rfl ho' hc hf
    exact hs.hasField_of_does H.solved hr ho ho' (mem_of_getElem? h.found) (hhere _ hc).2 hhost
      hty hd hf

include hb in
theorem Related.over {values' values''} (h : m.Related H org s values')
    (hagree : ∀ y op, m.body.op? y = some op → y ∉ H.dead →
      values''.get? y = (s.frame.setResult x v).values.get? y) (hnames : ∀ X w, H.splitter.Names X →
      values'.get? X = some w → values''.get? X = some w)
    (hdead : x ∈ H.dead → Carries H.ren (s.frame.setResult x v).values values'' x) :
    m.Related H org'
      (s.past x v rest heap state) values'' where
  agree := hagree
  carries u hu hgone hr' := by
    by_cases hux : u = x
    · exact hux ▸ hdead (hux ▸ hu)
    rw [reached_of_rest rfl, Frame.block_setResult,
      Body.position_succ (hs.sound.located.rest _ hr)] at hr'
    have hr' := (Body.Available.of_succ hr').resolve_right fun hx => by
      rw [hs.getElem?_rest hr, Option.some.injEq] at hx
      exact hux hx.symm
    intro w hw
    have hw' := (hs.framed.get?_setResult H.wf ho v u).symm.trans hw
    rw [if_neg hux] at hw'
    exact hnames _ _ ((H.reduced.why u hu).resolve_left hgone).names
      (h.carries u hu hgone ((reached_of_rest hr).2 hr') w hw')
  merges phi hphi w hw := by
    have hne : phi ≠ x := fun h => not_gone_of_rest hs hb hr (h ▸ hphi)
    have hw' := (hs.framed.get?_setResult H.wf ho v phi).symm.trans hw
    rw [if_neg hne] at hw'
    obtain ⟨k, leaf, hres⟩ := h.merges phi hphi w hw'
    exact ⟨k, leaf, hres.over hs hr ho hhost hty horg hd hw'
      fun part X w hX => hnames X w (.inl ⟨_, hX⟩)⟩
  consts := .inr fun e he => by
    rcases h.consts with hstart | hc
    · simp [hr] at hstart
    · exact hnames _ _ (.inr ⟨_, he⟩) (hc e he)

include h hb in
theorem Beside.op_kept (hx : x ∉ H.dead) (hl : m.leavesAt? op = none) {rest'}
    (hr' : s'.Next x rest') :
    (m.split H).Step host s'
      (s'.past x v rest' heap state) ∧
    m.Beside H org' (s.past x v rest heap state)
      (s'.past x v rest' heap state) := by
  have hmem := mem_of_getElem? (hs.getElem?_rest hr)
  have ho' := H.reduced.op_old _ hb x hmem hx op ho
  have hget := fun y => hs.framed.get?_setResult H.wf ho v y
  have hget' := fun y => h.framed.get?_setResult H.reduced.wf ho' v y
  have hstep : (m.split H).Step host s'
      { frame := s'.frame.setResult x v, rest := some rest', heap, host := state } := by
    exact .op hr' ho' ((leavesAt?_split op).trans hl)
      (Does.rename (h.carries_operands hs hb hr ho hx) h.exception h.heap h.host hd)
  refine ⟨hstep, ?_, h.framed.step hstep, ?_, ?_, ?_, rfl, rfl⟩
  · refine h.related.over hs hb hr ho hhost hty horg hd (fun y op' hy hnd => ?_)
      (fun X w hX hw => ?_) fun hdead => absurd hdead hx
    · rw [hget y, hget' y, h.related.agree y op' hy hnd]
    · exact (hget' X).trans ((if_neg (H.ne_of_names hX ho)).trans hw)
  · simpa using h.block
  · simpa using h.pred
  · simpa using h.exception

include h hb in
theorem Beside.op_gone (hx : x ∈ H.dead) : m.Beside H org' (s.past x v rest heap state) s' := by
  obtain ⟨w, rfl, rfl, rfl, hw⟩ := h.value_of_replaced hs hb hr ho
    ((H.reduced.why x hx).resolve_left (not_gone_of_rest hs hb hr)) hd
  have hget := fun y => hs.framed.get?_setResult H.wf ho (some w) y
  refine ⟨h.related.over hs hb hr ho hhost hty horg hd (fun y op' hy hnd => ?_)
    (fun _ _ _ hw => hw) fun _ w' hw' => ?_, h.framed, h.block, h.pred, h.exception, h.heap, h.host⟩
  · have hne : y ≠ x := fun heq => hnd (heq ▸ hx)
    rw [h.related.agree y op' hy hnd, hget y, if_neg hne]
  · rw [hget x, if_pos rfl] at hw'
    obtain rfl : w = w' := by simpa using hw'
    exact hw

include hb in
/-- Every instruction of the original is met by the new body. -/
theorem InStep.over (h : m.InStep H org s s') (hl : m.leavesAt? op = none) :
    ∃ t', (m.split H).Steps host s' t' ∧ m.InStep H org'
      (s.past x v rest heap state) t' := by
  by_cases hlast : x :: rest <:+ m.body.lastCall s.frame.block
  · -- the call that ends the block
    obtain ⟨s'', hsteps, hbeside, hr'', hloaded⟩ := h.arrive hs hb host hr hlast
    obtain ⟨rfl, normal, handler, hterm⟩ := Body.term_of_suffix_lastCall hlast
    obtain ⟨⟨c, hc⟩, -⟩ := H.checked.invoke _ hb x normal handler hterm
    obtain rfl := Option.mem_unique ho hc
    have hx := H.not_dead_of_call ho rfl
    obtain ⟨hstep, hbeside'⟩ := hbeside.op_kept hs hb hr ho hhost hty horg hd hx hl hr''
    refine ⟨_, hsteps.tail hstep, hbeside', .last [] (by simp) rfl rfl ?_⟩
    have hmem := mem_of_getElem? (hs.getElem?_rest hr)
    have ho' := H.reduced.op_old _ hb x hmem hx _ ho
    cases hd with
    | call ha hh =>
      rw [Frame.block_setResult]
      refine hloaded.over_invoke hs hr hhost hty hterm ha hh ho (fun y hy => ?_) rfl fun y hy => ?_
      · refine (hbeside.framed.get?_setResult H.reduced.wf ho' v y).trans (if_neg ?_)
        rintro rfl
        obtain ⟨inst, hinst⟩ := Body.live_of_op? ho
        simp [(H.reduced.built.loads _ y hy).1] at hinst
      · exact (hs.framed.get?_setResult H.wf ho v y).trans (if_neg hy)
    | plain hcall => cases hcall
  · obtain ⟨pre, hpre, rfl, hrest'⟩ := h.main_of_rest hr hlast
    have hpre' := (suffix_cons x pre).trans hpre
    by_cases hx : x ∈ H.dead
    · refine ⟨s', .refl s', h.toBeside.op_gone hs hb hr ho hhost hty horg hd hx, ?_⟩
      refine .main pre (by simpa using hpre') (by simp) ?_
      simpa [hx] using hrest'
    · have hr' : s'.rest = some (x :: (pre.filter (· ∉ H.dead) ++
          (H.extra s.frame.block ++ m.body.lastCall s.frame.block))) := by
        simpa [hx] using hrest'
      obtain ⟨hstep, hbeside⟩ := h.toBeside.op_kept hs hb hr ho hhost hty horg hd hx hl hr'
      exact ⟨_, .single hstep, hbeside, .main pre (by simpa using hpre') (by simp) (by simp)⟩

end Does

end Op

section Leave

variable (hs : m.Surveyed H.graph org holds s) (hr : s.rest = some rest)
  (horg : ∀ o, s.heap.Live o → org' o = org o)

include hs hr horg in
theorem Related.leave {values'} (h : m.Related H org s values') (hrest : t.rest = none)
    (hpred : t.frame.pred = some s.frame.block) (hvalues : t.frame.values = s.frame.values)
    (hreach : ∀ u ∈ H.dead, m.body.Available u s.frame.block
      (m.body.block s.frame.block).insts.length → m.Reached s u)
    (hfield : ∀ phi ∈ H.gone, m.body.flow.Leads (H.merges.desc phi).block s.frame.block →
      ∀ o n x f w, .alloc n x ∈ (H.merges.desc phi).leaves → org o = some n →
      Clean m.body H.merges (clobberOf m.program m.body H.graph (H.merges.desc phi) f) phi
        (.atEnd s.frame.block) →
      s.heap.HasField m.program o f w → t.heap.HasField m.program o f w) :
    m.Related H org' t values' := by
  have hhere : m.here t = .atEnd s.frame.block := by simp [here, hrest, hpred]
  refine ⟨fun x op hop hd => hvalues ▸ h.agree x op hop hd, fun u hu hgone hru => ?_,
    fun phi hphi v hv => ?_, .inr (h.consts.resolve_left fun hstart => by simp [hr] at hstart)⟩
  · rw [hvalues]
    exact h.carries u hu hgone (hreach u hu ((reached_of_pred hrest hpred).1 hru))
  · rw [hvalues] at hv
    obtain ⟨k, leaf, hres⟩ := h.merges phi hphi v hv
    have hlead := hres.leads
    rw [here_of_rest hr] at hlead
    refine ⟨k, leaf, hres.move (hhere ▸ hlead) ?_ ?_ ?_ (fun _ _ _ _ hw => hw) ?_⟩
    · rintro o rfl
      exact horg o (hs.sound.frame phi o hv).1
    · intro hit hc
      rw [hhere] at hc
      rw [here_of_rest hr]
      exact hc.of_atEnd
    · exact fun _ _ _ _ => by rw [hvalues]
    · rintro o n x f w rfl ho hc hf
      exact hfield phi hphi hlead o n x f w (mem_of_getElem? hres.found) ho (hhere ▸ hc) hf

end Leave

theorem Beside.carries_term (h : m.Beside H org s s') (hs : m.Surveyed H.graph org holds s)
    (hb : s.frame.block ∈ m.body.order) (hr : s.rest = some [])
    (hx : (m.body.block s.frame.block).term.operand? = some x) :
    Carries H.ren s.frame.values s'.frame.values x := by
  refine h.related.carries_of hs.framed (fun hgone => ?_) ?_
  · exact (H.apart.reducible x hgone).term _ hx
  · rw [reached_of_rest hr, Body.position_nil]
    exact H.checked.term _ hb x hx

theorem Takes.rename {values values' ren term} (h : Takes values term b)
    (hv : ∀ x, term.operand? = some x → Carries ren values values' x) :
    Takes values' (term.mapOperand ren) b := by
  cases h with
  | jump b => exact .jump b
  | branch hc => exact .branch (hv _ rfl _ hc)
  | invoke call _ handler => exact .invoke call _ handler

section

variable (h : m.InStep H org s s') (hs : m.Surveyed H.graph org holds s)
include h hs

theorem InStep.goTo (hr : s.rest = some []) (horg : ∀ o, s.heap.Live o → org' o = org o)
    (hb : Takes s.frame.values (m.body.block s.frame.block).term b) :
    ∃ t', (m.split H).Steps host s' t' ∧
      m.InStep H org' { s with frame := s.frame.jump b, rest := none } t' := by
  have hblock := hs.sound.located.mem_order_of_targets hb.mem_targets
  obtain ⟨s'', hsteps, hbeside, hr'', hloaded⟩ := h.arrive hs hblock host hr (by simp)
  have hterm : ((m.split H).body.block s''.frame.block).term =
      (m.body.block s.frame.block).term.mapOperand H.ren := by
    rw [hbeside.block]
    exact H.reduced.term _ hblock
  have hstep : (m.split H).Step host s'' { s'' with frame := s''.frame.jump b, rest := none } :=
    .goTo hr'' (hterm ▸ hb.rename fun x hx => hbeside.carries_term hs hblock hr hx)
  refine ⟨_, hsteps.tail hstep, ⟨?_, hbeside.framed.step hstep, rfl, ?_,
    hbeside.exception, hbeside.heap, hbeside.host⟩, .entering rfl rfl ?_ ?_⟩
  · refine hbeside.related.leave hs hr horg rfl rfl rfl (fun u _ hu => ?_)
      fun _ _ _ _ _ _ _ _ _ _ _ hf => hf
    rwa [reached_of_rest hr, Body.position_nil]
  · exact congrArg some hbeside.block
  · rintro p hp
    obtain rfl : s.frame.block = p := by simpa [Frame.jump] using hp
    exact hloaded
  · simp [Frame.jump]

theorem InStep.caught (hr : s.Next x rest) (ho : m.body.op? x = some op)
    (hl : m.leavesAt? op = none) (hhost : host.Confined m.program holds)
    (hty : s.frame.RefsTyped m.body) (horg : ∀ o, s.heap.Live o → org' o = org o) {th heap state}
    (ht : m.Throws host s x op th heap state) {normal handler}
    (hterm : (m.body.block s.frame.block).term = .invoke x normal handler) :
    ∃ t', (m.split H).Steps host s' t' ∧ m.InStep H org'
      { frame := { s.frame with exception := some th }.jump handler, rest := none, heap,
        host := state } t' := by
  obtain ⟨hb, hmem⟩ := hs.sound.located.mem_insts hr
  obtain rfl := rest_eq_nil_of_invoke H.checked hs.sound.located hr hterm
  obtain ⟨⟨c, hc⟩, -⟩ := H.checked.invoke _ hb x normal handler hterm
  obtain rfl := Option.mem_unique ho hc
  have hx := H.not_dead_of_call ho rfl
  have hpos := Body.position_succ (hs.sound.located.rest _ hr)
  rw [Body.position_nil] at hpos
  obtain ⟨s'', hsteps, hbeside, hr'', hloaded⟩ :=
    h.arrive hs hb host hr (by simp [Body.lastCall, hterm])
  have hterm' : ((m.split H).body.block s''.frame.block).term = .invoke x normal handler := by
    rw [hbeside.block]
    exact (H.reduced.term _ hb).trans (by rw [hterm]; rfl)
  have hstep : (m.split H).Step host s''
      { frame := { s''.frame with exception := some th }.jump handler, rest := none, heap,
        host := state } := by
    exact .caught hr'' (H.reduced.op_old _ hb x hmem hx _ ho) ((leavesAt?_split _).trans hl)
      (Throws.rename (hbeside.carries_operands hs hb hr ho hx) hbeside.exception hbeside.heap
        hbeside.host ht) hterm'
  refine ⟨_, hsteps.tail hstep, ⟨?related, hbeside.framed.step hstep, rfl, ?pred, rfl,
    rfl, rfl⟩, .entering rfl rfl ?loaded (by simp [Frame.jump])⟩
  case related =>
    refine hbeside.related.leave hs hr horg rfl rfl rfl (fun u hu hav => ?_) ?_
    · rw [hpos] at hav
      refine (reached_of_rest hr).2 (hav.of_succ.resolve_right fun hux => hx ?_)
      rw [hs.getElem?_rest hr, Option.some.injEq] at hux
      exact hux ▸ hu
    · intro phi hphi hlead o n y f w hleaf ho' hclean hf
      refine hs.hasField_of_throws H.solved hr ho ho' hleaf ?_ hhost hty ht hf
      exact hclean.of_atEnd.not_hit hlead (hs.getElem?_rest hr)
  case pred => exact congrArg some hbeside.block
  case loaded =>
    rintro p hp
    obtain rfl : s.frame.block = p := by simpa [Frame.jump] using hp
    cases ht with
    | call ha hh =>
      exact hloaded.over_invoke hs hr hhost hty hterm ha hh ho (fun _ _ => rfl) rfl fun _ _ => rfl
    | plain hcall => cases hcall

end

end Machine

end EscapeAnalysis
