import EscapeAnalysis.Proofs.Reductions
import EscapeAnalysis.Scalar.Commit

/-!
# The code that a plan adds

Carrying out a plan adds instructions and leaves the others alone, until operands are renamed in the
end: the new body extends the old one (`Body.Extends`). Each new instruction is the one for a value
of the plan (`Plan.Makes`), while they are added one after the other (`Plan.Emits`) and when all are
there (`Plan.emits_commit`). None of them has to do with the outside of the method.
-/

namespace EscapeAnalysis

open List Function

namespace Body

variable {body body' body'' : Body}

/-- `body'` has the instructions of `body`, reuses none of its retired keys, and shows the same
outline and inventory. -/
structure Extends (body body' : Body) : Prop where
  wf : body'.WellFormed
  old : ∀ x inst, body.insts.get? x = some inst → body'.insts.get? x = some inst
  retired : ∀ x, body.insts.Retired x → body'.insts.Retired x
  alike : body.Alike body'

namespace Extends

theorem of_alike (hwf : body'.WellFormed) (h : body'.insts = body.insts) (ha : body.Alike body') :
    body.Extends body' :=
  ⟨hwf, fun _ _ hx => h ▸ hx, fun _ hx => h ▸ hx, ha⟩

theorem refl (hwf : body.WellFormed) : body.Extends body := of_alike hwf rfl (.refl body)

theorem trans (h : body.Extends body') (h' : body'.Extends body'') : body.Extends body'' :=
  ⟨h'.wf, fun x inst hx => h'.old x inst (h.old x inst hx),
    fun x hx => h'.retired x (h.retired x hx), h.alike.trans h'.alike⟩

/-- A new instruction that has nothing to do with the outside and allocates nothing can be placed
anywhere. -/
theorem addPlaced (hwf : body.WellFormed) {op} (hop : op.Tacit) (ty : Option Ty) (b : BlockId)
    (idx : Nat) :
    body.Extends ((body.addInst op ty).2.place (body.addInst op ty).1 b idx) where
  wf := (hwf.addInst op ty).modifyBlock _ b
  old x inst hx := by
    refine (get?_addInst op ty hwf x).trans ?_
    rw [if_neg, hx]
    rintro rfl
    simp [get?_addInst_fst op ty hwf] at hx
  retired x hx := hx.insert hwf.insts _
  alike :=
    { outline := outline_addPlaced hwf hop.outward ty b idx
      inventory := inventory_addPlaced hwf hop.isAlloc ty b idx
      departed := fun x hx => ⟨hx.retired.insert hwf.insts _, fun d hmem => by
        rcases mem_insts_place hmem with rfl | hmem
        · exact SlotTable.not_spent_insert_fst hwf.insts _ hx.retired.spent
        · exact hx.code d hmem⟩ }

theorem modifyState (h : body.Extends body') (s : SafepointId) {g}
    (hg : ∀ st, (g st).sizes = st.sizes) : body.Extends (body'.modifyState s g) :=
  h.trans (of_alike ⟨h.wf.blocks, h.wf.insts, h.wf.states.modify s g, h.wf.entry⟩ rfl
    (.of_eq (outline_modifyState fun st _ => hg st) rfl rfl))

theorem op? (h : body.Extends body') {x op} (hx : body.op? x = some op) :
    body'.op? x = some op := by
  obtain ⟨inst, hinst, hop⟩ := op?_eq_some_iff.1 hx
  exact op?_eq_some_iff.2 ⟨inst, h.old x inst hinst, hop⟩

end Extends

theorem retired_removeInsts {dead x inst} (hx : body.insts.get? x = some inst) (hd : x ∈ dead) :
    (body.removeInsts dead).insts.Retired x :=
  SlotTable.retired_filter (p := fun x _ => x ∉ dead ++ body.barriersOf dead) hx (by simp [hd])

end Body

namespace Splitter

variable {p : Program} {m : Merges} {replaced : Nat → Bool} {α β : Type}

/-- Whatever is made is made of new instructions. -/
def Adds {α : Type} (make : StateM Splitter α) : Prop :=
  ∀ s : Splitter, s.body.WellFormed → s.body.Extends (make s).2.body

theorem adds_pure (a : α) : Adds (pure a : StateM Splitter α) :=
  fun _ hwf => .refl hwf

theorem Adds.bind {make} {next : α → StateM Splitter β} (h : Adds make) (hn : ∀ a, Adds (next a)) :
    Adds (make >>= next) :=
  fun s hwf => (h s hwf).trans (hn _ _ (h s hwf).wf)

theorem adds_mapM {make : α → StateM Splitter β} (h : ∀ a, Adds (make a)) :
    ∀ l : List α, Adds (l.mapM make)
  | [] => adds_pure []
  | a :: l => by
    rw [mapM_cons]
    exact (h a).bind fun _ => (adds_mapM h l).bind fun _ => adds_pure _

theorem adds_constant (c : Const) : Adds (constant c) := by
  intro s hwf
  rw [constant]
  split
  · exact .refl hwf
  · exact .addPlaced hwf ⟨rfl, rfl⟩ _ _ _

theorem adds_ofSource (p : Program) (b : BlockId) (src : MergePart.Source) :
    Adds (ofSource p b src) := by
  cases src with
  | const c => exact adds_constant c
  | inst x => exact adds_pure x
  | load obj f => exact fun s hwf => .addPlaced hwf ⟨rfl, rfl⟩ _ _ _

theorem adds_addPart (p : Program) (phi : InstId) (b : BlockId) (part : MergePart)
    (inputs : List (BlockId × InstId)) : Adds (addPart p phi b part inputs) :=
  fun _ hwf => .addPlaced hwf ⟨rfl, rfl⟩ _ _ _

theorem adds_part : ∀ (l : List InstId) (part : MergePart) (phi : InstId),
    Adds (Splitter.part p m replaced l part phi) := by
  intro l
  induction l with
  | nil => exact fun _ phi => adds_pure phi
  | cons q nested ih =>
    intro part phi s hwf
    by_cases hq : q = phi
    · subst hq
      rw [part_self]
      split
      · exact .refl hwf
      · have hfeed : ∀ e,
            Adds (feedInput p replaced (Splitter.part p m replaced nested) part e) := by
          rintro ⟨b, i, k⟩
          cases i with
          | phi child => exact (ih _ _).bind fun _ => adds_pure _
          | _ => exact (adds_ofSource p b _).bind fun _ => adds_pure _
        exact ((adds_mapM hfeed _).bind fun _ => adds_addPart _ _ _ _ _) s hwf
    · rw [Splitter.part, if_neg hq]
      exact ih part phi s hwf

end Splitter

namespace Reduction

theorem extends_replaceInStates (p : Program) (a : MergeAnalysis) (replaced : Nat → Bool)
    (web : Web) (phi : InstId) {r : Reduction} (hwf : r.splitter.body.WellFormed)
    (states : List SafepointId) : r.splitter.body.Extends
      (replaceInStates p a replaced web phi states r).splitter.body := by
  rw [replaceInStates]
  split
  · exact .refl hwf
  have hmake : Splitter.Adds (debugValue p a replaced web phi) :=
    (Splitter.adds_part _ _ _).bind fun _ =>
      (Splitter.adds_part _ _ _).bind fun _ => Splitter.adds_pure _
  have hmade := hmake r.splitter hwf
  dsimp only [StateT.run]
  generalize debugValue p a replaced web phi r.splitter = made at hmade ⊢
  obtain ⟨v, s⟩ := made
  dsimp only
  refine foldlRecOn (motive := r.splitter.body.Extends) _ _ hmade fun body' hbody sp _ => ?_
  exact hbody.modifyState sp fun st => st.sizes_mapTop _

end Reduction

namespace Body

variable {body : Body} {x y : InstId} {b d : BlockId} {idx : Nat}

theorem term_block_place (body : Body) (x : InstId) (b d : BlockId) (idx : Nat) :
    ((body.place x b idx).block d).term = (body.block d).term := by
  simp only [place, modifyBlock, Body.block, SlotTable.get?_modify]
  split
  · rcases body.blocks.get? d with _ | block <;> rfl
  · rfl

end Body

namespace Plan

section Definitions

variable (plan : Plan) (made : InstId → Option Scalar)

/-- `y` is the instruction of value `v`, if `made` says which values the new instructions are. A phi
that nothing needs has none. -/
def Gives (v : Scalar) (y : InstId) : Prop :=
  match plan.canon v with
  | .inst x => y = x
  | .phi i => y = .null ∨ made y = some (.phi i)
  | v => made y = some v

/-- `op` is the operation of a temporary. -/
def GivesTemp : TempOp → Op → Prop
  | .narrow ty v, op => ∃ y, op = .unary (.narrow ty) y ∧ plan.Gives made v y
  | .binary o lhs rhs, op => ∃ y z, op = .binary o y z ∧ plan.Gives made lhs y ∧
    plan.Gives made rhs z
  | .loadElem array index, op => ∃ y z, op = .loadElem y z ∧ plan.Gives made array y ∧
    plan.Gives made index z
  | .storeElem array index value, op => ∃ y z w, op = .storeElem y z w ∧
    plan.Gives made array y ∧ plan.Gives made index z ∧ plan.Gives made value w
  | .barrier store, op => ∃ y, op = .barrier y ∧ plan.Gives made (.temp store) y

/-- `inst` computes a value that the plan makes. -/
def Makes : Scalar → Inst → Prop
  | .inst _, _ => False
  | .const k, inst => inst.op = .const k
  | .phi i, inst => ∃ inputs, inst.op = .phi inputs ∧ ∀ e ∈ inputs, ∃ v,
    (e.1, v) ∈ (plan.phi i).inputs ∧ plan.Gives made v e.2
  | .temp i, inst => ∃ t, plan.temps[i]? = some t ∧ inst.ty = t.ty ∧
    plan.GivesTemp made t.op inst.op

/-- `body'` is `body` with new instructions, each for the value that `made` says, among them those
of the emission. -/
structure Emits (body : Body) (e : Emission) (body' : Body) : Prop where
  wf : body'.WellFormed
  kept : ∀ x, made x = none → body'.insts.get? x = body.insts.get? x
  fresh : ∀ x v, made x = some v → body.insts.get? x = none
  makes : ∀ x v, made x = some v → ∃ inst, body'.insts.get? x = some inst ∧ plan.Makes made v inst
  code : ∀ b, ∀ x ∈ (body'.block b).insts, x ∈ (body.block b).insts ∨ ∃ v, made x = some v
  term : ∀ b, (body'.block b).term = (body.block b).term
  states : body'.states = body.states
  alike : body.Alike body'
  consts : ∀ k x, (k, x) ∈ e.consts → made x = some (.const k)
  phis : ∀ (i : Nat) x, e.phis[i]? = some x → x = .null ∨ made x = some (.phi i)
  temps : ∀ (i : Nat) x, e.temps[i]? = some x → made x = some (.temp i)

end Definitions

variable {plan : Plan} {made made' : InstId → Option Scalar} {body body' : Body} {e : Emission}
  {v : Scalar} {x y : InstId}

/-! ## More instructions -/

section Mono

variable (hle : ∀ x v, made x = some v → made' x = some v)
include hle

theorem Gives.mono (h : plan.Gives made v y) : plan.Gives made' v y := by
  unfold Gives at h ⊢
  split at h
  · exact h
  · exact h.imp_right (hle _ _)
  · exact hle _ _ h

theorem GivesTemp.mono {t op} (h : plan.GivesTemp made t op) : plan.GivesTemp made' t op := by
  cases t with
  | narrow | barrier =>
    obtain ⟨y, hop, hy⟩ := h
    exact ⟨y, hop, hy.mono hle⟩
  | binary | loadElem =>
    obtain ⟨y, z, hop, hy, hz⟩ := h
    exact ⟨y, z, hop, hy.mono hle, hz.mono hle⟩
  | storeElem =>
    obtain ⟨y, z, w, hop, hy, hz, hw⟩ := h
    exact ⟨y, z, w, hop, hy.mono hle, hz.mono hle, hw.mono hle⟩

theorem Makes.mono {inst} (h : plan.Makes made v inst) : plan.Makes made' v inst := by
  cases v with
  | inst x => exact h.elim
  | const k => exact h
  | phi i =>
    obtain ⟨inputs, hop, hin⟩ := h
    exact ⟨inputs, hop, fun e he => (hin e he).imp fun v hv => ⟨hv.1, hv.2.mono hle⟩⟩
  | temp i =>
    obtain ⟨t, ht, hty, hop⟩ := h
    exact ⟨t, ht, hty, hop.mono hle⟩

end Mono

theorem GivesTemp.tacit {t op} (h : plan.GivesTemp made t op) : op.Tacit := by
  cases t with
  | narrow | barrier =>
    obtain ⟨_, rfl, -⟩ := h
    exact ⟨rfl, rfl⟩
  | binary | loadElem =>
    obtain ⟨_, _, rfl, -⟩ := h
    exact ⟨rfl, rfl⟩
  | storeElem =>
    obtain ⟨_, _, _, rfl, -⟩ := h
    exact ⟨rfl, rfl⟩

theorem Makes.tacit {op ty} (h : plan.Makes made v { op, ty }) : op.Tacit := by
  cases v with
  | inst x => exact h.elim
  | const k =>
    obtain rfl : op = .const k := h
    exact ⟨rfl, rfl⟩
  | phi i =>
    obtain ⟨_, rfl, -⟩ := h
    exact ⟨rfl, rfl⟩
  | temp i =>
    obtain ⟨_, _, _, hop⟩ := h
    exact hop.tacit

namespace Emits

theorem refl (plan : Plan) (hwf : body.WellFormed) {phis}
    (hphis : ∀ (i : Nat) x, phis[i]? = some x → x = .null) :
    plan.Emits (fun _ => none) body { phis } body :=
  ⟨hwf, fun _ _ => rfl, nofun, nofun, fun _ _ hx => .inl hx, fun _ => rfl, rfl, .refl body, nofun,
    fun i x hx => .inl (hphis i x hx), fun i x hx => by simp at hx⟩

theorem insert (h : plan.Emits made body e body') (op : Op) (ty : Option Ty)
    (hv : plan.Makes made v { op, ty }) (b : BlockId) (idx : Nat) :
    (∀ y w, made y = some w →
      Function.update made (body'.addInst op ty).1 (some v) y = some w) ∧
    plan.Emits (Function.update made (body'.addInst op ty).1 (some v)) body e
      ((body'.addInst op ty).2.place (body'.addInst op ty).1 b idx) := by
  have hfresh := Body.get?_addInst_fst op ty h.wf
  have hget := Body.get?_addInst op ty h.wf
  generalize hX : (body'.addInst op ty).1 = X at hfresh hget ⊢
  have hmade : made X = none := by
    rcases hm : made X with _ | w
    · rfl
    · obtain ⟨inst, hinst, -⟩ := h.makes X w hm
      rw [hfresh] at hinst
      cases hinst
  have hle : ∀ y w, made y = some w → Function.update made X (some v) y = some w := by
    intro y w hy
    rw [update_of_ne, hy]
    rintro rfl
    rw [hmade] at hy
    cases hy
  refine ⟨hle, (h.wf.addInst op ty).modifyBlock _ b, fun y hy => ?_, fun y w hy => ?_,
    fun y w hy => ?_, fun d y hy => ?_, fun d => ?_, h.states,
    hX ▸ h.alike.trans (Body.Extends.addPlaced h.wf hv.tacit ty b idx).alike,
    fun k y hy => hle _ _ (h.consts k y hy),
    fun i y hy => (h.phis i y hy).imp_right (hle _ _), fun i y hy => hle _ _ (h.temps i y hy)⟩
  · have hne : y ≠ X := by
      rintro rfl
      rw [update_self] at hy
      cases hy
    rw [update_of_ne hne] at hy
    exact (hget y).trans ((if_neg hne).trans (h.kept y hy))
  · by_cases hne : y = X
    · rw [hne, ← h.kept X hmade, hfresh]
    · rw [update_of_ne hne] at hy
      exact h.fresh y w hy
  · by_cases hne : y = X
    · rw [hne, update_self] at hy
      cases hy
      exact ⟨{ op, ty }, (hget y).trans (if_pos hne), hv.mono hle⟩
    · rw [update_of_ne hne] at hy
      obtain ⟨inst, hinst, hm⟩ := h.makes y w hy
      exact ⟨inst, (hget y).trans ((if_neg hne).trans hinst), hm.mono hle⟩
  · rcases Body.mem_insts_place hy with rfl | hy
    · exact .inr ⟨v, update_self ..⟩
    · exact (h.code d y hy).imp_right fun ⟨w, hw⟩ => ⟨w, hle y w hw⟩
  · exact (Body.term_block_place _ _ _ _ _).trans (h.term d)

theorem setPhi (h : plan.Emits made body e body') {i} (hx : x = .null ∨ made x = some (.phi i))
    {inputs} (hin : ∀ e ∈ inputs, ∃ v, (e.1, v) ∈ (plan.phi i).inputs ∧ plan.Gives made v e.2) :
    plan.Emits made body e (body'.setOp x (.phi inputs)) := by
  have hget : ∀ y, (body'.setOp x (.phi inputs)).insts.get? y = if y = x then
      (body'.insts.get? y).map ({ · with op := .phi inputs }) else body'.insts.get? y :=
    fun y => SlotTable.get?_modify ..
  have hquiet : body'.outward? x = none ∧ body'.allocates x = false := by
    rcases hop : body'.op? x with _ | op
    · simp [Body.outward?, Body.allocates, hop]
    · rw [Body.outward?_of_op? hop, Body.allocates_of_op? hop]
      obtain ⟨inst, hinst, rfl⟩ := Body.op?_eq_some_iff.1 hop
      rcases hx with rfl | hx
      · exact absurd rfl (h.wf.insts.ne_null hinst)
      · obtain ⟨inst', hinst', inputs, hphi, -⟩ := h.makes x _ hx
        cases Option.mem_unique hinst hinst'
        rw [hphi]
        exact ⟨rfl, rfl⟩
  refine ⟨⟨h.wf.blocks, h.wf.insts.modify x _, h.wf.states, h.wf.entry⟩, fun y hy => ?_, h.fresh,
    fun y w hy => ?_, h.code, h.term, h.states, h.alike.trans (.setOp hquiet.1 hquiet.2 ⟨rfl, rfl⟩),
    h.consts, h.phis, h.temps⟩
  · rw [hget, ← h.kept y hy]
    split
    · rename_i heq
      rcases hinst : body'.insts.get? y with _ | inst
      · rfl
      · rcases hx with rfl | hx
        · exact absurd heq (h.wf.insts.ne_null hinst)
        · rw [heq, hx] at hy
          cases hy
    · rfl
  · obtain ⟨inst, hinst, hm⟩ := h.makes y w hy
    rw [hget, hinst]
    split
    · rename_i heq
      rcases hx with rfl | hx
      · exact absurd heq (h.wf.insts.ne_null hinst)
      · rw [heq, hx] at hy
        cases hy
        exact ⟨_, rfl, inputs, rfl, hin⟩
    · exact ⟨inst, rfl, hm⟩

/-! ## Instructions of values -/

variable (h : plan.Emits made body e body')
  (hconsts : ∀ k ∈ plan.constants, (e.consts.lookup k).isSome)
include h hconsts

theorem gives_inst (hv : ∀ k, plan.canon v = .const k → k ∈ plan.constants) :
    Except.Meets (fun _ => True) (plan.Gives made v) (plan.inst e v) := by
  rcases hcanon : plan.canon v with x | i | k | i
  · have hx : plan.inst e v = .ok x := by rw [inst, hcanon]
    rw [hx, Except.Meets, Gives, hcanon]
  · have hx : plan.inst e v = .ok (e.phis.getD i .null) := by rw [inst, hcanon]
    rw [hx, Except.Meets, Gives, hcanon, Array.getD_eq_getD_getElem?]
    rcases hx : e.phis[i]? with _ | x
    · exact .inl rfl
    · exact h.phis i x hx
  · obtain ⟨x, hlook⟩ := Option.isSome_iff_exists.1 (hconsts k (hv k hcanon))
    have hx : plan.inst e v = .ok x := by simp [inst, hcanon, hlook]
    rw [hx, Except.Meets, Gives, hcanon]
    exact h.consts k x (mem_of_lookup hlook)
  · rw [inst, hcanon]
    dsimp only
    split
    · rename_i x hx
      rw [Except.Meets, Gives, hcanon]
      exact h.temps i x hx
    · trivial

theorem gives_tempOp {i : Nat} {t} (ht : plan.temps[i]? = some t) :
    Except.Answers (plan.GivesTemp made t.op) (plan.tempOp e t.op) := by
  have hinst : ∀ v ∈ t.op.operands,
      Except.Answers (plan.Gives made v) (plan.inst e v) := by
    intro v hv
    refine h.gives_inst hconsts fun k hk => ?_
    simp only [constants, mem_eraseDups, mem_filterMap, mem_append, mem_flatMap]
    exact ⟨v, .inl (.inr ⟨t, Array.mem_toList_iff.2 (Array.mem_of_getElem? ht), hv⟩), by simp [hk,
      Scalar.const?]⟩
  generalize t.op = op at hinst ⊢
  simp only [TempOp.operands] at hinst
  cases op with
  | narrow ty v => exact (hinst v (by simp)).bind fun y hy => .ok ⟨y, rfl, hy⟩
  | binary op lhs rhs =>
    exact (hinst lhs (by simp)).bind fun y hy => (hinst rhs (by simp)).bind fun z hz =>
      .ok ⟨y, z, rfl, hy, hz⟩
  | loadElem array index =>
    exact (hinst array (by simp)).bind fun y hy => (hinst index (by simp)).bind fun z hz =>
      .ok ⟨y, z, rfl, hy, hz⟩
  | storeElem array index value =>
    exact (hinst array (by simp)).bind fun y hy => (hinst index (by simp)).bind fun z hz =>
      (hinst value (by simp)).bind fun w hw => .ok ⟨y, z, w, rfl, hy, hz, hw⟩
  | barrier store =>
    have htemp : plan.canon (.temp store) = .temp store := chainEnd_of_none rfl
    refine (h.gives_inst hconsts fun k hk => ?_).bind fun y hy => .ok ⟨y, rfl, hy⟩
    rw [htemp] at hk
    cases hk

end Emits

/-! ## One stage after the other -/

theorem emits_addConsts (plan : Plan) (hwf : body.WellFormed) (phis : Array InstId)
    (hphis : ∀ (i : Nat) x, phis[i]? = some x → x = .null) :
    (∃ made, plan.Emits made body { consts := (plan.addConsts body).1, phis }
      (plan.addConsts body).2) ∧
    ∀ k ∈ plan.constants, ((plan.addConsts body).1.lookup k).isSome := by
  refine ⟨foldlRecOn (motive := fun r : List (Const × InstId) × Body =>
    ∃ made, plan.Emits made body { consts := r.1, phis } r.2) plan.constants _
    ⟨_, .refl plan hwf hphis⟩ fun r hr k _ => ?_, ?_⟩
  · obtain ⟨made, hr⟩ := hr
    have hnew := hr.insert (v := .const k) (.const k) (some k.ty) rfl
    refine ⟨_, { (hnew _ _).2 with consts := fun k' x hx => ?_ }⟩
    rcases mem_cons.1 hx with hx | hx
    · cases hx
      exact update_self ..
    · exact (hnew r.2.entry 0).1 _ _ (hr.consts k' x hx)
  · have keys : ∀ (l : List Const) (r : List (Const × InstId) × Body), ∀ k,
        (r.1.lookup k).isSome ∨ k ∈ l → ((l.foldl (fun r c =>
          ((c, (r.2.addConst c).1) :: r.1, (r.2.addConst c).2)) r).1.lookup k).isSome := by
      intro l
      induction l with
      | nil => exact fun r k hk => hk.resolve_right (by simp)
      | cons c l ih =>
        intro r k hk
        refine ih _ k ?_
        dsimp only
        rw [lookup_cons]
        by_cases hc : k = c
        · simp [hc]
        · rw [beq_false_of_ne hc]
          exact hk.imp_right fun hk => (mem_cons.1 hk).resolve_left hc
    exact fun k hk => keys _ _ k (.inr hk)

theorem emits_addPhis {consts}
    (h : plan.Emits made body { consts, phis := Array.replicate plan.phis.size .null } body') :
    ∃ made, plan.Emits made body { consts, phis := (plan.addPhis body').1 }
      (plan.addPhis body').2 := by
  refine foldlRecOn (motive := fun r : Array InstId × Body =>
    ∃ made, plan.Emits made body { consts, phis := r.1 } r.2) plan.livePhis _ ⟨_, h⟩
    fun r hr idx _ => ?_
  obtain ⟨made, hr⟩ := hr
  have hnew := hr.insert (v := .phi idx) (.phi [])
    (some (plan.layout.varTy (plan.phi idx).var).stack) ⟨[], rfl, nofun⟩
  refine ⟨_, { (hnew _ _).2 with phis := fun i x hx => ?_ }⟩
  rw [Array.getElem?_setIfInBounds] at hx
  split at hx
  · split at hx
    · cases hx
      exact .inr (‹idx = i› ▸ update_self ..)
    · cases hx
  · exact (hr.phis i x hx).imp_right ((hnew r.2.entry 0).1 _ _)

section Stages

variable (hconsts : ∀ k ∈ plan.constants, (e.consts.lookup k).isSome)
include hconsts

section

variable (h : plan.Emits made body e body')
include h

theorem emits_addTemp {t : Temp} (ht : plan.temps[e.temps.size]? = some t) :
    Except.Answers (fun r => r.1.consts = e.consts ∧
      r.1.temps.size = e.temps.size + 1 ∧ ∃ made, plan.Emits made body r.1 r.2)
      (plan.addTemp e body' t) := by
  refine (h.gives_tempOp hconsts ht).bind fun op hop => ?_
  have hnew := h.insert (v := .temp e.temps.size) op t.ty ⟨t, ht, rfl, hop⟩
  dsimp only
  split
  · trivial
  · refine ⟨rfl, by simp, _, { (hnew _ _).2 with temps := fun i x hx => ?_ }⟩
    rw [Array.getElem?_push] at hx
    split at hx
    · cases hx
      exact ‹i = e.temps.size› ▸ update_self ..
    · exact (hnew body'.entry 0).1 _ _ (h.temps i x hx)

theorem emits_temps (he : e.temps.size = 0) :
    Except.Answers (fun r => r.1.consts = e.consts ∧
      ∃ made, plan.Emits made body r.1 r.2)
      (plan.temps.toList.foldlM (fun (e, body) t => plan.addTemp e body t) (e, body')) := by
  refine (Except.Meets.foldlM (I := fun rest (r : Emission × Body) => ∃ done,
    done ++ rest = plan.temps.toList ∧ r.1.temps.size = done.length ∧ r.1.consts = e.consts ∧
      ∃ made, plan.Emits made body r.1 r.2) ?_ _ _ ⟨[], rfl, he, rfl, made, h⟩).mono
    (fun _ => id) fun r ⟨_, _, _, hr⟩ => hr
  rintro t rest ⟨e', body''⟩ ⟨done, hdone, hsize, hsame, made, h⟩
  have ht : plan.temps[e'.temps.size]? = some t := by
    rw [← Array.getElem?_toList, ← hdone, hsize]
    simp
  refine (emits_addTemp (hsame ▸ hconsts) h ht).mono (fun _ => id) ?_
  rintro ⟨e'', body3⟩ ⟨hsame', hsize', h'⟩
  exact ⟨done ++ [t], by simpa using hdone, by simpa [hsize] using hsize', hsame'.trans hsame, h'⟩

theorem emits_fillPhis : Except.Answers (plan.Emits made body e) (plan.fillPhis e body') := by
  refine (Except.Meets.foldlM (I := fun rest body' => (∀ i ∈ rest, i ∈ plan.livePhis) ∧
    plan.Emits made body e body') ?_ _ _ ⟨fun _ => id, h⟩).mono (fun _ => id) fun _ h => h.2
  rintro idx rest body'' ⟨hrest, h⟩
  refine (Except.Meets.mapM (R := fun e' => ∃ v, (e'.1, v) ∈ (plan.phi idx).inputs ∧
    plan.Gives made v e'.2) _ ?_).bind fun inputs hin => ?_
  · rintro ⟨b, v⟩ hv
    refine (h.gives_inst hconsts fun k hk => ?_).bind fun y hy => ⟨v, hv, hy⟩
    simp only [constants, mem_eraseDups, mem_filterMap, mem_append, mem_flatMap]
    exact ⟨v, .inr ⟨idx, hrest idx (by simp), mem_map.2 ⟨_, hv, rfl⟩⟩,
      by simp [hk, Scalar.const?]⟩
  · refine ⟨fun i hi => hrest i (.tail _ hi), h.setPhi (i := idx) ?_ hin⟩
    rw [Array.getD_eq_getD_getElem?]
    rcases hx : e.phis[idx]? with _ | x
    · exact .inl rfl
    · exact h.phis idx x hx

theorem gives_substitution :
    Except.Answers (fun replace => ∀ x y, replace.get? x = some y →
      ∃ v, plan.replace.get? x = some v ∧ plan.Gives made v y) (plan.substitution e) := by
  refine (Except.Meets.mapM (R := fun e' => ∃ v, plan.replace.get? e'.1 = some v ∧
    plan.Gives made v e'.2) _ ?_).bind fun pairs hpairs x y hxy => ?_
  · rintro ⟨x, v⟩ hv
    refine (h.gives_inst hconsts fun k hk => ?_).bind fun y hy =>
      ⟨v, SideTable.mem_toList_iff.1 hv, hy⟩
    simp only [constants, mem_eraseDups, mem_filterMap, mem_append]
    exact ⟨v, .inl (.inl (mem_map.2 ⟨_, hv, rfl⟩)), by simp [hk, Scalar.const?]⟩
  · exact hpairs (x, y) (mem_filter.1 (KeyMap.mem_of_get?_ofList hxy)).1

end

end Stages

/-- Adds the constants, the phis and the temporaries of a plan. -/
def emit (plan : Plan) (body : Body) : Except Breach (Emission × Body) :=
  let (consts, body) := plan.addConsts body
  let (phis, body) := plan.addPhis body
  plan.temps.toList.foldlM (fun (e, body) t => plan.addTemp e body t) ({ consts, phis }, body)

theorem commit_eq (plan : Plan) (body : Body) : plan.commit body = (do
    let (e, body) ← plan.emit body
    let replace ← plan.substitution e
    let records ← plan.snapshots.toList.mapM fun (sp, s) => do
      pure (sp, ← plan.record e replace s)
    let body ← plan.fillPhis e body
    pure
      { body := body.substitute replace, records := .ofList records, layout := plan.layout
        dead := plan.dead, monitorsRemoved := plan.monitorsRemoved }) := rfl

theorem emits_emit (plan : Plan) (hwf : body.WellFormed) :
    Except.Answers (fun r => (∀ k ∈ plan.constants, (r.1.consts.lookup k).isSome) ∧
      ∃ made, plan.Emits made body r.1 r.2) (plan.emit body) := by
  obtain ⟨⟨_, hfirst⟩, hconsts⟩ := emits_addConsts plan hwf
    (Array.replicate plan.phis.size .null) fun i x hx => by
      rw [Array.getElem?_replicate] at hx
      split at hx <;> simp_all
  obtain ⟨_, hsecond⟩ := emits_addPhis hfirst
  exact (emits_temps hconsts hsecond rfl).mono (fun _ => id) fun r hr => ⟨hr.1 ▸ hconsts, hr.2⟩

/-- Carrying out a plan adds instructions for the values of the plan, and lets the instructions of
their values take the place of replaced ones. -/
theorem emits_commit (plan : Plan) (hwf : body.WellFormed) :
    Except.Answers (fun c => c.dead = plan.dead ∧ c.layout = plan.layout ∧
      ∃ made e body' replace, plan.Emits made body e body' ∧ c.body = body'.substitute replace ∧
      ∀ x y, replace.get? x = some y → ∃ v, plan.replace.get? x = some v ∧ plan.Gives made v y)
      (plan.commit body) := by
  rw [commit_eq]
  refine (plan.emits_emit hwf).bind ?_
  rintro ⟨e, body'⟩ ⟨hconsts, made, h⟩
  refine (gives_substitution hconsts h).bind fun replace hreplace => ?_
  refine (Except.Meets.any _).bind fun records _ => ?_
  refine (emits_fillPhis hconsts h).bind fun body'' h => ?_
  exact ⟨rfl, rfl, made, e, body'', replace, h, rfl, hreplace⟩

theorem alike_commit (plan : Plan) (hwf : body.WellFormed) :
    Except.Answers
      (fun c => body.Alike c.body ∧ c.dead = plan.dead ∧ c.layout = plan.layout)
      (plan.commit body) := by
  refine (plan.emits_commit hwf).mono (fun _ => id) ?_
  rintro c ⟨hdead, hlayout, _, _, _, _, h, hbody, -⟩
  exact ⟨hbody ▸ h.alike.trans (.mapOperands _ _), hdead, hlayout⟩

end Plan

end EscapeAnalysis
