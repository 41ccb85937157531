import EscapeAnalysis.Proofs.Checking
import EscapeAnalysis.Proofs.Evaluation

/-!
# What has been computed where a run stands

In a body that passes the check, an instruction that is available where a run stands has a value in
the frame, if it can be counted on to have one (`Machine.Computed`): a block that dominates the
target of an edge, other than the target itself, dominates its source.
-/

namespace EscapeAnalysis

open List

/-- Whether the operation has a value whenever it succeeds. Calls depend on their hosts. -/
def Op.yields : Op → Bool
  | .storeField _ _ _ | .storeElem _ _ _ | .rawStore _ _ _ _ | .arrayCopy _ _ _ _ _
  | .arrayFill _ _ | .storeGlobal _ _ | .monitorEnter _ | .monitorExit _ | .barrier _
  | .safepoint _ | .call _ => false
  | _ => true

namespace Body

variable {body : Body} {b d p : BlockId} {x y : InstId} {i j : Nat}

theorem live_of_op? {op} (h : body.op? x = some op) : ∃ inst, body.insts.get? x = some inst := by
  rw [op?, inst?, Option.map_eq_some_iff] at h
  exact ⟨h.choose, h.choose_spec.1⟩

theorem live_of_mem_phis (h : x ∈ body.phis b) : ∃ inst, body.insts.get? x = some inst := by
  obtain ⟨inputs, hop⟩ := isPhi_iff.1 (isPhi_of_mem_phis h)
  exact live_of_op? hop

theorem insts_eq (body : Body) (b : BlockId) : (body.block b).insts = body.phis b ++ body.code b :=
  (takeWhile_append_dropWhile ..).symm

/-- The number of instructions of block `b` in front of `rest`, or in front of all of them before
the block is entered. -/
def position (body : Body) (b : BlockId) : Option (List InstId) → Nat
  | none => 0
  | some rest => (body.block b).insts.length - rest.length

theorem position_code (body : Body) (b : BlockId) :
    body.position b (some (body.code b)) = body.phiCount b := by
  simp [position, phiCount, insts_eq]

@[simp] theorem position_nil (body : Body) (b : BlockId) :
    body.position b (some []) = (body.block b).insts.length := rfl

section Suffix

variable {rest : List InstId}

theorem suffix_insts (h : rest <:+ body.code b) : rest <:+ (body.block b).insts :=
  h.trans (insts_eq body b ▸ suffix_append ..)

theorem getElem?_position (h : x :: rest <:+ body.code b) :
    (body.block b).insts[body.position b (some (x :: rest))]? = some x := by
  obtain ⟨pre, hpre⟩ := suffix_insts h
  simp [position, ← hpre]

theorem position_succ (h : x :: rest <:+ body.code b) :
    body.position b (some rest) = body.position b (some (x :: rest)) + 1 := by
  obtain ⟨pre, hpre⟩ := suffix_insts h
  simp only [position, ← hpre, length_append, length_cons]
  omega

end Suffix

theorem Available.of_succ (h : body.Available y b (i + 1)) :
    body.Available y b i ∨ (body.block b).insts[i]? = some y := by
  obtain ⟨d, j, hj, ⟨rfl, hlt⟩ | hd⟩ := h
  · by_cases hji : j = i
    · exact .inr (hji ▸ hj)
    · exact .inl ⟨d, j, hj, .inl ⟨rfl, by omega⟩⟩
  · exact .inl ⟨d, j, hj, .inr hd⟩

theorem Available.mono (h : body.Available y b i) (hij : i ≤ j) : body.Available y b j := by
  obtain ⟨d, k, hk, ⟨hd, hlt⟩ | hd⟩ := h
  · exact ⟨d, k, hk, .inl ⟨hd, Nat.lt_of_lt_of_le hlt hij⟩⟩
  · exact ⟨d, k, hk, .inr hd⟩

/-- What is available somewhere in a block is available in all blocks that it strictly dominates. -/
theorem Available.below (h : body.Available y d i) (hdom : body.flow.Dom d b) (hne : d ≠ b)
    (hb : b ∈ body.order) : body.Available y b j := by
  obtain ⟨e, k, hk, ⟨rfl, -⟩ | ⟨-, hdom'⟩⟩ := h
  · exact ⟨e, k, hk, .inr ⟨hne, hdom⟩⟩
  · refine ⟨e, k, hk, .inr ⟨?_, hdom'.trans hdom⟩⟩
    rintro rfl
    exact hne (hdom.antisymm (mem_order_iff.1 hb) hdom')

/-- What is available at a place is available wherever the instruction there is. -/
theorem Available.of_place (h : body.Available y d j)
    (hd : d = b ∧ j < i ∨ d ≠ b ∧ body.flow.Dom d b) (hb : b ∈ body.order) : body.Available y b i := by
  rcases hd with ⟨rfl, hlt⟩ | ⟨hne, hdom⟩
  · exact h.mono (Nat.le_of_lt hlt)
  · exact h.below hdom hne hb

theorem Available.of_phiCount (h : body.Available y b (body.phiCount b))
    (hy : y ∉ body.phis b) : body.Available y b 0 := by
  obtain ⟨d, j, hj, ⟨rfl, hlt⟩ | hd⟩ := h
  · rw [insts_eq, List.getElem?_append_left hlt] at hj
    exact absurd (mem_of_getElem? hj) hy
  · exact ⟨d, j, hj, .inr hd⟩

theorem Available.of_edge (h : body.Available y b 0) (e : body.flow.Edge p b) :
    body.Available y p (body.block p).insts.length := by
  obtain ⟨d, j, hj, ⟨-, hlt⟩ | ⟨hd, hdom⟩⟩ := h
  · omega
  · have hp := hdom.of_edge hd e
    by_cases hdp : d = p
    · subst hdp
      exact ⟨d, j, hj, .inl ⟨rfl, (List.getElem?_eq_some_iff.1 hj).1⟩⟩
    · exact ⟨d, j, hj, .inr ⟨hdp, hp⟩⟩

theorem not_available_entry : ¬ body.Available y body.entry 0 := by
  rintro ⟨d, j, -, ⟨-, hlt⟩ | ⟨hd, hdom⟩⟩
  · omega
  · exact hd (by simpa using hdom [] .entry)

section Checked

variable (hwf : body.WellFormed) (hi : body.Issued) (hc : body.Checked) {op : Op}
include hc

section

variable (hb : b ∈ body.order)
include hb

theorem Checked.live (hx : x ∈ (body.block b).insts) :
    ∃ inst, body.insts.get? x = some inst := by
  obtain ⟨i, hx⟩ := mem_iff_getElem?.1 hx
  obtain ⟨op, hop, -⟩ := hc.inst b hb i x hx
  exact live_of_op? hop

theorem Checked.nodup_insts : (body.block b).insts.Nodup := by
  refine pairwise_iff_getElem.2 fun i j hi' hj hij he => ?_
  obtain ⟨inst, hinst⟩ := hc.live hb (getElem_mem hi')
  have := (hc.once _ inst hinst b b i j (List.getElem?_eq_getElem hi')
    ((List.getElem?_eq_getElem hj).trans (congrArg some he.symm))).2
  omega

theorem Checked.nodup_phis : (body.phis b).Nodup :=
  (hc.nodup_insts hb).sublist (takeWhile_sublist _)

theorem Checked.not_isPhi_of_mem_code (hx : x ∈ body.code b)
    (hop : body.op? x = some op) : op.isPhi = false := by
  obtain ⟨k, hk⟩ := mem_iff_getElem?.1 hx
  have hidx : (body.block b).insts[body.phiCount b + k]? = some x := by
    rw [insts_eq, List.getElem?_append_right (by simp [phiCount])]
    simpa [phiCount] using hk
  obtain ⟨op', hop', hcheck⟩ := hc.inst b hb _ x hidx
  obtain rfl : op' = op := by simpa [hop'] using hop
  cases op' <;> try rfl
  have := (hcheck.phi _ rfl).leading
  omega

theorem Checked.available_of_operand (hop : body.op? x = some op)
    (hphi : op.isPhi = false) (hy : y ∈ op.operands) (h : body.Available x b i) :
    body.Available y b i := by
  obtain ⟨d, j, hj, hd⟩ := h
  have hdom : body.flow.Dom d b := hd.elim (fun hd => hd.1 ▸ .refl _ _) fun hd => hd.2
  have hdorder := mem_order_iff.2 (hdom.reachable (mem_order_iff.1 hb))
  obtain ⟨op', hop', hcheck⟩ := hc.inst d hdorder j x hj
  obtain rfl : op' = op := by simpa [hop'] using hop
  exact (hcheck.operands hphi y hy).of_place hd hb

end

include hwf hi in
theorem Checked.placement {inst} (hx : body.insts.get? x = some inst)
    (h : (body.block b).insts[i]? = some x) : body.placement.get? x = some (b, i) :=
  placement_of_once hwf.insts (fun _ => issued_of_mem_placed hi) hx h fun d j hj =>
    hc.once x inst hx d b j i hj h

theorem Checked.nodup_reached : (body.order.flatMap fun b => (body.block b).insts).Nodup := by
  rw [List.Nodup, pairwise_flatMap]
  refine ⟨fun b hb => hc.nodup_insts hb, ?_⟩
  refine (nodup_order body).imp_of_mem fun {b d} hb _ hbd x hx y hy hxy => hbd ?_
  subst hxy
  obtain ⟨inst, hinst⟩ := hc.live hb hx
  obtain ⟨i, hi⟩ := mem_iff_getElem?.1 hx
  obtain ⟨j, hj⟩ := mem_iff_getElem?.1 hy
  exact (hc.once x inst hinst b d i j hi hj).1

theorem Checked.not_available (hop : body.op? x = some op) (hx : (body.block b).insts[j]? = some x)
    (hij : i ≤ j) : ¬ body.Available x b i := by
  rintro ⟨d, k, hk, hd⟩
  obtain ⟨inst, hinst⟩ := live_of_op? hop
  obtain ⟨rfl, rfl⟩ := hc.once x inst hinst d b k j hk hx
  rcases hd with ⟨-, hlt⟩ | ⟨hne, -⟩
  · omega
  · exact hne rfl

end Checked

end Body

namespace Machine

variable {σ : Type} {m : Machine} {host : Host σ} {s t : RunState σ} {f : Frame} {x y : InstId}

/-- Whatever succeeds here has a value. -/
def Valued (r : Except Halt Effect) : Prop :=
  ∀ eff, r = .ok eff → ∀ p h, ∃ v, (eff.apply p h).1 = some v

namespace Valued

theorem value (v : Value) : Valued (pure (.value v)) := by
  intro eff he p h
  obtain rfl := Except.pure_eq_ok.1 he
  exact ⟨v, rfl⟩

theorem alloc (shape : Shape) : Valued (pure (.alloc shape)) := by
  intro eff he p h
  obtain rfl := Except.pure_eq_ok.1 he
  exact ⟨_, rfl⟩

theorem fail (e : RunError) : Valued (fail e) := fun _ he => absurd he fail_ne_ok

theorem raise (t : Thrown) : Valued (raise t) := fun _ he => absurd he raise_ne_ok

theorem bind {α : Type} {r} {k : α → Except Halt Effect} (hk : ∀ a, Valued (k a)) :
    Valued (r >>= k) := by
  intro eff he
  obtain ⟨a, -, ha⟩ := Except.bind_eq_ok.1 he
  exact hk a eff ha

end Valued

theorem valued_eval {h op} (hy : op.yields = true) : Valued (m.eval f h x op) := by
  cases op with
  | const | loadGlobal => exact .value _
  | param | exception => exact .bind fun _ => .value _
  | unary | refEq => exact .bind fun _ => .bind fun _ => .value _
  | binary => exact .bind fun _ => .bind fun _ => .bind fun _ => .value _
  | phi => exact .fail _
  | new => exact .alloc _
  | newArray =>
    refine .bind fun _ => .bind fun _ => ?_
    split
    · exact .raise _
    · exact .alloc _
  | loadField => exact .bind fun _ => .bind fun _ => .bind fun _ => .bind fun _ => .value _
  | loadElem =>
    refine .bind fun _ => .bind fun _ => .bind fun _ => .bind fun _ => ?_
    split
    · exact .raise _
    · split
      · exact .value _
      · exact .raise _
  | arrayLength =>
    refine .bind fun _ => .bind fun _ => ?_
    split
    · exact .value _
    · exact .fail _
  | loadClass =>
    refine .bind fun _ => .bind fun _ => ?_
    split
    · exact .value _
    · exact .fail _
  | instanceOf =>
    refine .bind fun _ => ?_
    split
    · refine .bind fun _ => ?_
      split <;> exact .value _
    · exact .value _
  | checkCast =>
    refine .bind fun _ => ?_
    split
    · exact .value _
    · refine .bind fun _ => ?_
      split
      · split
        · exact .value _
        · exact .raise _
      · exact .raise _
    · exact .fail _
  | _ => simp [Op.yields] at hy

/-- Every key in the frame names an instruction of the body. -/
def Framed (m : Machine) (s : RunState σ) : Prop := s.frame.values.Within m.body.insts

theorem framed_start (m : Machine) (heap : Heap) (state : σ) : m.Framed (m.start heap state) :=
  .empty _

theorem Framed.step (hf : m.Framed s) (h : m.Step host s t) : m.Framed t := by
  cases h with
  | enter hr hphis =>
    obtain ⟨incoming, hfst, -, rfl⟩ := enterPhis_spec hphis
    refine SideTable.Within.foldl_insert incoming hf fun e he => ?_
    have hmem : e.1 ∈ m.body.phis s.frame.block := hfst ▸ mem_map.2 ⟨e, he, rfl⟩
    exact Body.live_of_mem_phis hmem
  | @op x rest op v heap state hr ho hl hd =>
    obtain ⟨inst, hinst⟩ := Body.live_of_op? ho
    cases v with
    | none => exact hf
    | some v => exact SideTable.Within.insert hf hinst v
  | caught hr ho hl ht hterm => exact hf
  | goTo hr hb => exact hf

theorem Framed.enterPhis (hwf : m.body.WellFormed) (hf : m.Framed s) {b}
    (hnd : (m.body.phis b).Nodup) (h : m.enterPhis s.frame (m.body.phis b) = .ok f) :
    (∀ y, y ∉ m.body.phis b → f.values.get? y = s.frame.values.get? y) ∧
      ∀ x ∈ m.body.phis b, ∃ pred v, s.frame.pred = some pred ∧
        m.phiInput s.frame pred x = .ok v ∧ f.values.get? x = some v := by
  obtain ⟨incoming, hfst, hin, rfl⟩ := enterPhis_spec h
  have hlive : ∀ e ∈ incoming, ∃ inst, m.body.insts.get? e.1 = some inst :=
    fun e he => Body.live_of_mem_phis (hfst ▸ mem_map.2 ⟨e, he, rfl⟩)
  refine ⟨fun y hy => ?_, fun x hx => ?_⟩
  · exact SideTable.get?_foldl_insert_keep hwf.insts hf hlive (hfst ▸ hy)
  · rw [← hfst] at hx
    obtain ⟨e, he, rfl⟩ := mem_map.1 hx
    obtain ⟨pred, hpred, hv⟩ := hin e he
    exact ⟨pred, e.2, hpred, hv,
      SideTable.get?_foldl_insert_of_nodup hwf.insts hf hlive (hfst ▸ hnd) e he⟩

theorem Framed.get?_setResult (hwf : m.body.WellFormed) (hf : m.Framed s) {op}
    (ho : m.body.op? x = some op) (v : Option Value) (y : InstId) :
    (s.frame.setResult x v).values.get? y =
      if y = x then v.or (s.frame.values.get? y) else s.frame.values.get? y := by
  obtain ⟨inst, hinst⟩ := Body.live_of_op? ho
  cases v with
  | none => simp [Frame.setResult]
  | some v =>
    show (s.frame.values.insert x v).get? y = _
    rw [SideTable.get?_insert hwf.insts hf hinst]
    split <;> simp

/-- The instruction is available where the run stands. A block that has not been entered yet is the
end of the block that control comes from. -/
def Reached (m : Machine) (s : RunState σ) (y : InstId) : Prop :=
  match s.rest, s.frame.pred with
  | some rest, _ => m.body.Available y s.frame.block (m.body.position s.frame.block (some rest))
  | none, some p => m.body.Available y p (m.body.block p).insts.length
  | none, none => False

theorem reached_of_rest {rest} (h : s.rest = some rest) :
    m.Reached s y ↔
      m.body.Available y s.frame.block (m.body.position s.frame.block (some rest)) := by
  simp only [Reached, h]

theorem reached_of_pred {p} (h : s.rest = none) (hp : s.frame.pred = some p) :
    m.Reached s y ↔ m.body.Available y p (m.body.block p).insts.length := by
  simp only [Reached, h, hp]

/-- What a block can ask for when it is entered is there at the end of every predecessor. -/
theorem Located.reached (hwf : m.body.WellFormed) (hl : m.Located s) (hr : s.rest = none)
    (hb : s.frame.block ∈ m.body.order) (h : m.body.Available y s.frame.block 0) :
    m.Reached s y := by
  rcases hp : s.frame.pred with _ | p
  · rw [hl.entry hr hp] at h
    exact absurd h Body.not_available_entry
  · exact (reached_of_pred hr hp).2
      (h.of_edge (Body.edge_iff.2 ⟨(hl.pred hr p hp).2, hwf.live_of_mem_order hb⟩))

/-- Instructions that have a value once they have run, and without which control does not go on. -/
structure Dependable (m : Machine) (host : Host σ) (P : InstId → Op → Prop) : Prop where
  value : ∀ {s x op v heap state}, m.Does host s x op v heap state → P x op → ∃ w, v = some w
  invoke : ∀ b ∈ m.body.flow.order.blocks, ∀ x op normal handler, m.body.op? x = some op →
    (m.body.block b).term = .invoke x normal handler → ¬ P x op

/-- What is available where the run stands, and can be counted on, has been computed. -/
def Computed (m : Machine) (P : InstId → Op → Prop) (s : RunState σ) : Prop :=
  s.frame.block ∈ m.body.flow.order.blocks → ∀ y op, m.Reached s y →
    m.body.op? y = some op → P y op → ∃ v, s.frame.values.get? y = some v

theorem computed_start (m : Machine) (P : InstId → Op → Prop) (heap : Heap) (state : σ) :
    m.Computed P (m.start heap state) :=
  fun _ _ _ h => h.elim

theorem dependable_yields (hc : m.body.Checked) :
    m.Dependable host fun _ op => op.yields = true where
  value hd hy := by
    cases hd with
    | plain _ he => exact valued_eval hy _ he _ _
    | call => simp [Op.yields] at hy
  invoke b hb x op normal handler ho hterm hy := by
    obtain ⟨⟨c, hop⟩, -⟩ := hc.invoke b hb x normal handler hterm
    obtain rfl : op = .call c := by simpa [hop] using ho.symm
    simp [Op.yields] at hy

section Step

variable (hwf : m.body.WellFormed) (hc : m.body.Checked)

include hc in
theorem rest_eq_nil_of_invoke (hl : m.Located s) {x rest normal handler} (hr : s.Next x rest)
    (hterm : (m.body.block s.frame.block).term = .invoke x normal handler) : rest = [] := by
  have hb := (hl.mem_insts hr).1
  obtain ⟨⟨c, hop⟩, hlast⟩ := hc.invoke _ hb x normal handler hterm
  obtain ⟨inst, hinst⟩ := Body.live_of_op? hop
  have hx := Body.getElem?_position (hl.rest _ hr)
  rw [List.getLast?_eq_getElem?] at hlast
  have hpos := (hc.once x inst hinst _ _ _ _ hx hlast).2
  have hsucc := Body.position_succ (hl.rest _ hr)
  have hle := (Body.suffix_insts (hl.rest _ hr)).length_le
  simp only [Body.position, length_cons] at hpos hsucc hle
  exact eq_nil_of_length_eq_zero (by omega)

include hwf hc in
theorem Computed.step {P} (hP : m.Dependable host P) (hl : m.Located s) (hf : m.Framed s)
    (hs : m.Computed P s) (h : m.Step host s t) : m.Computed P t := by
  cases h with
  | enter hr hphis =>
    intro hb y op hy ho hv
    obtain ⟨incoming, -, -, hframe⟩ := enterPhis_spec hphis
    have hblock : s.frame.block ∈ m.body.order := by simpa [hframe] using hb
    obtain ⟨hkeep, hset⟩ := hf.enterPhis hwf (hc.nodup_phis hblock) hphis
    by_cases hy' : y ∈ m.body.phis s.frame.block
    · obtain ⟨-, v, -, -, hv⟩ := hset y hy'
      exact ⟨v, hv⟩
    · have hav : m.body.Available y s.frame.block (m.body.phiCount s.frame.block) := by
        simpa [Reached, hframe, Body.position_code] using hy
      obtain ⟨v, hv⟩ := hs hblock y op (hl.reached hwf hr hblock (hav.of_phiCount hy')) ho hv
      exact ⟨v, (hkeep y hy').trans hv⟩
  | @op x rest op v heap state hr ho hleave hd =>
    intro hb y op' hy ho' hv
    have hsuf := hl.rest _ hr
    simp only [Frame.block_setResult] at hb
    rw [reached_of_rest rfl, Frame.block_setResult, Body.position_succ hsuf] at hy
    show ∃ w, (s.frame.setResult x v).values.get? y = some w
    rw [hf.get?_setResult hwf ho]
    by_cases hyx : y = x
    · subst hyx
      obtain rfl : op = op' := by simpa [ho] using ho'
      obtain ⟨w, rfl⟩ := hP.value hd hv
      exact ⟨w, by simp⟩
    · rw [if_neg hyx]
      refine hs hb y op' ((reached_of_rest hr).2 ?_) ho' hv
      refine hy.of_succ.resolve_right fun he => hyx ?_
      simpa [he] using Body.getElem?_position hsuf
  | @caught x rest op t heap state normal handler hr ho hleave ht hterm =>
    intro _ y op' hy ho' hv
    have hblock := (hl.mem_insts hr).1
    have hsuf := hl.rest _ hr
    obtain rfl := rest_eq_nil_of_invoke hc hl hr hterm
    have hpos := Body.position_succ hsuf
    rw [Body.position_nil] at hpos
    rw [reached_of_pred rfl rfl, hpos] at hy
    refine hs hblock y op' ((reached_of_rest hr).2 (hy.of_succ.resolve_right fun he => ?_)) ho' hv
    -- The call itself has no value yet, but nothing counts on it either.
    obtain rfl : x = y := by simpa [he] using (Body.getElem?_position hsuf).symm
    exact hP.invoke _ hblock x op' normal handler ho' hterm hv
  | goTo hr hb =>
    intro _ y op hy ho hv
    exact hs (hl.mem_order_of_targets hb.mem_targets) y op ((reached_of_rest hr).2 hy) ho hv

end Step

end Machine

end EscapeAnalysis
