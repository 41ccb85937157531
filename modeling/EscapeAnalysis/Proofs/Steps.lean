import EscapeAnalysis.Proofs.Metering
import EscapeAnalysis.Run.Machine

/-!
# Steps of a run

A unit of work of the machine enters a block or runs an instruction, and runs the terminator along
with the last instruction of a block. `Machine.Step` takes these apart, and `Machine.Ends` and
`Machine.Fails` list the ways in which a run can end or fail (`Machine.tick_spec`). A run ends with
a result exactly if steps lead from its start to a state that ends with it (`Machine.runFrom_iff`),
so what every step keeps holds throughout every run, whatever the fuel.
-/

namespace EscapeAnalysis

variable {xs : List InstId}

namespace Except

variable {ε α β : Type} {xs : List α}
variable {f : α → Except ε β}

theorem bind_eq_ok {x b} : (x >>= f) = .ok b ↔ ∃ a, x = .ok a ∧ f a = .ok b := by
  rcases x with e | a <;> simp [bind, Except.bind]

theorem bind_eq_error {x e} :
    (x >>= f) = .error e ↔ x = .error e ∨ ∃ a, x = .ok a ∧ f a = .error e := by
  rcases x with e' | a <;> simp [bind, Except.bind]

theorem pure_eq_ok {a b} : (pure a : Except ε α) = .ok b ↔ a = b := by
  simp [pure, Except.pure]

theorem eq_ok_of_isOk {x : Except ε Unit} (h : x.isOk = true) : x = .ok () := by
  cases x with
  | error e => cases h
  | ok a => rfl

theorem mapM_eq_ok {ys} : xs.mapM f = .ok ys ↔ xs.map f = ys.map .ok := by
  induction xs generalizing ys with
  | nil => cases ys <;> simp [pure, Except.pure]
  | cons x xs ih =>
    rw [List.mapM_cons]
    simp only [bind_eq_ok, pure_eq_ok]
    constructor
    · rintro ⟨y, hy, zs, hzs, rfl⟩
      simp [hy, ih.1 hzs]
    · intro h
      cases ys with
      | nil => simp at h
      | cons y ys =>
        simp only [List.map_cons, List.cons.injEq] at h
        exact ⟨y, h.1, ys, ih.2 h.2, rfl⟩

theorem mapM_eq_error {e} (h : xs.mapM f = .error e) : ∃ x ∈ xs, f x = .error e := by
  induction xs with
  | nil => simp [pure, Except.pure] at h
  | cons x xs ih =>
    rw [List.mapM_cons] at h
    rcases hx : f x with e' | y
    · rw [hx] at h
      cases h
      exact ⟨x, by simp, hx⟩
    · rcases hxs : xs.mapM f with e' | ys
      · rw [hx, hxs] at h
        cases h
        obtain ⟨z, hz, he⟩ := ih hxs
        exact ⟨z, by simp [hz], he⟩
      · rw [hx, hxs] at h
        cases h

end Except

namespace Frame

variable {x : InstId}

def setResult (f : Frame) (x : InstId) : Option Value → Frame
  | some v => f.set x v
  | none => f

@[simp] theorem setResult_some (f : Frame) (x : InstId) (v : Value) :
    f.setResult x (some v) = f.set x v := rfl

@[simp] theorem block_setResult (f : Frame) (x : InstId) (v : Option Value) :
    (f.setResult x v).block = f.block := by cases v <;> rfl

@[simp] theorem pred_setResult (f : Frame) (x : InstId) (v : Option Value) :
    (f.setResult x v).pred = f.pred := by cases v <;> rfl

@[simp] theorem exception_setResult (f : Frame) (x : InstId) (v : Option Value) :
    (f.setResult x v).exception = f.exception := by cases v <;> rfl

theorem get_eq_ok {f : Frame} {v} : f.get x = .ok v ↔ f.values.get? x = some v := by
  rw [get]
  rcases f.values.get? x with _ | w
  · simp [throw, throwThe, MonadExceptOf.throw]
  · simp [pure, Except.pure]

theorem get_ne_thrown {f : Frame} {t} : f.get x ≠ .error (.thrown t) := by
  rw [get]
  rcases f.values.get? x with _ | w
  · simp [throw, throwThe, MonadExceptOf.throw]
  · simp [pure, Except.pure]

end Frame

theorem mapM_get_eq_ok {f : Frame} {vs} :
    xs.mapM f.get = .ok vs ↔ xs.map f.values.get? = vs.map some := by
  rw [Except.mapM_eq_ok]
  induction xs generalizing vs with
  | nil => cases vs <;> simp
  | cons x xs ih =>
    cases vs with
    | nil => simp
    | cons v vs => simp [Frame.get_eq_ok, ih]

theorem mapM_get_ne_thrown {f : Frame} {t} : xs.mapM f.get ≠ .error (.thrown t) := by
  intro h
  obtain ⟨x, -, hx⟩ := Except.mapM_eq_error h
  exact Frame.get_ne_thrown hx

/-- The run is at `x`, and `rest` is what the block has behind it. -/
abbrev RunState.Next {σ : Type} (s : RunState σ) (x : InstId) (rest : List InstId) : Prop :=
  s.rest = some (x :: rest)

/-- The state behind `x`, which has given `v`. -/
abbrev RunState.past {σ : Type} (s : RunState σ) (x : InstId) (v : Option Value)
    (rest : List InstId) (heap : Heap) (state : σ) : RunState σ :=
  { frame := s.frame.setResult x v, rest := some rest, heap, host := state }

namespace Machine

variable {σ : Type} (m : Machine) (host : Host σ) {sp : SafepointId} {frame : Frame}
  {P : RunState σ → Prop}

/-- The phis of the block take their values. -/
abbrev Enters (s : RunState σ) (frame : Frame) : Prop :=
  m.enterPhis s.frame (m.body.phis s.frame.block) = .ok frame

/-- The state in front of the code of the block. -/
abbrev inside (s : RunState σ) (frame : Frame) : RunState σ :=
  { s with frame, rest := some (m.body.code s.frame.block) }

/-- Running operation `op` of `x` gives a value or none, a heap and a state of the host. -/
inductive Does (s : RunState σ) (x : InstId) : Op → Option Value → Heap → σ → Prop
  | plain {op : Op} {effect} (hc : op.isCall = false) (he : m.eval s.frame s.heap x op = .ok effect) :
      Does s x op (effect.apply m.program s.heap).1 (effect.apply m.program s.heap).2 s.host
  | call {c : Call} {args v heap state} (ha : c.args.mapM s.frame.get = .ok args)
      (hh : host.call m.program c.callee args s.heap s.host = .ok (.ret v, heap, state)) :
      Does s x (.call c) v heap state

/-- Running operation `op` of `x` throws. -/
inductive Throws (s : RunState σ) (x : InstId) : Op → Thrown → Heap → σ → Prop
  | plain {op : Op} {t} (hc : op.isCall = false)
      (he : m.eval s.frame s.heap x op = .error (.thrown t)) : Throws s x op t s.heap s.host
  | call {c : Call} {args v heap state} (ha : c.args.mapM s.frame.get = .ok args)
      (hh : host.call m.program c.callee args s.heap s.host = .ok (.throw v, heap, state)) :
      Throws s x (.call c) (.ofValue v) heap state

inductive Takes (values : SideTable .inst Value) : Terminator → BlockId → Prop
  | jump (b : BlockId) : Takes values (.jump b) b
  | branch {cond : InstId} {onTrue onFalse n} (hv : values.get? cond = some (.int n)) :
      Takes values (.branch cond onTrue onFalse) (if n ≠ 0 then onTrue else onFalse)
  | invoke (call : InstId) (normal handler : BlockId) :
      Takes values (.invoke call normal handler) normal

inductive Step : RunState σ → RunState σ → Prop
  | enter {s : RunState σ} {frame} (h : s.rest = none)
      (hf : m.enterPhis s.frame (m.body.phis s.frame.block) = .ok frame) :
      Step s { s with frame, rest := some (m.body.code s.frame.block) }
  | op {s : RunState σ} {x rest op v heap state} (h : s.rest = some (x :: rest))
      (ho : m.body.op? x = some op) (hl : m.leavesAt? op = none)
      (hd : m.Does host s x op v heap state) :
      Step s { frame := s.frame.setResult x v, rest := some rest, heap, host := state }
  | caught {s : RunState σ} {x rest op t heap state normal handler} (h : s.rest = some (x :: rest))
      (ho : m.body.op? x = some op) (hl : m.leavesAt? op = none)
      (ht : m.Throws host s x op t heap state)
      (hterm : (m.body.block s.frame.block).term = .invoke x normal handler) :
      Step s
        { frame := { s.frame with exception := some t }.jump handler, rest := none, heap
          host := state }
  | goTo {s : RunState σ} {b} (h : s.rest = some [])
      (hb : Takes s.frame.values (m.body.block s.frame.block).term b) :
      Step s { s with frame := s.frame.jump b, rest := none }

inductive Steps : RunState σ → RunState σ → Prop
  | refl (s : RunState σ) : Steps s s
  | tail {s t u : RunState σ} (h : Steps s t) (hs : m.Step host t u) : Steps s u

inductive Ends : RunState σ → Exit → Heap → σ → Prop
  | ret {s : RunState σ} (h : s.rest = some [])
      (hterm : (m.body.block s.frame.block).term = .ret none) : Ends s (.ret none) s.heap s.host
  | retValue {s : RunState σ} {x v} (h : s.rest = some [])
      (hterm : (m.body.block s.frame.block).term = .ret (some x))
      (hv : s.frame.values.get? x = some v) : Ends s (.ret (some v)) s.heap s.host
  | throw {s : RunState σ} {x v} (h : s.rest = some [])
      (hterm : (m.body.block s.frame.block).term = .throw x) (hv : s.frame.values.get? x = some v) :
      Ends s (.threw (.ofValue v)) s.heap s.host
  | deopt {s : RunState σ} {sp state heap} (h : s.rest = some [])
      (hterm : (m.body.block s.frame.block).term = .deopt sp)
      (hd : m.body.deoptimize m.program s.heap s.frame.values sp = .ok (state, heap)) :
      Ends s (.deopt state) heap s.host
  | leave {s : RunState σ} {x rest op sp state heap} (h : s.rest = some (x :: rest))
      (ho : m.body.op? x = some op) (hl : m.leavesAt? op = some sp)
      (hd : m.body.deoptimize m.program s.heap s.frame.values sp = .ok (state, heap)) :
      Ends s (.deopt state) heap s.host
  | uncaught {s : RunState σ} {x rest op t heap state} (h : s.rest = some (x :: rest))
      (ho : m.body.op? x = some op) (hl : m.leavesAt? op = none)
      (ht : m.Throws host s x op t heap state) (hterm : ∀ normal handler,
        (m.body.block s.frame.block).term ≠ .invoke x normal handler) : Ends s (.threw t) heap state

inductive Fails : RunState σ → RunError → Prop
  | enter {s : RunState σ} {e} (h : s.rest = none)
      (hf : m.enterPhis s.frame (m.body.phis s.frame.block) = .error e) : Fails s e
  | noInstruction {s : RunState σ} {x rest} (h : s.rest = some (x :: rest))
      (ho : m.body.op? x = none) : Fails s (.noInstruction x)
  | leave {s : RunState σ} {x rest op sp e} (h : s.rest = some (x :: rest))
      (ho : m.body.op? x = some op) (hl : m.leavesAt? op = some sp)
      (hd : m.body.deoptimize m.program s.heap s.frame.values sp = .error e) : Fails s e
  | eval {s : RunState σ} {x rest op e} (h : s.rest = some (x :: rest))
      (ho : m.body.op? x = some op) (he : m.eval s.frame s.heap x op = .error (.error e)) :
      Fails s e
  | args {s : RunState σ} {x rest c e} (h : s.rest = some (x :: rest))
      (ho : m.body.op? x = some (.call c)) (he : c.args.mapM s.frame.get = .error (.error e)) :
      Fails s e
  | host {s : RunState σ} {x rest c args message} (h : s.rest = some (x :: rest))
      (ho : m.body.op? x = some (.call c))
      (he : host.call m.program c.callee args s.heap s.host = .error message) :
      Fails s (.host message)
  | unreachable {s : RunState σ} (h : s.rest = some [])
      (hterm : (m.body.block s.frame.block).term = .unreachable) : Fails s .unreachable
  | read {s : RunState σ} {x} (h : s.rest = some [])
      (hterm : (m.body.block s.frame.block).term.operand? = some x)
      (hv : s.frame.values.get? x = none) : Fails s (.uncomputed x)
  | condition {s : RunState σ} (h : s.rest = some []) : Fails s .nonIntCondition
  | deopt {s : RunState σ} {sp e} (h : s.rest = some [])
      (hterm : (m.body.block s.frame.block).term = .deopt sp)
      (hd : m.body.deoptimize m.program s.heap s.frame.values sp = .error e) : Fails s e

/-- What the answer of the machine to a state says of the steps from there. -/
def Tells (s : RunState σ) : Except RunError (Progress σ) → Prop
  | .ok (.running t) => m.Steps host s t
  | .ok (.ended e h a) => ∃ t, m.Steps host s t ∧ m.Ends host t e h a
  | .error e => ∃ t, m.Steps host s t ∧ m.Fails host t e

variable {m host} {s s' t : RunState σ} {e : Exit} {h h' : Heap} {a : σ}
variable {u : RunState σ} {r : Progress σ} {x : InstId} {rest : List InstId} {b state : σ}
  {heap : Heap} {op : Op} {v : Option Value} {n : Nat}

theorem Steps.single (hs : m.Step host s t) : m.Steps host s t := .tail (.refl s) hs

theorem Steps.trans (h1 : m.Steps host s t) (h2 : m.Steps host t u) : m.Steps host s u := by
  induction h2 with
  | refl => exact h1
  | tail _ hs ih => exact .tail ih hs

theorem Steps.head (hs : m.Step host s t) (h2 : m.Steps host t u) :
    m.Steps host s u := (Steps.single hs).trans h2

theorem leave_spec (m : Machine) (s : RunState σ) (sp : SafepointId) :
    (∃ state heap, m.body.deoptimize m.program s.heap s.frame.values sp = .ok (state, heap) ∧
      m.leave s sp = .ok (.ended (.deopt state) heap s.host)) ∨
    ∃ e, m.body.deoptimize m.program s.heap s.frame.values sp = .error e ∧
      m.leave s sp = .error e := by
  rw [leave]
  rcases m.body.deoptimize m.program s.heap s.frame.values sp with e | ⟨state, heap⟩
  · exact .inr ⟨e, rfl, rfl⟩
  · exact .inl ⟨state, heap, rfl, rfl⟩

theorem finishBlock_spec (m : Machine) (host : Host σ) (hr : s.rest = some []) :
    (∃ b, Takes s.frame.values (m.body.block s.frame.block).term b ∧
      m.finishBlock s = .ok (.running { s with frame := s.frame.jump b, rest := none })) ∨
    (∃ e heap a, m.Ends host s e heap a ∧ m.finishBlock s = .ok (.ended e heap a)) ∨
    ∃ e, m.Fails host s e ∧ m.finishBlock s = .error e := by
  rw [finishBlock, hr]
  rcases hterm : (m.body.block s.frame.block).term with
    _ | b | ⟨cond, onTrue, onFalse⟩ | (_ | x) | x | sp | ⟨call, normal, handler⟩ <;> dsimp only
  · exact .inr (.inr ⟨_, .unreachable hr hterm, rfl⟩)
  · exact .inl ⟨b, .jump b, rfl⟩
  · rcases hv : s.frame.values.get? cond with _ | v
    · exact .inr (.inr ⟨_, .read hr (congrArg _ hterm) hv, rfl⟩)
    · cases v with
      | int n => exact .inl ⟨_, .branch hv, rfl⟩
      | _ => exact .inr (.inr ⟨_, .condition hr, rfl⟩)
  · exact .inr (.inl ⟨_, _, _, .ret hr hterm, rfl⟩)
  · rcases hv : s.frame.values.get? x with _ | v
    · exact .inr (.inr ⟨_, .read hr (congrArg _ hterm) hv, rfl⟩)
    · exact .inr (.inl ⟨_, _, _, .retValue hr hterm hv, rfl⟩)
  · rcases hv : s.frame.values.get? x with _ | v
    · exact .inr (.inr ⟨_, .read hr (congrArg _ hterm) hv, rfl⟩)
    · exact .inr (.inl ⟨_, _, _, .throw hr hterm hv, rfl⟩)
  · rcases m.leave_spec s sp with ⟨state, heap, hd, h⟩ | ⟨e, hd, h⟩
    · exact .inr (.inl ⟨_, _, _, .deopt hr hterm hd, h⟩)
    · exact .inr (.inr ⟨e, .deopt hr hterm hd, h⟩)
  · exact .inl ⟨normal, .invoke call normal handler, rfl⟩

theorem finishBlock_of_rest (hr : s.Next x rest) : m.finishBlock s = .ok (.running s) := by
  rw [finishBlock, hr]
  rfl

theorem tick_of_rest_nil (hr : s.rest = some []) : m.tick host s = m.finishBlock s := by
  rw [tick, hr]

theorem tick_of_takes (hr : s.rest = some []) {b}
    (hb : Takes s.frame.values (m.body.block s.frame.block).term b) :
    m.tick host s = .ok (.running { s with frame := s.frame.jump b, rest := none }) := by
  rw [tick_of_rest_nil hr, finishBlock, hr]
  generalize (m.body.block s.frame.block).term = term at hb
  cases hb with
  | jump b => rfl
  | branch hv => simp [hv, bind, Except.bind, pure, Except.pure, Value.toInt?]
  | invoke => rfl

theorem tick_of_enter (hr : s.rest = none) (hf : m.Enters s frame) :
    m.tick host s = m.finishBlock (m.inside s frame) := by
  rw [tick, hr]
  simp only [hf, bind, Except.bind]

theorem proceed_eq (frame : Frame) (x : InstId) (rest : List InstId) (heap : Heap) (state : σ)
    (v : Option Value) : m.proceed frame x rest heap state v =
      m.finishBlock { frame := frame.setResult x v, rest := some rest, heap, host := state } := by
  cases v <;> rfl

theorem runOp_plain (hc : op.isCall = false) : m.runOp host frame x rest heap state op =
      match m.eval frame heap x op with
      | .error (.error e) => .error e
      | .error (.thrown t) => .ok (m.unwind frame heap state x t)
      | .ok effect => m.proceed frame x rest (effect.apply m.program heap).2 state
          (effect.apply m.program heap).1 := by
  cases op <;> first | rfl | cases hc

theorem runOp_of_does (hd : m.Does host s x op v heap state) :
    m.runOp host s.frame x rest s.heap s.host op =
      m.finishBlock (s.past x v rest heap state) := by
  cases hd with
  | plain hc he =>
    rw [runOp_plain hc, he]
    exact proceed_eq ..
  | call ha hh => simp only [runOp, ha, hh, proceed_eq]

theorem runOp_of_throws {t} (ht : m.Throws host s x op t heap state) :
    m.runOp host s.frame x rest s.heap s.host op =
      .ok (m.unwind s.frame heap state x t) := by
  cases ht with
  | plain hc he => rw [runOp_plain hc, he]
  | call ha hh => simp only [runOp, ha, hh, pure, Except.pure]

section

variable (hr : s.Next x rest) (ho : m.body.op? x = some op)
include hr ho

theorem runOp_spec :
    (∃ v heap state, m.Does host s x op v heap state) ∨
      (∃ t heap state, m.Throws host s x op t heap state) ∨
      ∃ e, m.Fails host s e ∧ m.runOp host s.frame x rest s.heap s.host op = .error e := by
  rcases hc : op.isCall with _ | _
  · rw [runOp_plain hc]
    rcases he : m.eval s.frame s.heap x op with (e | t) | effect
    · exact .inr (.inr ⟨e, .eval hr ho he, rfl⟩)
    · exact .inr (.inl ⟨t, _, _, .plain hc he⟩)
    · exact .inl ⟨_, _, _, .plain hc he⟩
  · obtain ⟨c, rfl⟩ : ∃ c, op = .call c := by
      cases op <;> first | exact ⟨_, rfl⟩ | cases hc
    rw [runOp]
    rcases ha : c.args.mapM s.frame.get with (e | t) | args
    · exact .inr (.inr ⟨e, .args hr ho ha, rfl⟩)
    · exact absurd ha mapM_get_ne_thrown
    · dsimp only
      rcases hh : host.call m.program c.callee args s.heap s.host with e | ⟨v | v, heap, state⟩
      · exact .inr (.inr ⟨_, .host hr ho hh, rfl⟩)
      · exact .inl ⟨v, heap, state, .call ha hh⟩
      · exact .inr (.inl ⟨_, heap, state, .call ha hh⟩)

theorem tick_of_op (hl : m.leavesAt? op = none) :
    m.tick host s = m.runOp host s.frame x rest s.heap s.host op := by
  rw [tick, hr]
  simp only [runInst, ho, hl]

theorem tick_of_leave (hl : m.leavesAt? op = some sp) : m.tick host s = m.leave s sp := by
  rw [tick, hr]
  simp only [runInst, ho, hl]

end

theorem tick_of_ends (he : m.Ends host s e h a) : m.tick host s = .ok (.ended e h a) := by
  cases he with
  | ret hr hterm =>
    rw [tick_of_rest_nil hr, finishBlock, hr]
    simp only [hterm]
    rfl
  | retValue hr hterm hv =>
    rw [tick_of_rest_nil hr, finishBlock, hr]
    simp only [hterm, hv]
    rfl
  | throw hr hterm hv =>
    rw [tick_of_rest_nil hr, finishBlock, hr]
    simp only [hterm, hv]
    rfl
  | deopt hr hterm hd =>
    rw [tick_of_rest_nil hr, finishBlock, hr]
    simp only [hterm, leave, hd]
    rfl
  | leave hr ho hl hd =>
    rw [tick_of_leave hr ho hl, leave, hd]
    rfl
  | uncaught hr ho hl ht hterm =>
    rw [tick_of_op hr ho hl, runOp_of_throws ht, unwind]
    split
    · rename_i call normal handler hcall
      rw [if_neg]
      rintro rfl
      exact hterm normal handler hcall
    · rfl

theorem tick_of_caught {t normal handler} (hr : s.Next x rest) (ho : m.body.op? x = some op)
    (hl : m.leavesAt? op = none) (ht : m.Throws host s x op t heap state)
    (hterm : (m.body.block s.frame.block).term = .invoke x normal handler) :
    m.tick host s = .ok (.running
      { frame := { s.frame with exception := some t }.jump handler, rest := none, heap
        host := state }) := by
  rw [tick_of_op hr ho hl, runOp_of_throws ht, unwind, hterm]
  exact congrArg _ (if_pos rfl)

/-- A unit of work is a step, or a step and the terminator after it, or the end, or a failure. -/
theorem tick_spec (m : Machine) (host : Host σ) (s : RunState σ) :
    (∃ t, m.Step host s t ∧ (m.tick host s = .ok (.running t) ∨
      t.rest = some [] ∧ m.tick host s = m.finishBlock t)) ∨
    (∃ e heap a, m.Ends host s e heap a ∧ m.tick host s = .ok (.ended e heap a)) ∨
    ∃ e, m.Fails host s e ∧ m.tick host s = .error e := by
  -- after a block was entered or an operation has run
  have next : ∀ {t : RunState σ} {rest : List InstId}, t.rest = some rest → m.Step host s t →
      m.tick host s = m.finishBlock t → ∃ t, m.Step host s t ∧ (m.tick host s = .ok (.running t) ∨
        t.rest = some [] ∧ m.tick host s = m.finishBlock t) := by
    intro t rest hrest hs ht
    rcases rest with _ | ⟨y, rest⟩
    · exact ⟨t, hs, .inr ⟨hrest, ht⟩⟩
    · exact ⟨t, hs, .inl (ht.trans (finishBlock_of_rest hrest))⟩
  rcases hr : s.rest with _ | _ | ⟨x, rest⟩
  · rcases hf : m.enterPhis s.frame (m.body.phis s.frame.block) with e | frame
    · refine .inr (.inr ⟨e, .enter hr hf, ?_⟩)
      rw [tick, hr]
      simp only [hf, bind, Except.bind]
    · exact .inl (next rfl (.enter hr hf) (tick_of_enter hr hf))
  · rw [tick_of_rest_nil hr]
    rcases m.finishBlock_spec host hr with ⟨b, hb, h⟩ | hrest
    · exact .inl ⟨_, .goTo hr hb, .inl h⟩
    · exact .inr hrest
  · rcases ho : m.body.op? x with _ | op
    · refine .inr (.inr ⟨_, .noInstruction hr ho, ?_⟩)
      rw [tick, hr]
      simp only [runInst, ho]
      rfl
    · rcases hl : m.leavesAt? op with _ | sp
      · rcases runOp_spec hr ho with ⟨v, heap, state, hd⟩ | ⟨t, heap, state, ht⟩ | ⟨e, hf, h⟩
        · exact .inl (next rfl (.op hr ho hl hd) ((tick_of_op hr ho hl).trans (runOp_of_does hd)))
        · by_cases hterm : ∃ normal handler,
              (m.body.block s.frame.block).term = .invoke x normal handler
          · obtain ⟨normal, handler, hterm⟩ := hterm
            exact .inl ⟨_, .caught hr ho hl ht hterm, .inl (tick_of_caught hr ho hl ht hterm)⟩
          · have hends := Ends.uncaught hr ho hl ht fun normal handler h => hterm ⟨_, _, h⟩
            exact .inr (.inl ⟨_, _, _, hends, tick_of_ends hends⟩)
        · exact .inr (.inr ⟨e, hf, (tick_of_op hr ho hl).trans h⟩)
      · rw [tick_of_leave hr ho hl]
        rcases m.leave_spec s sp with ⟨state, heap, hd, h⟩ | ⟨e, hd, h⟩
        · exact .inr (.inl ⟨_, _, _, .leave hr ho hl hd, h⟩)
        · exact .inr (.inr ⟨e, .leave hr ho hl hd, h⟩)

theorem tells_tick (m : Machine) (host : Host σ) (s : RunState σ) :
    m.Tells host s (m.tick host s) := by
  rcases m.tick_spec host s with ⟨t, hs, ht | ⟨hr, ht⟩⟩ | ⟨e, heap, a, he, ht⟩ | ⟨e, hf, ht⟩ <;>
    rw [ht]
  · exact .single hs
  · rcases m.finishBlock_spec host hr with ⟨b, hb, ht⟩ | ⟨e, heap, a, he, ht⟩ | ⟨e, hf, ht⟩ <;>
      rw [ht]
    · exact .tail (.single hs) (.goTo hr hb)
    · exact ⟨t, .single hs, he⟩
    · exact ⟨t, .single hs, hf⟩
  · exact ⟨s, .refl s, he⟩
  · exact ⟨s, .refl s, hf⟩

theorem Steps.of_tick (h : m.tick host s = .ok (.running s')) : m.Steps host s s' := by
  have htells := m.tells_tick host s
  rwa [h] at htells

/-- Looking at a run from one step earlier takes at most one more unit of fuel. -/
theorem runFrom_of_step {r} (hs : m.Step host s t) (hrun : m.runFrom host n t = .ok r) :
    ∃ k, m.runFrom host k s = .ok r := by
  -- the state right after an operation or the start of a block
  have next : ∀ rest, t.rest = some rest → m.tick host s = m.finishBlock t →
      ∃ k, m.runFrom host k s = .ok r := by
    intro rest hrest htick
    rcases rest with _ | ⟨y, rest⟩
    · rcases n with _ | n
      · cases hrun
      · refine ⟨n + 1, ?_⟩
        rw [runFrom, tick_of_rest_nil hrest] at hrun
        rw [runFrom, htick]
        exact hrun
    · refine ⟨n + 1, ?_⟩
      rw [runFrom, htick, finishBlock_of_rest hrest]
      exact hrun
  cases hs with
  | enter hr hf => exact next _ rfl (tick_of_enter hr hf)
  | op hr ho hl hd => exact next _ rfl ((tick_of_op hr ho hl).trans (runOp_of_does hd))
  | caught hr ho hl ht hterm =>
    refine ⟨n + 1, ?_⟩
    rw [runFrom, tick_of_caught hr ho hl ht hterm]
    exact hrun
  | goTo hr hb =>
    refine ⟨n + 1, ?_⟩
    rw [runFrom, tick_of_takes hr hb]
    exact hrun

theorem runFrom_of_steps {r} (hs : m.Steps host s t) (hrun : m.runFrom host n t = .ok r) :
    ∃ k, m.runFrom host k s = .ok r := by
  induction hs generalizing n with
  | refl => exact ⟨n, hrun⟩
  | tail _ hs ih =>
    obtain ⟨k, hk⟩ := runFrom_of_step hs hrun
    exact ih hk

theorem runFrom_spec (n : Nat) (s : RunState σ) :
    (∃ e h a, m.runFrom host n s = .ok (e, h, a) ∧ ∃ t, m.Steps host s t ∧ m.Ends host t e h a) ∨
    ∃ e, m.runFrom host n s = .error e ∧
      (e = .outOfFuel ∨ ∃ t, m.Steps host s t ∧ m.Fails host t e) := by
  induction n generalizing s with
  | zero => exact .inr ⟨_, rfl, .inl rfl⟩
  | succ n ih =>
    have htells := m.tells_tick host s
    rw [runFrom]
    generalize m.tick host s = r at htells
    rcases r with e | s' | ⟨e, h, a⟩
    · exact .inr ⟨e, rfl, .inr htells⟩
    · rcases ih s' with ⟨e, h, a, hn, t, hs, he⟩ | ⟨e, hn, rfl | ⟨t, hs, hf⟩⟩
      · exact .inl ⟨e, h, a, hn, t, Steps.trans htells hs, he⟩
      · exact .inr ⟨_, hn, .inl rfl⟩
      · exact .inr ⟨e, hn, .inr ⟨t, Steps.trans htells hs, hf⟩⟩
    · exact .inl ⟨e, h, a, rfl, htells⟩

/-- A run ends exactly where steps lead to an end. -/
theorem runFrom_iff : (∃ n, m.runFrom host n s = .ok (e, h, a)) ↔
    ∃ t, m.Steps host s t ∧ m.Ends host t e h a := by
  constructor
  · rintro ⟨n, hn⟩
    rcases m.runFrom_spec n s with ⟨_, _, _, hn', h⟩ | ⟨_, hn', -⟩ <;> cases hn.symm.trans hn'
    exact h
  · rintro ⟨t, hs, hend⟩
    refine runFrom_of_steps (n := 1) hs ?_
    rw [runFrom, tick_of_ends hend]
    rfl

theorem runFrom_add (k : Nat) : ∀ {n : Nat} {s : RunState σ},
    m.runFrom host n s ≠ .error .outOfFuel → m.runFrom host (n + k) s = m.runFrom host n s
  | 0, _, h => absurd rfl h
  | n + 1, s, h => by
    rw [Nat.add_right_comm, runFrom, runFrom]
    rw [runFrom] at h
    rcases ht : m.tick host s with err | ⟨s'⟩ | ⟨e', h', a'⟩
    · rfl
    · rw [ht] at h
      exact runFrom_add k h
    · rfl

def start (m : Machine) (heap : Heap) (state : σ) : RunState σ :=
  { frame := { block := m.body.entry }, heap, host := state }

theorem run_add (k : Nat) (h : m.run host n heap state ≠ .error .outOfFuel) :
    m.run host (n + k) heap state = m.run host n heap state := by
  simp only [run] at h ⊢
  split at h
  · rename_i hlen
    rw [if_pos hlen, if_pos hlen, runFrom_add k h]
  · rename_i hlen
    rw [if_neg hlen, if_neg hlen]

theorem run_mono {r} (k : Nat) (h : m.run host n heap state = .ok r) :
    m.run host (n + k) heap state = .ok r :=
  (run_add k (by simp [h])).trans h

theorem run_iff : (∃ n, m.run host n heap state = .ok (e, h, a)) ↔
    m.args.length = m.body.params.length ∧
      ∃ t, m.Steps host (m.start heap state) t ∧ m.Ends host t e h a := by
  simp only [run]
  by_cases hlen : m.args.length = m.body.params.length
  · simp only [hlen, if_true, true_and]
    exact runFrom_iff
  · simp only [hlen, if_false, false_and, iff_false]
    rintro ⟨n, hn⟩
    cases hn

theorem Does.unique {v'} (hd : m.Does host s x op v h a) (hd' : m.Does host s x op v' h' b) :
    v = v' ∧ h = h' ∧ a = b := by
  cases hd with
  | plain hc he =>
    cases hd' with
    | plain _ he' =>
      cases he.symm.trans he'
      exact ⟨rfl, rfl, rfl⟩
    | call => cases hc
  | call ha hh =>
    cases hd' with
    | plain hc => cases hc
    | call ha' hh' =>
      cases ha.symm.trans ha'
      cases hh.symm.trans hh'
      exact ⟨rfl, rfl, rfl⟩

theorem Throws.unique {u u'} (ht : m.Throws host s x op u h a) (ht' : m.Throws host s x op u' h' b)
    : u = u' ∧ h = h' ∧ a = b := by
  cases ht with
  | plain hc he =>
    cases ht' with
    | plain _ he' =>
      cases he.symm.trans he'
      exact ⟨rfl, rfl, rfl⟩
    | call => cases hc
  | call ha hh =>
    cases ht' with
    | plain hc => cases hc
    | call ha' hh' =>
      cases ha.symm.trans ha'
      cases hh.symm.trans hh'
      exact ⟨rfl, rfl, rfl⟩

theorem Does.not_throws {u} (hd : m.Does host s x op v h a) : ¬ m.Throws host s x op u h' b := by
  intro ht
  cases hd with
  | plain hc he =>
    cases ht with
    | plain _ he' =>
      cases he.symm.trans he'
    | call => cases hc
  | call ha hh =>
    cases ht with
    | plain hc => cases hc
    | call ha' hh' =>
      cases ha.symm.trans ha'
      cases hh.symm.trans hh'

theorem Takes.unique {values term b b'} (hb : Takes values term b) (hb' : Takes values term b') :
    b = b' := by
  cases hb with
  | jump | invoke => cases hb'; rfl
  | branch hv =>
    cases hb' with
    | branch hv' =>
      cases hv.symm.trans hv'
      rfl

theorem next_unique {x' rest' op'} (hr : s.Next x rest) (ho : m.body.op? x = some op)
    (hr' : s.Next x' rest') (ho' : m.body.op? x' = some op') :
    x = x' ∧ rest = rest' ∧ op = op' := by
  cases hr.symm.trans hr'
  cases ho.symm.trans ho'
  exact ⟨rfl, rfl, rfl⟩

theorem Step.unique (hs : m.Step host s t) (hs' : m.Step host s s') : t = s' := by
  cases hs with
  | enter hr hf =>
    cases hs' with
    | enter _ hf' =>
      cases hf.symm.trans hf'
      rfl
    | op hr' | caught hr' | goTo hr' => simp [hr] at hr'
  | op hr ho hl hd =>
    cases hs' with
    | op hr' ho' _ hd' =>
      obtain ⟨rfl, rfl, rfl⟩ := next_unique hr ho hr' ho'
      obtain ⟨rfl, rfl, rfl⟩ := hd.unique hd'
      rfl
    | caught hr' ho' _ ht =>
      obtain ⟨rfl, rfl, rfl⟩ := next_unique hr ho hr' ho'
      exact absurd ht hd.not_throws
    | enter hr' | goTo hr' => simp [hr] at hr'
  | caught hr ho hl ht hterm =>
    cases hs' with
    | op hr' ho' _ hd =>
      obtain ⟨rfl, rfl, rfl⟩ := next_unique hr ho hr' ho'
      exact absurd ht hd.not_throws
    | caught hr' ho' _ ht' hterm' =>
      obtain ⟨rfl, rfl, rfl⟩ := next_unique hr ho hr' ho'
      cases hterm.symm.trans hterm'
      obtain ⟨rfl, rfl, rfl⟩ := ht.unique ht'
      rfl
    | enter hr' | goTo hr' => simp [hr] at hr'
  | goTo hr hb =>
    cases hs' with
    | goTo _ hb' => rw [hb.unique hb']
    | enter hr' | op hr' | caught hr' => simp [hr] at hr'

theorem Ends.not_step (he : m.Ends host s e h a) : ¬ m.Step host s t := by
  intro hs
  cases he with
  | ret hr hterm | retValue hr hterm | throw hr hterm | deopt hr hterm =>
    cases hs with
    | goTo _ hb =>
      rw [hterm] at hb
      cases hb
    | enter hr' | op hr' | caught hr' => simp [hr] at hr'
  | leave hr ho hl =>
    cases hs with
    | op hr' ho' hl' | caught hr' ho' hl' =>
      obtain ⟨rfl, rfl, rfl⟩ := next_unique hr ho hr' ho'
      simp [hl] at hl'
    | enter hr' | goTo hr' => simp [hr] at hr'
  | uncaught hr ho hl ht hterm =>
    cases hs with
    | op hr' ho' _ hd =>
      obtain ⟨rfl, rfl, rfl⟩ := next_unique hr ho hr' ho'
      exact hd.not_throws ht
    | caught hr' _ _ _ hterm' =>
      cases hr.symm.trans hr'
      exact hterm _ _ hterm'
    | enter hr' | goTo hr' => simp [hr] at hr'

theorem Steps.eq_or_head (hs : m.Steps host s u) :
    u = s ∨ ∃ t, m.Step host s t ∧ m.Steps host t u := by
  induction hs with
  | refl => exact .inl rfl
  | @tail t u hs hstep ih =>
    rcases ih with rfl | ⟨t', ht, hrest⟩
    · exact .inr ⟨u, hstep, .refl u⟩
    · exact .inr ⟨t', ht, hrest.tail hstep⟩

theorem forall_steps_of_step (hP : P s) (hstep : m.Step host s t) (ht : ∀ u, m.Steps host t u → P u)
    (u : RunState σ) (hu : m.Steps host s u) : P u := by
  rcases hu.eq_or_head with rfl | ⟨t', hstep', hu⟩
  · exact hP
  · obtain rfl := hstep.unique hstep'
    exact ht u hu

theorem forall_steps_of_ends (hP : P s) (hends : m.Ends host s e h a) (u : RunState σ)
    (hu : m.Steps host s u) : P u := by
  rcases hu.eq_or_head with rfl | ⟨t', hstep, -⟩
  · exact hP
  · exact absurd hstep hends.not_step

end Machine

end EscapeAnalysis
