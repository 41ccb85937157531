import EscapeAnalysis.Run.Deopt
import EscapeAnalysis.Run.Eval

/-!
# Running bodies

A run goes through a body block by block. On entering a block its phis are read in parallel from
the edge that was taken; then the instructions run in order, and the terminator says where to go
on. `Machine.tick` is one unit of work, and `Machine.run` repeats it.
-/

namespace EscapeAnalysis

inductive Reply where
  | ret (v : Option Value)
  | throw (v : Value)
deriving DecidableEq

/-- What serves the calls of a run. A host has a state of its own and may change the heap. -/
structure Host (σ : Type) where
  call : Program → CalleeId → List Value → Heap → σ → Except String (Reply × Heap × σ)

/-- Where a run stands: in its frame, about to enter the block or with some instructions of it
left to run. -/
structure RunState (σ : Type) where
  frame : Frame
  /-- The rest of the block; `none` before it is entered. -/
  rest : Option (List InstId) := none
  heap : Heap
  host : σ

inductive Progress (σ : Type) where
  | running (s : RunState σ)
  | ended (exit : Exit) (heap : Heap) (host : σ)

namespace Machine

variable {σ : Type} (m : Machine) (host : Host σ)

def leave (s : RunState σ) (sp : SafepointId) : Except RunError (Progress σ) := do
  let (state, heap) ← m.body.deoptimize m.program s.heap s.frame.values sp
  pure (.ended (.deopt state) heap s.host)

def phiInput (f : Frame) (pred : BlockId) (phi : InstId) : Except RunError Value :=
  let inputs := match m.body.op? phi with
    | some (.phi inputs) => inputs
    | _ => []
  match inputs.find? (·.1 == pred) with
  | none => throw (.noPhiInput phi pred)
  | some (_, x) =>
    match f.values.get? x with
    | some v => pure v
    | none => throw (.uncomputed x)

/-- Reads all phis of a block, then sets them. -/
def enterPhis (f : Frame) (phis : List InstId) : Except RunError Frame :=
  match phis, f.pred with
  | [], _ => pure f
  | _, none => throw (.phisAtEntry f.block)
  | phis, some pred => do
    let incoming ← phis.mapM fun phi => do pure (phi, ← m.phiInput f pred phi)
    pure (incoming.foldl (fun f (phi, v) => f.set phi v) f)

/-- Runs the terminator if the block has nothing else left to run. -/
def finishBlock (s : RunState σ) : Except RunError (Progress σ) :=
  let read (x : InstId) : Except RunError Value :=
    match s.frame.values.get? x with
    | some v => pure v
    | none => throw (.uncomputed x)
  let goTo (b : BlockId) : Progress σ :=
    .running { s with frame := s.frame.jump b, rest := none }
  match s.rest with
  | some [] =>
    match (m.body.block s.frame.block).term with
    | .unreachable => throw .unreachable
    | .jump b => pure (goTo b)
    | .branch cond onTrue onFalse => do
      match (← read cond).toInt? with
      | some n => pure (goTo (if n ≠ 0 then onTrue else onFalse))
      | none => throw .nonIntCondition
    | .ret none => pure (.ended (.ret none) s.heap s.host)
    | .ret (some x) => do pure (.ended (.ret (some (← read x))) s.heap s.host)
    | .throw x => do pure (.ended (.threw (.ofValue (← read x))) s.heap s.host)
    | .deopt sp => m.leave s sp
    | .invoke _ normal _ => pure (goTo normal)
  | _ => pure (.running s)

/-- Passes on an exception of instruction `x`: to the handler if `x` is the call that ends the
block, else out of the method. -/
def unwind (frame : Frame) (heap : Heap) (state : σ) (x : InstId) (t : Thrown) : Progress σ :=
  match (m.body.block frame.block).term with
  | .invoke call _ handler =>
    if call = x then
      .running
        { frame := { frame with exception := some t }.jump handler, rest := none, heap
          host := state }
    else .ended (.threw t) heap state
  | _ => .ended (.threw t) heap state

/-- Goes on behind instruction `x` with its value. -/
def proceed (frame : Frame) (x : InstId) (rest : List InstId) (heap : Heap) (state : σ)
    (v : Option Value) : Except RunError (Progress σ) :=
  let frame := match v with
    | some v => frame.set x v
    | none => frame
  m.finishBlock { frame, rest := some rest, heap, host := state }

def runOp (frame : Frame) (x : InstId) (rest : List InstId) (heap : Heap) (state : σ) :
    Op → Except RunError (Progress σ)
  | .call c =>
    match c.args.mapM frame.get with
    | .error (.error e) => throw e
    | .error (.thrown t) => pure (m.unwind frame heap state x t)
    | .ok args =>
      match host.call m.program c.callee args heap state with
      | .error message => throw (.host message)
      | .ok (.ret v, heap, state) => m.proceed frame x rest heap state v
      | .ok (.throw v, heap, state) => pure (m.unwind frame heap state x (.ofValue v))
  | op =>
    match m.eval frame heap x op with
    | .error (.error e) => throw e
    | .error (.thrown t) => pure (m.unwind frame heap state x t)
    | .ok effect =>
      let (v, heap) := effect.apply m.program heap
      m.proceed frame x rest heap state v

/-- Whether the run leaves compiled code instead of running an operation. -/
def leavesAt? (op : Op) : Option SafepointId :=
  op.safepoint?.filter fun sp => m.forced == some sp

def runInst (s : RunState σ) (x : InstId) (rest : List InstId) : Except RunError (Progress σ) :=
  match m.body.op? x with
  | none => throw (.noInstruction x)
  | some op =>
    match m.leavesAt? op with
    | some sp => m.leave s sp
    | none =>
      let { frame, rest := _, heap, host := state } := s
      m.runOp host frame x rest heap state op

/-- Spends one unit of fuel: enters a block or runs one instruction. A terminator costs nothing and
runs together with what comes before it. -/
def tick (s : RunState σ) : Except RunError (Progress σ) :=
  match s.rest with
  | none => do
    let frame ← m.enterPhis s.frame (m.body.phis s.frame.block)
    m.finishBlock { s with frame, rest := some (m.body.code s.frame.block) }
  | some [] => m.finishBlock s
  | some (x :: rest) => m.runInst host s x rest

def runFrom : Nat → RunState σ → Except RunError (Exit × Heap × σ)
  | 0, _ => throw .outOfFuel
  | fuel + 1, s =>
    match m.tick host s with
    | .error e => throw e
    | .ok (.ended exit heap host) => pure (exit, heap, host)
    | .ok (.running s) => runFrom fuel s

def defaultFuel : Nat := 1000000

def run (fuel : Nat) (heap : Heap) (state : σ) : Except RunError (Exit × Heap × σ) :=
  if m.args.length = m.body.params.length then
    m.runFrom host fuel { frame := { block := m.body.entry }, heap, host := state }
  else throw (.argCount m.body.params.length m.args.length)

end Machine

end EscapeAnalysis
