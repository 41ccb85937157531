import EscapeAnalysis.Run.Machine

/-!
# Scripted runs

A host that answers each callee as a script says and keeps a record of all calls, and the
comparison of two runs under such a host.
-/

namespace EscapeAnalysis

inductive Behavior where
  | throwNew (cls : ClassId)
  | throwValue (v : Value)
  | returnValue (v : Value)
  | returnArg (idx : Nat)
  | returnNew (shape : Shape)
  | returnNothing
  | fail (message : String)
  /-- Writes a slot of an argument, if that is a reference, and returns the default. -/
  | setField (arg slot : Nat) (v : Value)
  /-- Stores an argument in a global and returns the default. -/
  | setGlobal (global : GlobalId) (arg : Nat)

structure CallRecord where
  callee : CalleeId
  args : List Value

abbrev Transcript := Array CallRecord

abbrev Script := List (CalleeId × Behavior)

namespace Script

def defaultReply (p : Program) (callee : CalleeId) : Reply :=
  .ret ((p.callee callee).ret.map fun ty => ty.default.toValue)

def reply (p : Program) (callee : CalleeId) (args : List Value) (h : Heap) :
    Option Behavior → Except String (Reply × Heap)
  | none => pure (defaultReply p callee, h)
  | some (.throwNew cls) =>
    let (o, h) := h.alloc p (.inst cls)
    pure (.throw (.ref o), h)
  | some (.throwValue v) => pure (.throw v, h)
  | some (.returnValue v) => pure (.ret (some v), h)
  | some (.returnArg idx) => pure (.ret args[idx]?, h)
  | some (.returnNew shape) =>
    let (o, h) := h.alloc p shape
    pure (.ret (some (.ref o)), h)
  | some .returnNothing => pure (.ret none, h)
  | some (.fail message) => throw message
  | some (.setField arg slot v) =>
    let h := match args[arg]? with
      | some (.ref o) => h.setField o slot v
      | _ => h
    pure (defaultReply p callee, h)
  | some (.setGlobal global arg) =>
    let h := match args[arg]? with
      | some v => h.setGlobal global v
      | none => h
    pure (defaultReply p callee, h)

def host (script : Script) : Host Transcript where
  call p callee args h calls := do
    let (answer, h) ← reply p callee args h (script.lookup callee)
    pure (answer, h, calls.push { callee, args })

end Script

structure Outcome where
  exit : Exit
  heap : Heap
  calls : Transcript

namespace Outcome

def ofRun (m : Machine) (script : Script) (fuel : Nat) (heap : Heap) : Except RunError Outcome := do
  let (exit, heap, calls) ← m.run script.host fuel heap #[]
  pure { exit, heap, calls }

def sameExit (a b : Outcome) : Bool := Exit.equiv a.heap a.exit b.heap b.exit

/-- Whether each global has equivalent values, by key. -/
def sameGlobals (p : Program) (a b : Outcome) : List Bool :=
  p.globals.keys.map fun g => a.heap.equiv (a.heap.global p g) b.heap (b.heap.global p g)

/-- The same callees were called in the same order with equivalent arguments. -/
def sameCalls (a b : Outcome) : Bool :=
  a.calls.size == b.calls.size && (a.calls.zip b.calls).all fun (c, d) =>
    c.callee == d.callee && a.heap.equivAll c.args b.heap d.args

end Outcome

end EscapeAnalysis
