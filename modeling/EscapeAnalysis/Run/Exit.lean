import EscapeAnalysis.Heap.Isomorphism

/-!
# How runs end

A run returns, throws, or leaves compiled code with the state of its locals and monitors.
-/

namespace EscapeAnalysis

inductive Thrown where
  | object (v : Value)
  | nullPointer
  | indexOutOfBounds
  | classCast
  | negativeArraySize
  | illegalMonitorState
deriving DecidableEq

namespace Thrown

def name : Thrown → String
  | object _ => "exception object"
  | nullPointer => "NullPointer"
  | indexOutOfBounds => "IndexOutOfBounds"
  | classCast => "ClassCast"
  | negativeArraySize => "NegativeArraySize"
  | illegalMonitorState => "IllegalMonitorState"

def builtin : List Thrown :=
  [nullPointer, indexOutOfBounds, classCast, negativeArraySize, illegalMonitorState]

/-- Throwing `v` by hand. Throwing null is a null pointer exception. -/
def ofValue : Value → Thrown
  | .null => nullPointer
  | v => object v

/-- What a handler sees of an exception. -/
def caught : Thrown → Value
  | object v => v
  | _ => .null

end Thrown

structure DeoptState where
  safepoint : SafepointId
  locals : List Value
  monitors : List Value
deriving DecidableEq

inductive Exit where
  | ret (v : Option Value)
  | threw (t : Thrown)
  | deopt (s : DeoptState)
deriving DecidableEq

namespace Heap

/-- Lists of values of the same length whose members are equivalent in pairs. -/
def equivAll (h : Heap) (vs : List Value) (h' : Heap) (ws : List Value) : Bool :=
  vs.length == ws.length && (vs.zip ws).all fun (v, w) => h.equiv v h' w

end Heap

def Exit.equiv (h : Heap) (e : Exit) (h' : Heap) (e' : Exit) : Bool :=
  match e, e' with
  | .ret (some v), .ret (some w) => h.equiv v h' w
  | .ret none, .ret none => true
  | .threw (.object v), .threw (.object w) => h.equiv v h' w
  | .threw t, .threw t' => t == t'
  | .deopt s, .deopt s' =>
    s.safepoint == s'.safepoint && h.equivAll s.locals h' s'.locals &&
      h.equivAll s.monitors h' s'.monitors
  | _, _ => false

end EscapeAnalysis
