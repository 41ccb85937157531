import EscapeAnalysis.Ir.Op

/-!
# Failed runs

Code that is not well formed, or that a host does not serve, makes a run fail. Exceptions of the
program are not failures: they are one way for a run to end.
-/

namespace EscapeAnalysis

inductive RunError where
  | argCount (expected got : Nat)
  | outOfFuel
  | phisAtEntry (b : BlockId)
  | noPhiInput (phi : InstId) (pred : BlockId)
  | uncomputed (x : InstId)
  | latePhi (phi : InstId)
  | noInstruction (x : InstId)
  | noObject (o : ObjRef)
  | unreachable
  | nonIntCondition
  | paramOutOfRange
  | notReference (v : Value)
  | nonIntLength
  | fieldOutOfRange
  | noField (cls : String) (field : FieldId)
  | fieldOfArray
  | nonIntIndex
  | elementOfInstance
  | lengthOfInstance
  | rawStoreIntoInstance
  | rawStoreIntoReferences
  | rawStoreOfReference
  | misalignedRawStore (width offset : Nat) (elem : Ty)
  | nonIntBound
  | incompatibleCopy
  | fillOfInstance
  | classOfArray
  | noException
  | badUnary (op : UnOp) (v : Value)
  | badBinary (op : BinOp) (lhs rhs : Value)
  | noSafepoint (s : SafepointId)
  | uncomputedDebug (x : InstId)
  | objectOutOfRange
  | nonIntSelector
  | selectorOutOfRange (n : Int)
  | monitorOfNothing (s : SafepointId)
  | slotOutOfRange
  | lockOverflow (o : ObjRef)
  | host (message : String)
deriving DecidableEq

def RunError.message : RunError → String
  | argCount expected got => s!"expected {expected} arguments, got {got}"
  | outOfFuel => "ran out of fuel"
  | phisAtEntry b => s!"phis in {b.text} without a predecessor"
  | noPhiInput phi pred => s!"phi {phi.text} has no input from {pred.text}"
  | uncomputed x => s!"{x.text} used before it was computed"
  | latePhi phi => s!"phi {phi.text} after the start of a block"
  | noInstruction x => s!"{x.text} is not an instruction"
  | noObject o => s!"{o.text} is not an object"
  | unreachable => "reached an unreachable terminator"
  | nonIntCondition => "non-int condition"
  | paramOutOfRange => "parameter out of range"
  | notReference v => s!"{v.text} is not a reference"
  | nonIntLength => "non-int array length"
  | fieldOutOfRange => "field out of range"
  | noField cls field => s!"{cls} has no field {field.text}"
  | fieldOfArray => "field access on an array"
  | nonIntIndex => "non-int index"
  | elementOfInstance => "element store into an instance"
  | lengthOfInstance => "array length of an instance"
  | rawStoreIntoInstance => "raw store into an instance"
  | rawStoreIntoReferences => "raw store into a reference array"
  | rawStoreOfReference => "raw store of a non-integral value"
  | misalignedRawStore width offset elem =>
    s!"misaligned raw store of {width} bytes at {offset} into {elem.name} elements"
  | nonIntBound => "non-int copy bound"
  | incompatibleCopy => "array copy between incompatible objects"
  | fillOfInstance => "fill of an instance"
  | classOfArray => "class load of an array"
  | noException => "no exception in flight"
  | badUnary op v => s!"cannot apply {op.name} to {v.text}"
  | badBinary op lhs rhs => s!"cannot apply {op.name} to {lhs.text} and {rhs.text}"
  | noSafepoint s => s!"no safepoint {s.text}"
  | uncomputedDebug x => s!"debug state refers to uncomputed {x.text}"
  | objectOutOfRange => "object index out of range"
  | nonIntSelector => "non-int merge selector"
  | selectorOutOfRange n => s!"merge selector {n} out of range"
  | monitorOfNothing s => s!"eliminated monitor of {s.text} is not an object"
  | slotOutOfRange => "more values than slots"
  | lockOverflow o => s!"{o.text} is locked too often"
  | host message => message

/-- Failures that stop the program itself, so that it answers nothing. -/
def RunError.isCrash : RunError → Bool
  | noInstruction _ | noObject _ | slotOutOfRange | lockOverflow _ => true
  | _ => false

end EscapeAnalysis
