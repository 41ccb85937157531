import EscapeAnalysis.Slot.Key
import EscapeAnalysis.Ty

/-!
# Values

A constant is a value that can stand in code. A run also has references to heap objects. Integers
are 32 or 64 bits wide and wrap around.
-/

namespace EscapeAnalysis

inductive Const where
  | int (n : Int32)
  | long (n : Int64)
  | null
  | cls (c : ClassId)
deriving DecidableEq, Inhabited

inductive Value where
  | int (n : Int32)
  | long (n : Int64)
  | null
  | ref (o : ObjRef)
  | cls (c : ClassId)
deriving DecidableEq, Inhabited

def Ty.default : Ty → Const
  | .byte | .short | .int => .int 0
  | .long => .long 0
  | .ref | .cls => .null

namespace Const

def ty : Const → Ty
  | int _ => .int
  | long _ => .long
  | null => .ref
  | cls _ => .cls

def toInt? : Const → Option Int32
  | int n => some n
  | _ => none

def toLong? : Const → Option Int64
  | int n => some n.toInt64
  | long n => some n
  | _ => none

/-- The number that a non-negative int constant stands for. -/
def toNat? (c : Const) : Option Nat :=
  c.toInt?.bind fun n => if 0 ≤ n.toInt then some n.toInt.toNat else none

/-- An integral constant as a slot of integral type `t` holds it. -/
def narrow? (c : Const) (t : Ty) : Option Const :=
  c.toLong?.bind fun n =>
    match t with
    | .byte => some (int n.toInt8.toInt32)
    | .short => some (int n.toInt16.toInt32)
    | .int => some (int n.toInt32)
    | .long => some (long n)
    | .ref | .cls => none

def text : Const → String
  | int n => toString n.toInt
  | long n => s!"{n.toInt}L"
  | null => "null"
  | cls c => s!"class {c.text}"

def toValue : Const → Value
  | int n => .int n
  | long n => .long n
  | null => .null
  | cls c => .cls c

end Const

namespace Value

def toInt? : Value → Option Int32
  | int n => some n
  | _ => none

def toLong? : Value → Option Int64
  | int n => some n.toInt64
  | long n => some n
  | _ => none

def toRef? : Value → Option ObjRef
  | ref o => some o
  | _ => none

/-- A value as a slot of type `t` holds it. Only integers in integral slots change. -/
def narrow (v : Value) (t : Ty) : Value :=
  match v.toLong?, t with
  | some n, .byte => int n.toInt8.toInt32
  | some n, .short => int n.toInt16.toInt32
  | some n, .int => int n.toInt32
  | some n, .long => long n
  | _, _ => v

def text : Value → String
  | int n => s!"Int({n.toInt})"
  | long n => s!"Long({n.toInt})"
  | null => "Null"
  | ref o => s!"Ref({o.text})"
  | cls c => s!"Class({c.text})"

end Value

end EscapeAnalysis
