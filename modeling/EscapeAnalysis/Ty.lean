/-!
# Types of slots and values

Slots of objects and globals may be as narrow as a byte. Once loaded, a value is an int, a long, a
reference or a class.
-/

namespace EscapeAnalysis

inductive Ty where
  | byte
  | short
  | int
  | long
  | ref
  | cls
deriving DecidableEq, Inhabited

namespace Ty

def name : Ty → String
  | byte => "byte"
  | short => "short"
  | int => "int"
  | long => "long"
  | ref => "ref"
  | cls => "class"

def all : List Ty := [byte, short, int, long, ref, cls]

def ofName? (s : String) : Option Ty := all.find? (·.name == s)

/-- The type a value of this type has once it is loaded. -/
def stack : Ty → Ty
  | byte | short => int
  | t => t

/-- The width of an integral slot in bytes. -/
def byteSize? : Ty → Option Nat
  | byte => some 1
  | short => some 2
  | int => some 4
  | long => some 8
  | ref | cls => none

end Ty

end EscapeAnalysis
