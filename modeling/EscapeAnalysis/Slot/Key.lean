/-!
# Keys

Blocks, instructions and the other parts of a program live in slot tables and are named by keys.
A key says which slot it means and which of the slot's lives.
-/

namespace EscapeAnalysis

inductive Family where
  | block
  | inst
  | safepoint
  | cls
  | field
  | global
  | callee
  | object
deriving DecidableEq

namespace Family

/-- The word a key of this family starts with in print. -/
def label : Family → String
  | block => "BlockId"
  | inst => "InstId"
  | safepoint => "SafepointId"
  | cls => "ClassId"
  | field => "FieldId"
  | global => "GlobalId"
  | callee => "CalleeId"
  | object => "ObjRef"

end Family

/-- The name of one entry of a slot table: the slot, counted from zero, and the slot's version at
the time of the entry. -/
structure Key (f : Family) where
  index : Nat
  version : Nat
deriving DecidableEq

instance (f : Family) : LawfulBEq (Key f) := inferInstance

namespace Key

variable {f : Family}

/-- The key that names nothing. Entries have odd versions, so no table ever holds it. -/
def null : Key f := ⟨0, 0⟩

instance : Inhabited (Key f) := ⟨null⟩

/-- Keys are ordered by slot, then by version. -/
def le (a b : Key f) : Bool :=
  a.index < b.index || (a.index == b.index && a.version ≤ b.version)

/-- Slots are counted from one in print. -/
def text (k : Key f) : String :=
  if k = null then s!"{f.label}(null)" else s!"{f.label}({k.index + 1}v{k.version})"

def listText (ks : List (Key f)) : String :=
  "[" ++ ", ".intercalate (ks.map text) ++ "]"

end Key

abbrev BlockId := Key .block
abbrev InstId := Key .inst
abbrev SafepointId := Key .safepoint
abbrev ClassId := Key .cls
abbrev FieldId := Key .field
abbrev GlobalId := Key .global
abbrev CalleeId := Key .callee
abbrev ObjRef := Key .object

end EscapeAnalysis
