import EscapeAnalysis.Heap.Basic
import EscapeAnalysis.PointsTo.Node

/-!
# Spelling

Values and shapes as short texts, and back. Classes and fields go by name, and the objects of a
heap by their number in a list.
-/

namespace EscapeAnalysis

namespace Program

def findClass? (p : Program) (name : String) : Option ClassId :=
  (p.classes.toList.reverse.find? fun (_, d) => d.name == name).map Prod.fst

def findGlobal? (p : Program) (name : String) : Option GlobalId :=
  (p.globals.toList.reverse.find? fun (_, d) => d.name == name).map Prod.fst

def findCallee? (p : Program) (name : String) : Option CalleeId :=
  (p.callees.toList.reverse.find? fun (_, d) => d.name == name).map Prod.fst

/-- The field that `Class.field` names. The class name ends at the first dot. -/
def findField? (p : Program) (name : String) : Option FieldId :=
  match name.splitOn "." with
  | cls :: rest => (p.findClass? cls).bind fun c => p.field? c (".".intercalate rest)
  | [] => none

def className (p : Program) (c : ClassId) : String := (p.cls c).name

def fieldName (p : Program) (f : FieldId) : String :=
  match p.fields.get? f with
  | some d => p.className d.holder ++ "." ++ d.name
  | none => f.text

end Program

def readNat? (s : String) : Option Nat :=
  (if s.startsWith "+" then (s.drop 1).toString else s).toNat?

def readInt? (s : String) : Option Int :=
  if s.startsWith "+" then (readNat? s).map Int.ofNat else s.toInt?

namespace Const

def spell (p : Program) : Const → String
  | int n => toString n.toInt
  | long n => toString n.toInt ++ "L"
  | null => "null"
  | cls c => "class:" ++ p.className c

/-- Reads `5`, `5L`, `null` or `class:Name`. -/
def read? (p : Program) (s : String) : Option Const :=
  if s = "null" then some null
  else if s.startsWith "class:" then (p.findClass? (s.drop 6).toString).map cls
  else if s.endsWith "L" then (readInt? (s.dropEnd 1).toString).map fun n => long (.ofInt n)
  else (readInt? s).map fun n => int (.ofInt n)

end Const

namespace Value

/-- References are spelled by the number of their object, counted from zero. -/
def spell (p : Program) (objects : List ObjRef) : Value → String
  | int n => Const.spell p (.int n)
  | long n => Const.spell p (.long n)
  | null => "null"
  | cls c => Const.spell p (.cls c)
  | ref o =>
    match objects.findIdx? (· == o) with
    | some k => s!"#{k}"
    | none => "#?"

def read? (p : Program) (objects : List ObjRef) (s : String) : Option Value :=
  if s.startsWith "#" then (readNat? (s.drop 1).toString).bind fun k => objects[k]?.map ref
  else (Const.read? p s).map Const.toValue

end Value

namespace Shape

def spell (p : Program) : Shape → String
  | inst c => p.className c
  | array elem len => s!"{elem.name}[{len}]"

def readArray? (s : String) : Option Shape :=
  match s.splitOn "[" with
  | [elem, rest] =>
    if rest.endsWith "]" then
      match Ty.ofName? elem, readNat? (rest.dropEnd 1).toString with
      | some elem, some len => some (array elem len)
      | _, _ => none
    else none
  | _ => none

/-- Reads `elem[len]`. Any other text, with or without brackets, is the name of a class. -/
def read? (p : Program) (s : String) : Option Shape :=
  readArray? s <|> (p.findClass? s).map inst

end Shape

/-- The length of an array may be unknown. -/
def AllocShape.spell (p : Program) : AllocShape → String
  | inst c => p.className c
  | array elem (some len) => s!"{elem.name}[{len}]"
  | array elem none => s!"{elem.name}[?]"

def Cell.spell (p : Program) : Cell → String
  | field f => p.fieldName f
  | elem idx => s!"[{idx}]"
  | anyElem => "[*]"

end EscapeAnalysis
