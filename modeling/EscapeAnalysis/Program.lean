import EscapeAnalysis.Chain
import EscapeAnalysis.Slot.Table
import EscapeAnalysis.Value

/-!
# Programs

A program declares classes, globals and callees. A class starts with the fields and the flags of
its parent, which was declared before it.
-/

namespace EscapeAnalysis

/-- What the runtime knows about the instances of a class. Either flag makes the runtime keep a
reference to every instance. -/
structure Flags where
  finalizer : Bool := false
  thread : Bool := false
deriving DecidableEq, Inhabited

namespace Flags

def union (a b : Flags) : Flags :=
  ⟨a.finalizer || b.finalizer, a.thread || b.thread⟩

def bits (a : Flags) : Nat := a.finalizer.toNat + 2 * a.thread.toNat

def any (a : Flags) : Bool := a.finalizer || a.thread

end Flags

structure ClassDecl where
  name : String
  parent : Option ClassId
  /-- All fields of an instance, inherited ones first. -/
  layout : List FieldId
  flags : Flags
deriving Inhabited

structure FieldDecl where
  name : String
  ty : Ty
  holder : ClassId
deriving Inhabited

structure GlobalDecl where
  name : String
  ty : Ty
deriving Inhabited

inductive ArgEffect where
  | escapes
  | borrows
deriving DecidableEq, Inhabited

def ArgEffect.name : ArgEffect → String
  | escapes => "escapes"
  | borrows => "borrows"

structure CalleeDecl where
  name : String
  params : List Ty
  ret : Option Ty
  /-- The effects on the arguments; `none` if nothing is known about the target. -/
  effects : Option (List ArgEffect)
deriving Inhabited

/-- An argument without a known effect escapes. -/
def CalleeDecl.argEffect (c : CalleeDecl) (idx : Nat) : ArgEffect :=
  ((c.effects.getD [])[idx]?).getD .escapes

structure Program where
  classes : SlotTable .cls ClassDecl := {}
  fields : SlotTable .field FieldDecl := {}
  globals : SlotTable .global GlobalDecl := {}
  callees : SlotTable .callee CalleeDecl := {}
deriving Inhabited

namespace Program

def cls (p : Program) (c : ClassId) : ClassDecl := (p.classes.get? c).getD default

def layout (p : Program) (c : ClassId) : List FieldId := (p.cls c).layout

def fieldTy (p : Program) (f : FieldId) : Ty := ((p.fields.get? f).map FieldDecl.ty).getD default

def globalTy (p : Program) (g : GlobalId) : Ty :=
  ((p.globals.get? g).map GlobalDecl.ty).getD default

def callee (p : Program) (c : CalleeId) : CalleeDecl := (p.callees.get? c).getD default

def addFields (p : Program) (holder : ClassId) :
    List (String × Ty) → List FieldId × Program
  | [] => ([], p)
  | (name, ty) :: rest =>
    let (key, fields) := p.fields.insert { name, ty, holder }
    let (keys, p) := addFields { p with fields } holder rest
    (key :: keys, p)

def addClass (p : Program) (name : String) (parent : Option ClassId)
    (fields : List (String × Ty)) (flags : Flags) : ClassId × Program :=
  let inherited := (parent.map p.layout).getD []
  let flags := flags.union ((parent.map fun c => (p.cls c).flags).getD {})
  let (key, classes) := p.classes.insert { name, parent, layout := [], flags }
  let (own, p) := addFields { p with classes } key fields
  (key, { p with classes := p.classes.modify key ({ · with layout := inherited ++ own }) })

def addGlobal (p : Program) (name : String) (ty : Ty) : GlobalId × Program :=
  let (key, globals) := p.globals.insert { name, ty }
  (key, { p with globals })

def addCallee (p : Program) (decl : CalleeDecl) : CalleeId × Program :=
  let (key, callees) := p.callees.insert decl
  (key, { p with callees })

/-- The field of `c` with the given name; of several, the one declared last in the most derived
class. -/
def field? (p : Program) (c : ClassId) (name : String) : Option FieldId :=
  (p.layout c).reverse.find? fun f => ((p.fields.get? f).map FieldDecl.name) == some name

/-- The slot of field `f` in an instance of `c`. -/
def fieldIndex? (p : Program) (c : ClassId) (f : FieldId) : Option Nat :=
  (p.layout c).findIdx? (· == f)

/-- The class itself and what it derives from, nearest first. -/
def ancestors (p : Program) (c : ClassId) : List ClassId :=
  chain (fun c => (p.cls c).parent) p.classes.slots.size c

def isSubclass (p : Program) (sub sup : ClassId) : Bool := (p.ancestors sub).contains sup

end Program

end EscapeAnalysis
