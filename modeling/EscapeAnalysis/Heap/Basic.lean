import EscapeAnalysis.Ir.DebugState
import EscapeAnalysis.Program
import EscapeAnalysis.Slot.SideTable

/-!
# Heaps

A heap holds the objects a run has allocated and the globals it has written. Allocations by the
code and objects rebuilt on leaving compiled code are counted apart.
-/

namespace EscapeAnalysis

structure Object where
  shape : Shape
  fields : Array Value
  /-- How often the object is locked. -/
  locks : UInt32 := 0
deriving DecidableEq, Inhabited

namespace Object

def elem? (o : Object) : Option Ty := o.shape.elem?

/-- One more lock would not fit the count. -/
def isFull (o : Object) : Bool := o.locks.toNat + 1 = UInt32.size

end Object

structure Heap where
  objects : SlotTable .object Object := {}
  globals : SideTable .global Value := {}
  allocations : Nat := 0
  rematerialized : Nat := 0
deriving Inhabited

def Shape.slots (p : Program) : Shape → List Ty
  | .inst c => (p.layout c).map p.fieldTy
  | .array elem len => List.replicate len elem

namespace Heap

def get? (h : Heap) (o : ObjRef) : Option Object := h.objects.get? o

def modify (h : Heap) (o : ObjRef) (g : Object → Object) : Heap :=
  { h with objects := h.objects.modify o g }

/-- Adds an object whose slots hold the defaults of their types. -/
def alloc (h : Heap) (p : Program) (shape : Shape) : ObjRef × Heap :=
  let fields := ((shape.slots p).map fun ty => ty.default.toValue).toArray
  let (o, objects) := h.objects.insert { shape, fields }
  (o, { h with objects })

def setField (h : Heap) (o : ObjRef) (idx : Nat) (v : Value) : Heap :=
  h.modify o fun obj => { obj with fields := obj.fields.setIfInBounds idx v }

def lock (h : Heap) (o : ObjRef) : Heap :=
  h.modify o fun obj => { obj with locks := obj.locks + 1 }

/-- A global that was never written holds the default of its type. -/
def global (h : Heap) (p : Program) (g : GlobalId) : Value :=
  (h.globals.get? g).getD (p.globalTy g).default.toValue

def setGlobal (h : Heap) (g : GlobalId) (v : Value) : Heap :=
  { h with globals := h.globals.insert g v }

end Heap

end EscapeAnalysis
