import EscapeAnalysis.Value

/-!
# Debug states

At a safepoint a run may leave compiled code. Its debug state says how to find the locals and the
monitors there, and how to rebuild objects that the code never allocated.
-/

namespace EscapeAnalysis

inductive Shape where
  | inst (cls : ClassId)
  | array (elem : Ty) (len : Nat)
deriving DecidableEq

instance : Inhabited Shape := ⟨.array .int 0⟩

def Shape.elem? : Shape → Option Ty
  | array elem _ => some elem
  | inst _ => none

inductive DebugValue where
  | value (x : InstId)
  | const (c : Const)
  | object (idx : Nat)
  /-- One of the candidates, by the value of `selector`; `other` if that is -1. -/
  | merge (selector other : InstId) (candidates : List DebugValue)

instance : Inhabited DebugValue := ⟨.const .null⟩

namespace DebugValue

mutual

def insts : DebugValue → List InstId
  | value x => [x]
  | const _ | object _ => []
  | merge selector other candidates => selector :: other :: instsAll candidates

def instsAll : List DebugValue → List InstId
  | [] => []
  | v :: vs => v.insts ++ instsAll vs

end

mutual

def mapInsts (r : InstId → InstId) : DebugValue → DebugValue
  | value x => value (r x)
  | const c => const c
  | object idx => object idx
  | merge selector other candidates => merge (r selector) (r other) (mapInstsAll r candidates)

def mapInstsAll (r : InstId → InstId) : List DebugValue → List DebugValue
  | [] => []
  | v :: vs => v.mapInsts r :: mapInstsAll r vs

end

def isValueOf (x : InstId) : DebugValue → Bool
  | value y => y = x
  | _ => false

mutual

theorem insts_mapInsts (r : InstId → InstId) :
    ∀ v : DebugValue, (v.mapInsts r).insts = v.insts.map r
  | value _ | const _ | object _ => rfl
  | merge _ _ candidates => by
    simp [mapInsts, insts, instsAll_mapInstsAll r candidates]

theorem instsAll_mapInstsAll (r : InstId → InstId) :
    ∀ vs : List DebugValue, instsAll (mapInstsAll r vs) = (instsAll vs).map r
  | [] => rfl
  | v :: vs => by
    simp [mapInstsAll, instsAll, insts_mapInsts r v, instsAll_mapInstsAll r vs]

end

end DebugValue

structure MonitorSlot where
  obj : DebugValue
  /-- Compiled code never took this lock, so it has to be taken on leaving compiled code. -/
  eliminated : Bool

structure Recipe where
  shape : Shape
  fields : List DebugValue
deriving Inhabited

structure DebugState where
  locals : List DebugValue := []
  monitors : List MonitorSlot := []
  recipes : List Recipe := []
  /-- The state refers to an object that has not left the method. -/
  hasLocal : Bool := false
deriving Inhabited

namespace DebugState

/-- All debug values: locals, monitors, then the fields of the recipes. -/
def debugValues (s : DebugState) : List DebugValue :=
  s.locals ++ s.monitors.map MonitorSlot.obj ++ s.recipes.flatMap Recipe.fields

def insts (s : DebugState) : List InstId := s.debugValues.flatMap DebugValue.insts

def mapTop (g : DebugValue → DebugValue) (s : DebugState) : DebugState :=
  { s with
    locals := s.locals.map g
    monitors := s.monitors.map fun m => { m with obj := g m.obj } }

def mapInsts (r : InstId → InstId) (s : DebugState) : DebugState :=
  let rename := DebugValue.mapInsts r
  let s := s.mapTop rename
  { s with recipes := s.recipes.map fun o => { o with fields := o.fields.map rename } }

end DebugState

end EscapeAnalysis
