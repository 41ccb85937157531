import EscapeAnalysis.Scalar.Commit

/-!
# Recipes for replaced objects

A debug state that names a replaced allocation gets a recipe for it, and recipes for all replaced
objects its fields lead to, numbered in the order in which they are first named.
-/

namespace EscapeAnalysis

namespace DebugValue

mutual

/-- The allocations of a kind that a debug value names, in order. -/
def mentions (gone : InstId → Bool) : DebugValue → List InstId
  | value x => if gone x then [x] else []
  | const _ | object _ => []
  | merge _ _ candidates => mentionsAll gone candidates

def mentionsAll (gone : InstId → Bool) : List DebugValue → List InstId
  | [] => []
  | v :: vs => v.mentions gone ++ mentionsAll gone vs

end

mutual

/-- Names allocations by the numbers of their recipes. -/
def toObjects (index : InstId → Option Nat) : DebugValue → DebugValue
  | value x =>
    match index x with
    | some idx => object idx
    | none => value x
  | const c => const c
  | object idx => object idx
  | merge selector other candidates => merge selector other (toObjectsAll index candidates)

def toObjectsAll (index : InstId → Option Nat) : List DebugValue → List DebugValue
  | [] => []
  | v :: vs => v.toObjects index :: toObjectsAll index vs

end

end DebugValue

/-- A slot whose object is rebuilt has to be locked again. -/
def MonitorSlot.toObjects (index : InstId → Option Nat) (m : MonitorSlot) : MonitorSlot :=
  { obj := m.obj.toObjects index
    eliminated := m.eliminated || match m.obj with
      | .value x => (index x).isSome
      | _ => false }

namespace Committed

/-- The fields of a replaced object at a safepoint. -/
def fieldsAt? (c : Committed) (sp : SafepointId) (x : InstId) : Option (List DebugValue) :=
  (c.records.get? sp).bind fun r => r.lookup x

def isGone (c : Committed) (x : InstId) : Bool := (c.layout.ofInst? x).isSome

/-- The replaced allocations that a debug state leads to, in the order in which they are named. -/
def described (c : Committed) (sp : SafepointId) (s : DebugState) : List InstId :=
  let roots := ((s.locals ++ s.monitors.map MonitorSlot.obj).flatMap
    (DebugValue.mentions c.isGone)).eraseDups
  let next (x : InstId) : List InstId :=
    ((c.fieldsAt? sp x).getD []).flatMap (DebugValue.mentions c.isGone)
  flood .oldestFirst c.eliminated next roots roots

def recipe (c : Committed) (sp : SafepointId) (index : InstId → Option Nat) (x : InstId) :
    Except Breach Recipe :=
  match c.fieldsAt? sp x with
  | some fields =>
    .ok { shape := ((c.layout.ofInst? x).map ScalarObject.shape).getD default
          fields := fields.map (DebugValue.toObjects index) }
  | none => .error (.unrecorded sp x)

def describe (c : Committed) (sp : SafepointId) (s : DebugState) : Except Breach DebugState := do
  let allocs := c.described sp s
  let index (x : InstId) : Option Nat := (allocs.idxOf? x).map (s.recipes.length + ·)
  let recipes ← allocs.mapM (c.recipe sp index)
  pure
    { s with
      locals := s.locals.map (DebugValue.toObjects index)
      monitors := s.monitors.map (MonitorSlot.toObjects index)
      recipes := s.recipes ++ recipes }

def emit (c : Committed) : Except Breach Body :=
  c.body.states.toList.foldlM (fun body (sp, s) => do
    let s ← c.describe sp s
    pure (body.modifyState sp fun _ => s)) c.body

end Committed

end EscapeAnalysis
