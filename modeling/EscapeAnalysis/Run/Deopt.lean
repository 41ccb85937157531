import EscapeAnalysis.Ir.Body
import EscapeAnalysis.Run.Error
import EscapeAnalysis.Run.Exit

/-!
# Leaving compiled code

A debug state is evaluated in the frame of the run that reached it. An object is created when a
debug value first refers to its recipe; its fields are filled in afterwards, so recipes may refer to
each other.
-/

namespace EscapeAnalysis

structure Rebuild where
  heap : Heap
  built : Array (Option ObjRef)
  /-- The recipes whose objects still have to be filled, oldest first. -/
  pending : List Nat := []

namespace Rebuild

variable (program : Program) (values : SideTable .inst Value) (recipes : List Recipe)

def read (x : InstId) : Except RunError Value :=
  match values.get? x with
  | some v => pure v
  | none => throw (.uncomputedDebug x)

/-- The object for a recipe, created on the first reference. -/
def object (r : Rebuild) (idx : Nat) : Except RunError (ObjRef × Rebuild) :=
  match r.built[idx]?, recipes[idx]? with
  | some (some o), _ => pure (o, r)
  | some none, some recipe =>
    let (o, heap) := r.heap.alloc program recipe.shape
    pure (o,
      { heap := { heap with rematerialized := heap.rematerialized + 1 }
        built := r.built.setIfInBounds idx (some o)
        pending := r.pending ++ [idx] })
  | _, _ => throw .objectOutOfRange

mutual

def eval (r : Rebuild) : DebugValue → Except RunError (Value × Rebuild)
  | .value x => do pure (← read values x, r)
  | .const c => pure (c.toValue, r)
  | .object idx => do
    let (o, r) ← object program recipes r idx
    pure (.ref o, r)
  | .merge selector other candidates => do
    match (← read values selector).toInt? with
    | none => throw .nonIntSelector
    | some n =>
      if n = -1 then pure (← read values other, r)
      else if n.toInt < 0 then throw (.selectorOutOfRange n.toInt)
      else evalNth r n.toInt candidates n.toInt.toNat

def evalNth (r : Rebuild) (selector : Int) : List DebugValue → Nat →
    Except RunError (Value × Rebuild)
  | [], _ => throw (.selectorOutOfRange selector)
  | v :: _, 0 => eval r v
  | _ :: vs, n + 1 => evalNth r selector vs n

end

def evalAll (r : Rebuild) : List DebugValue → Except RunError (List Value × Rebuild)
  | [] => pure ([], r)
  | v :: vs => do
    let (w, r) ← eval program values recipes r v
    let (ws, r) ← evalAll r vs
    pure (w :: ws, r)

def lock (r : Rebuild) (o : ObjRef) : Except RunError Rebuild :=
  match r.heap.get? o with
  | none => throw (.noObject o)
  | some obj =>
    if obj.isFull then throw (.lockOverflow o) else pure { r with heap := r.heap.lock o }

/-- Evaluates a monitor slot, and takes the lock if the code did not. -/
def evalMonitor (s : SafepointId) (r : Rebuild) (m : MonitorSlot) :
    Except RunError (Value × Rebuild) := do
  let (v, r) ← eval program values recipes r m.obj
  if m.eliminated then
    match v with
    | .ref o => do pure (v, ← r.lock o)
    | _ => throw (.monitorOfNothing s)
  else pure (v, r)

def evalMonitors (s : SafepointId) (r : Rebuild) :
    List MonitorSlot → Except RunError (List Value × Rebuild)
  | [] => pure ([], r)
  | m :: ms => do
    let (w, r) ← evalMonitor program values recipes s r m
    let (ws, r) ← evalMonitors s r ms
    pure (w :: ws, r)

/-- Writes the values of a recipe into the slots of its object, from slot `idx` on. -/
def fillFields (slots : List Ty) (o : ObjRef) (r : Rebuild) (idx : Nat) :
    List DebugValue → Except RunError Rebuild
  | [] => pure r
  | v :: rest => do
    let (w, r) ← eval program values recipes r v
    match slots[idx]? with
    | none => throw .slotOutOfRange
    | some ty =>
      fillFields slots o { r with heap := r.heap.setField o idx (w.narrow ty) } (idx + 1) rest

/-- Fills the objects that were created, in the order of their creation. A recipe is built once, so
there are at most as many rounds as recipes. -/
def fill : Nat → Rebuild → Except RunError Rebuild
  | 0, r => pure r
  | n + 1, r =>
    match r.pending with
    | [] => pure r
    | idx :: pending =>
      match r.built[idx]?, recipes[idx]? with
      | some (some o), some recipe => do
        let r ← fillFields program values recipes (recipe.shape.slots program) o
          { r with pending } 0 recipe.fields
        fill n r
      | _, _ => throw .objectOutOfRange

end Rebuild

/-- The state of the method at debug state `s`, and the heap with the rebuilt objects. -/
def Body.deoptimize (body : Body) (program : Program) (heap : Heap)
    (values : SideTable .inst Value) (s : SafepointId) : Except RunError (DeoptState × Heap) :=
  match body.states.get? s with
  | none => throw (.noSafepoint s)
  | some state => do
    let recipes := state.recipes
    let r : Rebuild := { heap, built := Array.replicate recipes.length none }
    let (locals, r) ← Rebuild.evalAll program values recipes r state.locals
    let (monitors, r) ← Rebuild.evalMonitors program values recipes s r state.monitors
    let r ← Rebuild.fill program values recipes recipes.length r
    pure ({ safepoint := s, locals, monitors }, r.heap)

end EscapeAnalysis
