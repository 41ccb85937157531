import EscapeAnalysis.Heap.Basic
import EscapeAnalysis.Retention

/-!
# Variables for slots

Every slot of an allocation that is to be replaced becomes a variable. The variables of all these
allocations are numbered consecutively.
-/

namespace EscapeAnalysis

/-- An allocation to be replaced. Its slots are the variables from `base` on. -/
structure ScalarObject where
  alloc : Nat
  inst : InstId
  shape : Shape
  base : Nat
  slots : Nat
deriving DecidableEq, Inhabited

def ScalarObject.vars (o : ScalarObject) : List Nat := (List.range o.slots).map (o.base + ·)

structure Layout where
  /-- By number. -/
  objects : List ScalarObject := []
  byInst : SideTable .inst ScalarObject := {}
  vars : Array Ty := #[]
deriving Inhabited

namespace Layout

def find? (l : Layout) (n : Nat) : Option ScalarObject := l.objects.find? (·.alloc = n)

def contains (l : Layout) (n : Nat) : Bool := l.objects.any (·.alloc = n)

def ofInst? (l : Layout) (x : InstId) : Option ScalarObject := l.byInst.get? x

def varTy (l : Layout) (var : Nat) : Ty := l.vars.getD var default

def add (l : Layout) (n : Nat) (x : InstId) (shape : Shape) (tys : List Ty) : Layout :=
  let o := { alloc := n, inst := x, shape, base := l.vars.size, slots := tys.length }
  { objects := l.objects ++ [o], byInst := l.byInst.insert x o, vars := l.vars ++ tys }

end Layout

/-- The shape of an allocation, if its objects all have the same. -/
def AllocShape.fixed? : AllocShape → Option Shape
  | inst cls => some (.inst cls)
  | array elem (some len) => some (.array elem len)
  | array _ none => none

/-- Adds one allocation, at the cost of one step for each slot. -/
def Layout.addAlloc (p : Program) (g : Graph) (l : Layout) (n : Nat) : Metered Layout := do
  let x := (g.alloc n).inst
  match (g.shapeOf n).fixed? with
  | none => throw (.invariant (.noFixedShape x))
  | some shape =>
    let tys := shape.slots p
    Metered.charge tys.length
    pure (l.add n x shape tys)

def Layout.ofRetention (p : Program) (g : Graph) (r : Retention) : Metered Layout :=
  r.replaced.foldlM (Layout.addAlloc p g) {}

end EscapeAnalysis
