import EscapeAnalysis.Ir.Edit
import EscapeAnalysis.Locking.Balance

/-!
# Elision of locks

No other thread can take the monitor of an object that never leaves the method. Balanced monitor
operations that plainly name its allocation are removed.
-/

namespace EscapeAnalysis

def Body.monitorUses (body : Body) : List (InstId × InstId) :=
  body.blocks.values.flatMap fun block => block.insts.filterMap fun x =>
    ((body.op? x).bind Op.monitor?).map fun (obj, _) => (x, obj)

namespace Graph

/-- Whether `x` is one allocation for certain, seen through its casts. -/
def isDirect (g : Graph) (body : Body) (x : InstId) : Bool :=
  match g.allocOf.get? (body.underlying x) with
  | some n => g.ptsOf x == .singleton (.alloc n)
  | none => false

/-- The allocations whose monitor operations can go, apart from those that are replaced. -/
def elidable (g : Graph) (body : Body) (replaced : Nat → Bool) : List Nat :=
  let rejected := body.monitorUses.foldl
    (fun s (_, obj) => if g.isDirect body obj then s else s ∪ g.ptsOf obj) (g.unbalanced body)
  let locked := g.locked
  g.allocNumbers.filter fun n =>
    .alloc n ∈ locked && g.escapeOf n == .none && !replaced n && .alloc n ∉ rejected

end Graph

/-- Whether the casts of every monitor operand that is looked at come to an end. All of them are
looked at where some allocation is elidable, and otherwise those that are one node for certain. -/
def Body.tracksMonitors (body : Body) (g : Graph) (replaced : Nat → Bool) : Bool :=
  let all := !(g.elidable body replaced).isEmpty
  body.monitorUses.all fun (_, obj) =>
    (!all && (g.ptsOf obj).size != 1) || (body.castSource? (body.underlying obj)).isNone

/-- Marks a slot as eliminated if its object may come from one of the given instructions. -/
def MonitorSlot.eliminate (g : Graph) (allocs : List InstId) (m : MonitorSlot) : MonitorSlot :=
  match m.obj with
  | .value x =>
    if (g.allocsOf x).any fun n => (g.alloc n).inst ∈ allocs then { m with eliminated := true }
    else m
  | _ => m

/-- Removes monitor operations that no one can observe, and tells how many. -/
def Body.elide (body : Body) (g : Graph) (replaced : Nat → Bool) : Body × Nat :=
  let elided := g.elidable body replaced
  if elided.isEmpty then (body, 0)
  else
    let allocs := elided.map fun n => (g.alloc n).inst
    let dead := (body.monitorUses.filter fun (_, obj) => body.underlying obj ∈ allocs).map
      Prod.fst
    let states := body.states.map fun s =>
      { s with monitors := s.monitors.map (MonitorSlot.eliminate g allocs) }
    ({ body with states }.removeInsts dead, dead.eraseDups.length)

end EscapeAnalysis
