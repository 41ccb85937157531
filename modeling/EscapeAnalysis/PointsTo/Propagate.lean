import EscapeAnalysis.Budget
import EscapeAnalysis.PointsTo.Graph

/-!
# Propagation

Every constraint is applied again and again until none adds a fact, and everything stored in an
escaping object is made to escape, until both hold at once.
-/

namespace EscapeAnalysis

abbrev Growth := Facts × Bool

namespace Graph

/-- Raises the escape state of a node. Only allocations have one that can change. -/
def raise (escape : Escape) (f : Facts) : Node → Growth
  | .alloc n =>
    if f.escapeOf n < escape ∧ n < f.escapes.size then
      ({ f with escapes := f.escapes.setIfInBounds n escape }, true)
    else (f, false)
  | _ => (f, false)

def growAll (step : Facts → Node → Growth) (nodes : List Node) (f : Facts) : Growth :=
  nodes.foldl (fun (f, grew) n =>
    let (f, more) := step f n
    (f, grew || more)) (f, false)

/-- Adds nodes to what `x` may point to, if `x` is a reference. -/
def addTo (f : Facts) (x : InstId) (s : NodeSet) : Growth :=
  match f.pts.get? x with
  | some t => if t ∪ s = t then (f, false) else ({ f with pts := f.pts.insert x (t ∪ s) }, true)
  | none => (f, false)

/-- What a load through a node may find. An object that callees can reach may hold anything. -/
def readNode (g : Graph) (access : Access) (f : Facts) : Node → NodeSet
  | .null => ∅
  | .phantom => .singleton .phantom
  | .alloc n =>
    let found := access.read (g.shapeOf n) g.elemLimit (f.cellsOf n)
    if .none < f.escapeOf n then found.insert .phantom else found

def addToCell (n : Nat) (s : NodeSet) (f : Facts) (c : Cell) : Growth :=
  let cells := f.cellsOf n
  if (cells.get c) ∪ s = cells.get c then (f, false)
  else ({ f with cells := f.cells.modify n (Cells.add c s) }, true)

/-- Stores `s` through a node. What is stored into the phantom escapes. -/
def writeNode (g : Graph) (access : Access) (s : NodeSet) (f : Facts) : Node → Growth
  | .null => (f, false)
  | .phantom => growAll (raise .global) s.toList f
  | .alloc n =>
    if s.isEmpty then (f, false)
    else
      (access.written (g.shapeOf n) g.elemLimit).foldl (fun (f, grew) c =>
        let (f, more) := addToCell n s f c
        (f, grew || more)) (f, false)

/-- Copies elements between two nodes: one by one if the range is known and the elements of the
target are told apart. -/
def copyNode (g : Graph) (range : Option (Nat × Nat × Nat)) (src : Node) (f : Facts) (dst : Node) :
    Growth :=
  let tracked := match dst with
    | .alloc n => g.trackedLen? n
    | _ => none
  match range, tracked with
  | some (srcPos, dstPos, len), some _ =>
    (List.range len).foldl (fun (f, grew) k =>
      let found := g.readNode (.elem (some (srcPos + k))) f src
      let (f, more) := g.writeNode (.elem (some (dstPos + k))) found f dst
      (f, grew || more)) (f, false)
  | _, _ => g.writeNode (.elem none) (g.readNode .allElems f src) f dst

def apply (g : Graph) (f : Facts) : Constraint → Growth
  | .copy dst src => addTo f dst (f.ptsOf src)
  | .load dst base access =>
    addTo f dst ((f.ptsOf base).toList.foldl (fun s n => s ∪ g.readNode access f n) ∅)
  | .store base access value => growAll (g.writeNode access (f.ptsOf value)) (f.ptsOf base).toList f
  | .copyElems src dst range =>
    growAll (fun f s => growAll (g.copyNode range s) (f.ptsOf dst).toList f)
      (f.ptsOf src).toList f
  | .sink value escape => growAll (raise escape) (f.ptsOf value).toList f

def pass (g : Graph) (f : Facts) : Growth :=
  g.constraints.foldl (fun (f, grew) c =>
    let (f, more) := g.apply f c
    (f, grew || more)) (f, false)

/-- Applies the constraints until none adds a fact. Each application is one step. -/
def propagatePointers (g : Graph) (f : Facts) : Metered Growth :=
  Metered.iterate (fun (f, grew) => do
    Metered.ticks g.constraints.length
    let (f, more) := g.pass f
    pure (if more then .inl (f, true) else .inr (f, grew))) (f, false)

/-- Makes what an escaping allocation may hold escape, and lists the allocations concerned in front
of the pending ones. -/
def promote (n : Nat) (pending : List Nat) (f : Facts) : Facts × List Nat × Bool :=
  ((f.cellsOf n).flatMap fun (_, s) => s.toList).foldl (fun (f, pending, grew) target =>
    let (f, raised) := raise .global f target
    (f, if raised then target.alloc?.toList ++ pending else pending, grew || raised))
    (f, pending, false)

/-- Makes everything that can be reached from an escaping allocation escape. -/
def closeEscape (f : Facts) : Metered Growth :=
  let start := (List.range f.escapes.size).filter fun n => .none < f.escapeOf n
  Metered.iterate (fun (f, pending, grew) =>
    match pending with
    | [] => pure (.inr (f, grew))
    | n :: pending => do
      Metered.tick
      let (f, pending, more) := promote n pending f
      pure (.inl (f, pending, grew || more))) (f, start.reverse, false)

/-- Alternates the two until neither adds a fact, for at most `n` rounds. -/
def propagateFacts (g : Graph) (limit : Nat) : Nat → Facts → Bool → Metered Growth
  | 0, _, _ => throw (.iterationLimit limit)
  | n + 1, f, changed => do
    let (f, grew) ← g.propagatePointers f
    let (f, more) ← closeEscape f
    if grew || more then propagateFacts g limit n f true else pure (f, changed)

/-- Brings the graph to its fixpoint, and tells whether that added a fact. -/
def propagate (g : Graph) (settings : Settings) : Metered (Graph × Bool) := do
  let limit := settings.graphIterLimit
  let (facts, changed) ← g.propagateFacts limit limit g.facts false
  pure ({ g with facts }, changed)

end Graph

end EscapeAnalysis
