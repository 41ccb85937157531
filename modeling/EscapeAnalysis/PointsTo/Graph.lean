import EscapeAnalysis.Flow.Graph
import EscapeAnalysis.PointsTo.Node
import EscapeAnalysis.Program
import EscapeAnalysis.Settings

/-!
# The points-to graph of a method

Reading the code once gives the allocations, the first facts about them and a list of constraints.
-/

namespace EscapeAnalysis

structure Allocation where
  inst : InstId
  shape : AllocShape
deriving DecidableEq, Inhabited

inductive Constraint where
  | copy (dst src : InstId)
  | load (dst base : InstId) (access : Access)
  | store (base : InstId) (access : Access) (value : InstId)
  /-- Elements of `src` are copied to `dst`. The range is the two positions and the length, if all
  three are known. -/
  | copyElems (src dst : InstId) (range : Option (Nat × Nat × Nat))
  | sink (value : InstId) (escape : Escape)
deriving DecidableEq

structure Facts where
  pts : SideTable .inst NodeSet := {}
  escapes : Array Escape := #[]
  cells : Array Cells := #[]
deriving Inhabited

structure Graph where
  allocs : Array Allocation := #[]
  allocOf : SideTable .inst Nat := {}
  constraints : List Constraint := []
  phis : List InstId := []
  monitors : List InstId := []
  elemLimit : Nat
  facts : Facts := {}
deriving Inhabited

namespace Facts

def ptsOf (f : Facts) (x : InstId) : NodeSet := (f.pts.get? x).getD ∅

def escapeOf (f : Facts) (n : Nat) : Escape := f.escapes.getD n .none

def cellsOf (f : Facts) (n : Nat) : Cells := f.cells.getD n []

end Facts

namespace Graph

/-- The two positions and the length of a copy, if all three are known. -/
def copyRange? (body : Body) (srcPos dstPos len : InstId) : Option (Nat × Nat × Nat) :=
  match body.constNat? srcPos, body.constNat? dstPos, body.constNat? len with
  | some i, some j, some n => some (i, j, n)
  | _, _, _ => none

def addConstraints (g : Graph) (cs : List Constraint) : Graph :=
  { g with constraints := g.constraints ++ cs }

def addPts (g : Graph) (x : InstId) (s : NodeSet) : Graph :=
  { g with facts := { g.facts with pts := g.facts.pts.alter x fun t => t.getD ∅ ∪ s } }

def addAlloc (g : Graph) (x : InstId) (shape : AllocShape) (escape : Escape) : Graph :=
  let n := g.allocs.size
  let g := g.addPts x (.singleton (.alloc n))
  { g with
    allocs := g.allocs.push { inst := x, shape }
    allocOf := g.allocOf.insert x n
    facts :=
      { g.facts with escapes := g.facts.escapes.push escape, cells := g.facts.cells.push [] } }

def callSinks (p : Program) (body : Body) (c : Call) : List Constraint :=
  c.args.zipIdx.filterMap fun (arg, idx) =>
    if body.isRef arg then
      some (.sink arg (match (p.callee c.callee).argEffect idx with
        | .escapes => .global
        | .borrows => .arg))
    else none

def addInst (p : Program) (body : Body) (g : Graph) (x : InstId) : Graph :=
  let isRef := body.isRef x
  let g := if isRef then
    { g with facts := { g.facts with pts := g.facts.pts.insert x ∅ } } else g
  match body.op? x with
  | some (.new c) =>
    g.addAlloc x (.inst c) (if (p.cls c).flags.any then .global else .none)
  | some (.newArray elem len) => g.addAlloc x (.array elem (body.constNat? len)) .none
  | some (.const .null) => g.addPts x (.singleton .null)
  | some (.param _) | some (.loadGlobal _) | some .exception =>
    if isRef then g.addPts x (.singleton .phantom) else g
  | some (.call c) =>
    let g := g.addConstraints (callSinks p body c)
    if isRef then g.addPts x (.singleton .phantom) else g
  | some (.phi inputs) =>
    if isRef then
      let g := { g with phis := g.phis ++ [x] }
      g.addConstraints (inputs.map fun (_, y) => .copy x y)
    else g
  | some (.checkCast obj _) => g.addConstraints [.copy x obj]
  | some (.loadField obj f) => if isRef then g.addConstraints [.load x obj (.field f)] else g
  | some (.loadElem array index) =>
    if isRef then g.addConstraints [.load x array (.elem (body.constNat? index))] else g
  | some (.storeField obj f value) =>
    if body.isRef value then g.addConstraints [.store obj (.field f) value] else g
  | some (.storeElem array index value) =>
    if body.isRef value then
      g.addConstraints [.store array (.elem (body.constNat? index)) value] else g
  | some (.arrayFill array value) =>
    if body.isRef value then g.addConstraints [.store array .allElems value] else g
  | some (.arrayCopy src srcPos dst dstPos len) =>
    g.addConstraints [.copyElems src dst (copyRange? body srcPos dstPos len)]
  | some (.storeGlobal _ value) =>
    if body.isRef value then g.addConstraints [.sink value .global] else g
  | some (.monitorEnter obj) => { g with monitors := g.monitors ++ [obj] }
  | _ => g

/-- What the end of a block adds to the graph: results leave the method. -/
def addTerm (g : Graph) : Terminator → Graph
  | .ret (some x) | .throw x => g.addConstraints [.sink x .global]
  | _ => g

def ofBody (p : Program) (body : Body) (settings : Settings) : Graph :=
  body.flow.order.blocks.foldl (fun g b =>
    let block := body.block b
    (block.insts.foldl (addInst p body) g).addTerm block.term)
    { elemLimit := settings.arraySizeLimit }

def ptsOf (g : Graph) (x : InstId) : NodeSet := g.facts.ptsOf x

def allocsOf (g : Graph) (x : InstId) : List Nat := (g.ptsOf x).allocs

/-- Whether `x` may refer to several objects. Null does not count. -/
def isAmbiguous (g : Graph) (x : InstId) : Bool :=
  1 < ((g.ptsOf x).toList.filter (· ≠ .null)).length

def mayBeNull (g : Graph) (x : InstId) : Bool := .null ∈ g.ptsOf x

def allocCount (g : Graph) : Nat := g.allocs.size

def allocNumbers (g : Graph) : List Nat := List.range g.allocs.size

def alloc (g : Graph) (n : Nat) : Allocation := g.allocs.getD n default

def shapeOf (g : Graph) (n : Nat) : AllocShape := (g.alloc n).shape

def escapeOf (g : Graph) (n : Nat) : Escape := g.facts.escapeOf n

def cellsOf (g : Graph) (n : Nat) : Cells := g.facts.cellsOf n

def escapeOfInst? (g : Graph) (x : InstId) : Option Escape := (g.allocOf.get? x).map g.escapeOf

def trackedLen? (g : Graph) (n : Nat) : Option Nat := (g.shapeOf n).trackedLen? g.elemLimit

def mergeUses (g : Graph) (n : Nat) : List InstId := g.phis.filter fun x => .alloc n ∈ g.ptsOf x

def locked (g : Graph) : NodeSet := g.monitors.foldl (fun s x => s ∪ g.ptsOf x) ∅

/-- Whether some elements of an allocation are not told apart. -/
def hasSummary (g : Graph) (n : Nat) : Bool := (g.cellsOf n).any fun (c, _) => c == .anyElem

end Graph

end EscapeAnalysis
