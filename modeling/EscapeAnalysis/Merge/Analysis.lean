import EscapeAnalysis.Budget
import EscapeAnalysis.Merge.Obstacle
import EscapeAnalysis.Merge.Web

/-!
# Merge analysis

Finds the merges of a method, their webs and leaves, and for every web the first obstacle to taking
it apart.
-/

namespace EscapeAnalysis

structure MergeAnalysis where
  merges : Merges
  webs : List Web
deriving Inhabited

namespace Merges

def inputLeaves (m : Merges) : MergeInput → List Leaf
  | .alloc n x => [.alloc n x]
  | .null _ => [.null]
  | .phi child => (m.desc child).leaves
  | .unknown _ => []

def inputKnown (m : Merges) : MergeInput → Bool
  | .alloc _ _ | .null _ => true
  | .phi child => (m.desc child).shapes ≠ .unknown
  | .unknown _ => false

end Merges

def Graph.classOf? (g : Graph) (n : Nat) : Option ClassId :=
  match g.shapeOf n with
  | .inst cls => some cls
  | .array _ _ => none

def Shapes.ofLeaves (g : Graph) (leaves : List Leaf) : Shapes :=
  let classes := (leaves.filterMap Leaf.alloc?).map fun (n, _) => g.classOf? n
  if classes.any Option.isNone then .unknown
  else
    match (classes.filterMap id).eraseDups with
    | [] => .unknown
    | [cls] => .exact cls
    | classes => .poly classes

namespace Merges

/-- Adds the leaves of a merge. Those of the merges nested in it have been added before. -/
def summarize (g : Graph) (m : Merges) (phi : InstId) : Merges :=
  let d := m.desc phi
  let leaves := d.inputs.flatMap fun (_, i) => m.inputLeaves i
  let shapes := if d.inputs.all fun (_, i) => m.inputKnown i then .ofLeaves g leaves else .unknown
  m.insert phi { d with leaves, shapes }

/-- The same at the cost of one step for each leaf taken over from a nested merge. -/
def summarizeAll (g : Graph) : List InstId → Merges → Metered Merges
  | [], m => pure m
  | phi :: phis, m => do
    (m.children phi).forM fun child => Metered.charge (m.desc child).leaves.length
    summarizeAll g phis (m.summarize g phi)

def setObstacle (o : Option Obstacle) (m : Merges) (phi : InstId) : Merges :=
  m.insert phi { m.desc phi with obstacle := o }

end Merges

namespace MergeAnalysis

def addWeb (c : MergeContext) (blacklist : List InstId) (enabled : Bool) (a : MergeAnalysis)
    (web : Web) : Metered MergeAnalysis := do
  let first :=
    if !enabled then some .disabled
    else if web.phis.any (· ∈ blacklist) then some .blacklisted
    else web.obstacle
  let merges ←
    if first = some .loopCarried then pure a.merges
    else a.merges.summarizeAll c.graph web.phis
  let obstacle :=
    first.or (web.phis.findSome? fun phi => c.obstacle? merges web.phis (merges.desc phi))
  pure
    { merges := web.phis.foldl (Merges.setObstacle obstacle) merges
      webs := a.webs ++ [{ web with obstacle }] }

/-- Analyzes the merges of a method. Phis in `leftOut` are not looked at, and a web that holds a
phi of the blacklist is not taken apart. -/
def compute (p : Program) (body : Body) (g : Graph) (leftOut : InstId → Bool)
    (blacklist : List InstId) (enabled : Bool) : Metered MergeAnalysis := do
  let candidates := Merges.candidates body g leftOut
  let merges := Merges.ofCandidates body g candidates
  let c := MergeContext.ofBody p body g
  (merges.webs candidates).foldlM (addWeb c blacklist enabled) { merges, webs := [] }

def isReducible (a : MergeAnalysis) (phi : InstId) : Bool :=
  match a.merges.get? phi with
  | some d => d.obstacle.isNone
  | none => false

def irreducible (a : MergeAnalysis) : List (InstId × Obstacle) :=
  a.merges.values.filterMap fun d => d.obstacle.map fun o => (d.phi, o)

/-- The webs worth taking apart, with their numbers: some leaf is to be replaced. -/
def reducibleWebs (a : MergeAnalysis) (replaced : Nat → Bool) : List (Web × Nat) :=
  a.webs.zipIdx.filter fun (web, _) =>
    web.obstacle.isNone &&
      web.phis.any fun phi => (a.merges.desc phi).allocLeaves.any fun (n, _) => replaced n

end MergeAnalysis

end EscapeAnalysis
