import EscapeAnalysis.Flow.Frontier
import EscapeAnalysis.Scalar.Planner

/-!
# Renaming

Each variable gets a phi wherever values from several writes may meet. Going down the dominator
tree, a block starts with the values at the end of its immediate dominator, and hands its own values
to the phis of its successors.
-/

namespace EscapeAnalysis

def Op.writtenTo? : Op → Option InstId
  | .storeField obj _ _ => some obj
  | .storeElem array _ _ | .rawStore array _ _ _ | .arrayFill array _ => some array
  | .arrayCopy _ _ dst _ _ => some dst
  | _ => none

namespace PlanContext

variable (c : PlanContext)

def writes : List (BlockId × NodeSet) :=
  c.body.flow.order.blocks.flatMap fun b => (c.body.block b).insts.filterMap fun x =>
    ((c.body.op? x).bind Op.writtenTo?).map fun base => (b, c.graph.ptsOf base)

/-- The blocks that allocate an object or write to it. -/
def defBlocks (placement : SideTable .inst (BlockId × Nat)) (writes : List (BlockId × NodeSet))
    (o : ScalarObject) : List BlockId :=
  ((placement.get? o.inst).map Prod.fst).toList ++
    (writes.filter fun (_, pts) => .alloc o.alloc ∈ pts).map Prod.fst

/-- The phis of all variables: object by object, block by block. -/
def varPhis (frontiers : Frontiers) : List VarPhi :=
  let placement := c.body.placement
  let writes := c.writes
  c.layout.objects.flatMap fun o =>
    (frontiers.iterated (defBlocks placement writes o)).flatMap fun b =>
      o.vars.map fun var => { block := b, var }

def startEnv : Array Scalar := c.layout.vars.map fun ty => .const ty.default

def phisByBlock (phis : List VarPhi) : SideTable .block (List Nat) :=
  phis.zipIdx.reverse.foldl (fun t (phi, idx) => t.alter phi.block fun l => idx :: l.getD []) {}

/-- Hands the current value of its variable to a phi. -/
def addInput (b : BlockId) (s : Planner) (idx : Nat) : Planner :=
  let v := s.get (s.phis.getD idx default).var
  { s with phis := s.phis.modify idx fun phi => { phi with inputs := phi.inputs ++ [(b, v)] } }

/-- The successors of a block by key, each once. -/
def distinctTargets (b : BlockId) : List BlockId :=
  ((c.body.block b).term.targets.eraseDups).mergeSort Key.le

/-- The planner at the start of the code of a block, where its phis are the values of their
variables. -/
def enter (phisOf : SideTable .block (List Nat)) (s : Planner) (b : BlockId) : Planner :=
  ((phisOf.get? b).getD []).foldl (fun s idx => s.set (s.phis.getD idx default).var (.phi idx)) s

/-- Plans instructions one by one, at the cost of a step each. -/
def planCode (b : BlockId) : List InstId → Planner → Metered Planner
  | [], s => pure s
  | x :: xs, s => do
    Metered.tick
    Metered.demand ((c.follows s x).all (c.settles s))
    planCode b xs (c.planInst b s x)

def planTerm (b : BlockId) (s : Planner) : Metered Planner :=
  match (c.body.block b).term with
  | .deopt sp => do
    Metered.demand ((c.snapshotFollows s sp).all (c.settles s))
    pure (c.snapshot s sp)
  | _ => pure s

/-- Hands the values at the end of a block to the phis of its successors. -/
def feed (phisOf : SideTable .block (List Nat)) (b : BlockId) (s : Planner) : Planner :=
  ((c.distinctTargets b).flatMap fun d => (phisOf.get? d).getD []).foldl (addInput b) s

def visitBlock (phisOf : SideTable .block (List Nat)) (s : Planner) (b : BlockId) :
    Metered Planner := do
  let s ← c.planCode b (c.body.code b) (enter phisOf s b)
  let s ← c.planTerm b s
  pure (c.feed phisOf b s)

/-- Plans the blocks in the given order, in which each comes after its immediate dominator. -/
def planBlocks (dom : DomTree) (phisOf : SideTable .block (List Nat)) :
    List BlockId → SideTable .block (Array Scalar) → Planner → Metered Planner
  | [], _, s => pure s
  | b :: bs, ends, s => do
    let env := ((dom.idom? b).bind ends.get?).getD c.startEnv
    let s ← c.visitBlock phisOf { s with env } b
    planBlocks dom phisOf bs (ends.insert b s.env) s

def rename : Metered Planner := do
  let g := c.body.flow
  let dom := DomTree.ofFlow g g.order
  let phis := c.varPhis (Frontiers.ofTree g dom)
  Metered.ticks phis.length
  c.planBlocks dom (phisByBlock phis) dom.preorder {} { env := #[], phis := phis.toArray }

end PlanContext

end EscapeAnalysis
