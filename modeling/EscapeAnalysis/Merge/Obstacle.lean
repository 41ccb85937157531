import EscapeAnalysis.Flow.Region
import EscapeAnalysis.Ir.Uses
import EscapeAnalysis.Merge.Desc

/-!
# Obstacles

A merge can be taken apart if every use of it can be said in terms of its leaves. Loads and
safepoints also need the leaves to be the same objects, with the same contents, as they were at the
merge.
-/

namespace EscapeAnalysis

structure MergeContext where
  program : Program
  body : Body
  graph : Graph
  uses : Uses
  placement : SideTable .inst (BlockId × Nat)
  sites : SideTable .safepoint Site
  order : Order

namespace MergeContext

def ofBody (p : Program) (body : Body) (g : Graph) : MergeContext where
  program := p
  body := body
  graph := g
  uses := body.uses
  placement := body.placement
  sites := body.sites
  order := body.flow.order

def escaping (c : MergeContext) (d : MergeDesc) : Bool :=
  d.allocLeaves.any fun (n, _) => .none < c.graph.escapeOf n

def isArray (c : MergeContext) (n : Nat) : Bool :=
  match c.graph.shapeOf n with
  | .array _ _ => true
  | .inst _ => false

def hasField (c : MergeContext) (f : FieldId) (n : Nat) : Bool :=
  match c.graph.shapeOf n with
  | .inst cls => (c.program.fieldIndex? cls f).isSome
  | .array _ _ => false

def endsInInvoke (c : MergeContext) (b : BlockId) : Bool :=
  match (c.body.block b).term with
  | .invoke _ _ _ => true
  | _ => false

def inputObstacle? (c : MergeContext) (d : MergeDesc) : Option Obstacle :=
  if d.inputs.any fun (_, i) => i == .unknown i.inst then some .unknownInput
  else if d.allocLeaves.any fun (n, _) => c.isArray n then some .arrayLeaf
  else if c.escaping d && d.inputs.any fun (b, _) => c.endsInInvoke b then some .escapingInvoke
  else none

/-- The ways from a merge to a point: from its own block, and from the block of each merge nested in
it to the end of the block it flows in from. -/
def segments (m : Merges) (d : MergeDesc) (stop : Point) : List (BlockId × Point) :=
  ((d.block, stop) :: (m.nested d.phi).flatMap fun phi =>
    (m.desc phi).inputs.filterMap fun (b, i) =>
      i.child?.map fun child => ((m.desc child).block, .atEnd b)).eraseDups

/-- Whether an instruction that `hit` tells may run between a merge and a point. -/
def mayRun (c : MergeContext) (m : Merges) (d : MergeDesc) (stop : Point) (hit : InstId → Bool) :
    Bool :=
  (segments m d stop).any fun (first, stop) => (c.body.instsBetween c.order first stop).any hit

/-- Whether an instruction may change field `f` of a leaf, or make a new object of a leaf. -/
def clobbers (c : MergeContext) (escaping : Bool) (leaves : NodeSet) (allocs : List InstId)
    (f : FieldId) (x : InstId) : Bool :=
  match c.body.op? x with
  | some (.storeField obj stored _) =>
    let pts := c.graph.ptsOf obj
    stored = f && (!pts.disjoint leaves || (escaping && .phantom ∈ pts))
  | some (.call _) => escaping
  | some (.new _) | some (.newArray _ _) => x ∈ allocs
  | _ => false

/-- Whether field `f` of a leaf may change between the merge and the load `x`. -/
def clobbered (c : MergeContext) (m : Merges) (d : MergeDesc) (x : InstId) (f : FieldId) : Bool :=
  let (b, idx) := (c.placement.get? x).getD (.null, 0)
  let leaves := NodeSet.ofList (d.allocLeaves.map fun (n, _) => .alloc n)
  let allocs := (d.allocLeaves.map Prod.snd).eraseDups
  c.mayRun m d (.before b idx) (c.clobbers (c.escaping d) leaves allocs f)

def instObstacle? (c : MergeContext) (m : Merges) (web : List InstId) (d : MergeDesc)
    (user : InstId) : Option Obstacle :=
  match c.body.op? user with
  | some (.phi _) => if user ∈ web then none else some .unsupportedUse
  | some (.loadField _ f) =>
    if d.hasNull then some .nullableLoad
    else if !d.allocLeaves.all fun (n, _) => c.hasField f n then some .missingField
    else if c.clobbered m d user f then some .clobbered
    else none
  | some (.refEq lhs rhs) =>
    let other := if lhs = d.phi then rhs else lhs
    if other ≠ d.phi && c.body.const? other == some .null then none else some .unsupportedUse
  | some (.loadClass _) | some (.instanceOf _ _) =>
    match d.shapes with
    | .exact _ => if d.hasNull then some .polymorphic else none
    | _ => some .polymorphic
  | _ => some .unsupportedUse

def pointOf? (c : MergeContext) (s : SafepointId) : Option Point :=
  (c.sites.get? s).map fun
    | .inst b x => .before b (((c.placement.get? x).map Prod.snd).getD 0)
    | .term b => .atEnd b

def debugObstacle? (c : MergeContext) (m : Merges) (d : MergeDesc) (s : SafepointId) :
    Option Obstacle :=
  let state := c.body.state s
  let total := state.insts.count d.phi
  let top := (state.locals ++ state.monitors.map MonitorSlot.obj).countP (·.isValueOf d.phi)
  if total ≠ top then some .unsupportedUse
  else
    match c.pointOf? s with
    | none => none
    | some stop =>
      let allocs := (d.allocLeaves.map Prod.snd).eraseDups
      if c.mayRun m d stop (· ∈ allocs) then some .reallocatedLeaf else none

def useObstacle? (c : MergeContext) (m : Merges) (web : List InstId) (d : MergeDesc) :
    Use → Option Obstacle
  | .inst user => c.instObstacle? m web d user
  | .term _ => some .unsupportedUse
  | .debug s => c.debugObstacle? m d s

def obstacle? (c : MergeContext) (m : Merges) (web : List InstId) (d : MergeDesc) :
    Option Obstacle :=
  (c.inputObstacle? d).or
    (((c.uses.get? d.phi).getD []).findSome? (c.useObstacle? m web d))

end MergeContext

end EscapeAnalysis
