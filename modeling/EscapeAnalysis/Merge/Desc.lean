import EscapeAnalysis.PointsTo.Graph

/-!
# Merges

A merge is a phi that some allocation flows into. Following nested merges down to the other inputs
gives the leaves of a merge, one for each way to get there.
-/

namespace EscapeAnalysis

inductive MergeInput where
  | alloc (n : Nat) (x : InstId)
  | null (x : InstId)
  | phi (x : InstId)
  | unknown (x : InstId)
deriving DecidableEq

namespace MergeInput

def inst : MergeInput → InstId
  | alloc _ x | null x | phi x | unknown x => x

def name : MergeInput → String
  | alloc _ _ => "alloc"
  | null _ => "null"
  | phi _ => "phi"
  | unknown _ => "opaque"

def child? : MergeInput → Option InstId
  | phi x => some x
  | _ => none

end MergeInput

inductive Leaf where
  | alloc (n : Nat) (x : InstId)
  | null
deriving DecidableEq

def Leaf.alloc? : Leaf → Option (Nat × InstId)
  | alloc n x => some (n, x)
  | null => none

/-- The classes of the leaves, if all of them are known to be instances. -/
inductive Shapes where
  | exact (cls : ClassId)
  | poly (classes : List ClassId)
  | unknown
deriving DecidableEq

inductive Obstacle where
  | loopCarried
  | unknownInput
  | arrayLeaf
  | nullableLoad
  | missingField
  /-- A field may be overwritten between the merge and a load of it. -/
  | clobbered
  | polymorphic
  | unsupportedUse
  | escapingInvoke
  /-- A leaf may be allocated again between the merge and a safepoint. -/
  | reallocatedLeaf
  | blacklisted
  | disabled
deriving DecidableEq

def Obstacle.name : Obstacle → String
  | loopCarried => "loop-carried"
  | unknownInput => "opaque-input"
  | arrayLeaf => "array-leaf"
  | nullableLoad => "nullable-load"
  | missingField => "missing-field"
  | clobbered => "clobbered"
  | polymorphic => "polymorphic"
  | unsupportedUse => "unsupported-use"
  | escapingInvoke => "escaping-invoke"
  | reallocatedLeaf => "reallocated-leaf"
  | blacklisted => "blacklisted"
  | disabled => "disabled"

structure MergeDesc where
  phi : InstId
  block : BlockId
  inputs : List (BlockId × MergeInput)
  shapes : Shapes := .unknown
  /-- One entry for each way down to a leaf, in the order of the inputs. -/
  leaves : List Leaf := []
  obstacle : Option Obstacle := none
deriving Inhabited

namespace MergeDesc

def children (d : MergeDesc) : List InstId := d.inputs.filterMap fun (_, i) => i.child?

def allocLeaves (d : MergeDesc) : List (Nat × InstId) := d.leaves.filterMap Leaf.alloc?

def hasNull (d : MergeDesc) : Bool := .null ∈ d.leaves

end MergeDesc

abbrev Merges := SideTable .inst MergeDesc

namespace Merges

/-- A phi that is no merge stands for one without inputs. -/
def desc (m : Merges) (phi : InstId) : MergeDesc := (m.get? phi).getD default

def children (m : Merges) (phi : InstId) : List InstId := (m.desc phi).children

/-- The merges nested in `phi`, at any depth, with `phi` itself. -/
def nested (m : Merges) (phi : InstId) : List InstId :=
  flood .newestFirst m.keys m.children [phi] [phi]

end Merges

def Graph.isNull (g : Graph) (x : InstId) : Bool := g.ptsOf x == .singleton .null

def MergeInput.of (body : Body) (g : Graph) (candidates : List InstId) (x : InstId) : MergeInput :=
  if ((body.op? x).map Op.isAlloc).getD false then
    match g.allocOf.get? x with
    | some n => .alloc n x
    | none => .unknown x
  else if x ∈ candidates then .phi x
  else if g.isNull x then .null x
  else .unknown x

namespace Merges

/-- The phis of references that an allocation may flow into, without those to be left out. -/
def candidates (body : Body) (g : Graph) (leftOut : InstId → Bool) : List InstId :=
  body.flow.order.blocks.flatMap fun b => (body.phis b).filter fun phi =>
    body.isRef phi && !leftOut phi && !(g.allocsOf phi).isEmpty

def ofCandidates (body : Body) (g : Graph) (candidates : List InstId) : Merges :=
  let placement := body.placement
  .ofList <| candidates.filterMap fun phi =>
    match body.op? phi with
    | some (.phi inputs) =>
      some (phi,
        { phi, block := ((placement.get? phi).map Prod.fst).getD .null
          inputs := inputs.map fun (b, x) => (b, .of body g candidates x) })
    | _ => none

end Merges

end EscapeAnalysis
