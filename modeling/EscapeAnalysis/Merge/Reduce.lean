import EscapeAnalysis.Merge.Analysis
import EscapeAnalysis.Merge.Part

/-!
# Reduction of merges

Taking a web apart replaces every use of its merges by a part of the merge or by a constant, and
removes the merges. After that its allocations no longer flow through a phi.
-/

namespace EscapeAnalysis

structure Registry where
  reduced : List InstId := []
  /-- The phis that carry the kept leaves of merges. -/
  carriers : List InstId := []
  /-- The allocations that have to be replaced for the reductions to be right. -/
  leaves : List InstId := []
deriving Inhabited

namespace Registry

def register (r : Registry) (phi : InstId) : Except Fault Registry :=
  if phi ∈ r.reduced then .error (.doubleRegistration phi)
  else .ok { r with reduced := phi :: r.reduced }

def isReduced (r : Registry) (phi : InstId) : Bool := phi ∈ r.reduced

def isCarrier (r : Registry) (phi : InstId) : Bool := phi ∈ r.carriers

def addLeaf (r : Registry) (x : InstId) : Registry :=
  { r with leaves := r.leaves.insert x }

end Registry

structure Reduction where
  splitter : Splitter
  registry : Registry
  replace : KeyMap .inst InstId := {}
  dead : List InstId := []
  reduced : List InstId := []

namespace Reduction

variable (p : Program) (a : MergeAnalysis) (replaced : Nat → Bool)

def part (web : Web) (part : MergePart) (phi : InstId) : StateM Splitter InstId :=
  Splitter.part p a.merges replaced web.phis.reverse part phi

/-- What takes the place of a use of `phi`. A phi of the web goes away by itself. -/
def valueFor (web : Web) (phi user : InstId) (body : Body) :
    Except Breach (Option (StateM Splitter InstId)) :=
  match body.op? user with
  | some (.phi _) => .ok none
  | some (.loadField _ f) => .ok (some (part p a replaced web (.field f) phi))
  | some (.refEq _ _) => .ok (some (part p a replaced web .isNull phi))
  | some (.loadClass _) =>
    match (a.merges.desc phi).shapes with
    | .exact cls => .ok (some (Splitter.constant (.cls cls)))
    | _ => .error (.classOfPolymorphic phi)
  | some (.instanceOf _ cls) =>
    match (a.merges.desc phi).shapes with
    | .exact exact =>
      .ok (some (Splitter.constant (.int (if p.isSubclass exact cls then 1 else 0))))
    | _ => .error (.typeCheckOfPolymorphic phi)
  | _ => .error (.unexpectedUse phi)

def replaceUse (web : Web) (phi : InstId) (r : Reduction) : Use → Except Breach Reduction
  | .inst user => do
    match ← valueFor p a replaced web phi user r.splitter.body with
    | none => pure r
    | some value =>
      let (x, splitter) := value.run r.splitter
      pure { r with splitter, replace := r.replace.insert user x, dead := user :: r.dead }
  | .term _ | .debug _ => pure r

def debugValue (web : Web) (phi : InstId) : StateM Splitter DebugValue := do
  let selector ← part p a replaced web (.selector 0) phi
  let other ← part p a replaced web .kept phi
  pure (.merge selector other ((a.merges.desc phi).leaves.map fun
    | .alloc n x => if replaced n then .value x else .const .null
    | .null => .const .null))

def debugState? : Use → Option SafepointId
  | .debug s => some s
  | _ => none

/-- Lets debug states name the leaves in place of `phi`. -/
def replaceInStates (web : Web) (phi : InstId) (states : List SafepointId) (r : Reduction) :
    Reduction :=
  if states.isEmpty then r
  else
    let (value, splitter) := (debugValue p a replaced web phi).run r.splitter
    let replaceIn (body : Body) (s : SafepointId) : Body :=
      body.modifyState s (DebugState.mapTop fun v => if v.isValueOf phi then value else v)
    { r with splitter := { splitter with body := states.foldl replaceIn splitter.body } }

def reducePhi (uses : Uses) (web : Web) (r : Reduction) (phi : InstId) :
    Except Breach Reduction := do
  let users := (uses.get? phi).getD []
  let r ← users.foldlM (replaceUse p a replaced web phi) r
  let r := replaceInStates p a replaced web phi (users.filterMap debugState?) r
  pure { r with dead := phi :: r.dead, reduced := r.reduced ++ [phi] }

def reduceWeb (uses : Uses) (r : Reduction) (web : Web) : Except Fault Reduction := do
  if web.obstacle.isSome then throw (.invariant (.irreducibleWeb web.phis.getLast?))
  let registry ← web.phis.foldlM Registry.register r.registry
  let reducePhi := reducePhi p a replaced uses web
  let r ← (web.phis.foldlM reducePhi { r with registry }).mapError .invariant
  let leaves := web.phis.flatMap fun phi => (a.merges.desc phi).allocLeaves
  let leaves := (leaves.filter fun (n, _) => replaced n).map Prod.snd
  pure { r with registry := leaves.foldl Registry.addLeaf r.registry }

end Reduction

/-- Takes the given webs apart. The answer is the new body, what is left behind, and the merges
taken apart. -/
def Body.reduce (p : Program) (body : Body) (a : MergeAnalysis) (replaced : Nat → Bool)
    (registry : Registry) (webs : List Web) : Except Fault (Body × Registry × List InstId) := do
  let r ← webs.foldlM (Reduction.reduceWeb p a replaced body.uses)
    { splitter := { body }, registry }
  let carriers := r.splitter.parts.filterMap fun ((_, part), x) =>
    if part = .kept then some x else none
  let body := (r.splitter.body.substitute r.replace).removeInsts r.dead
  pure (body, { r.registry with carriers := carriers ++ r.registry.carriers }, r.reduced)

end EscapeAnalysis
