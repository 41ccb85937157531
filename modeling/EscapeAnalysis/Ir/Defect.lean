import EscapeAnalysis.Flow.Dominators
import EscapeAnalysis.Ir.Uses
import EscapeAnalysis.Program

/-!
# Well-formed bodies

A body is well formed if every value is computed before it is read: the instruction that a use
names stands earlier in the same block or in a block that dominates the use. `Body.check` reports
the first defect it finds.
-/

namespace EscapeAnalysis

inductive Defect where
  | dangling (x : InstId)
  | duplicatePlacement (x : InstId)
  | unplacedOperand (user : Use) (operand : InstId)
  | notDominated (user : Use) (operand : InstId)
  | misplacedPhi (phi : InstId) (block : BlockId)
  | phiInputs (phi : InstId) (found expected : List BlockId)
  | detachedInvoke (block : BlockId)
  | danglingBarrier (barrier store : InstId)
  | selfReferencingSafepoint (state : SafepointId)
  | recipeShape (state : SafepointId) (idx found expected : Nat)
  | missingObject (state : SafepointId) (idx : Nat)
deriving DecidableEq

namespace Defect

def kind : Defect → String
  | dangling _ => "dangling"
  | duplicatePlacement _ => "duplicate-placement"
  | unplacedOperand _ _ => "unplaced-operand"
  | notDominated _ _ => "not-dominated"
  | misplacedPhi _ _ => "misplaced-phi"
  | phiInputs _ _ _ => "phi-inputs"
  | detachedInvoke _ => "detached-invoke"
  | danglingBarrier _ _ => "dangling-barrier"
  | selfReferencingSafepoint _ => "self-referencing-safepoint"
  | recipeShape _ _ _ _ => "recipe-shape"
  | missingObject _ _ => "missing-object"

def message : Defect → String
  | dangling x => s!"{x.text} is not an instruction"
  | duplicatePlacement x => s!"{x.text} is placed more than once"
  | unplacedOperand user operand => s!"{user.text} uses {operand.text}, which is not placed"
  | notDominated user operand =>
    s!"{user.text} uses {operand.text}, which does not dominate it"
  | misplacedPhi phi block => s!"phi {phi.text} is not at the start of {block.text}"
  | phiInputs phi found expected =>
    let inputs := Key.listText found
    let preds := Key.listText expected
    s!"phi {phi.text} has inputs from {inputs}, but the predecessors are {preds}"
  | detachedInvoke block => s!"the invoke ending {block.text} is not preceded by its call"
  | danglingBarrier barrier store =>
    s!"barrier {barrier.text} refers to {store.text}, which is not a placed store"
  | selfReferencingSafepoint state =>
    s!"the debug state of {state.text} refers to the result of its own call"
  | recipeShape state idx found expected =>
    s!"object #{idx} of {state.text} has {found} fields, but its shape has {expected}"
  | missingObject state idx => s!"{state.text} refers to object #{idx}, which does not exist"

end Defect

structure Checker where
  program : Program
  body : Body
  flow : Flow
  order : Order
  dom : DomTree
  placement : SideTable .inst (BlockId × Nat)

namespace Checker

def ofBody (program : Program) (body : Body) : Checker :=
  let flow := body.flow
  let order := flow.order
  { program, body, flow, order, dom := .ofFlow flow order, placement := body.placement }

/-- Finds the first of the given instructions that occurred before. -/
def checkDistinct : List InstId → SideTable .inst Unit → Except Defect Unit
  | [], _ => pure ()
  | x :: xs, seen =>
    if seen.contains x then throw (.duplicatePlacement x) else checkDistinct xs (seen.insert x ())

def checkPlacement (c : Checker) : Except Defect Unit :=
  checkDistinct (c.body.blocks.toList.flatMap fun (_, block) => block.insts) .empty

def checkPlaced (c : Checker) (user : Use) (operand : InstId) : Except Defect Unit :=
  if c.placement.contains operand then pure () else throw (.unplacedOperand user operand)

/-- The value of `operand` is there right before position `idx` of block `b`. -/
def checkAvailable (c : Checker) (user : Use) (b : BlockId) (idx : Nat) (operand : InstId) :
    Except Defect Unit :=
  match c.placement.get? operand with
  | none => throw (.unplacedOperand user operand)
  | some (defBlock, defIdx) =>
    if if defBlock = b then defIdx < idx else c.dom.dominates defBlock b then pure ()
    else throw (.notDominated user operand)

def reachablePreds (c : Checker) (b : BlockId) : List BlockId :=
  (c.flow.preds b).filter c.order.reaches

/-- A phi stands among the leading phis, has one input per predecessor, and each input is there at
the end of its predecessor. -/
def checkPhi (c : Checker) (b : BlockId) (idx : Nat) (phi : InstId)
    (inputs : List (BlockId × InstId)) : Except Defect Unit := do
  if c.body.phiCount b ≤ idx then throw (.misplacedPhi phi b)
  let found := (inputs.map Prod.fst).mergeSort Key.le
  let expected := c.reachablePreds b
  if found ≠ expected then throw (.phiInputs phi found expected)
  inputs.forM fun (pred, operand) =>
    c.checkAvailable (.inst phi) pred (c.body.block pred).insts.length operand

def checkBarrier (c : Checker) (barrier store : InstId) : Except Defect Unit :=
  if ((c.body.op? store).map Op.isRefStore).getD false && c.placement.contains store then pure ()
  else throw (.danglingBarrier barrier store)

def checkInst (c : Checker) (b : BlockId) (idx : Nat) (x : InstId) : Except Defect Unit :=
  match c.body.op? x with
  | none => throw (.dangling x)
  | some (.phi inputs) => c.checkPhi b idx x inputs
  | some (.barrier store) => c.checkBarrier x store
  | some op => op.operands.forM (c.checkAvailable (.inst x) b idx)

def checkTerm (c : Checker) (b : BlockId) : Except Defect Unit := do
  let block := c.body.block b
  block.term.operand?.toList.forM (c.checkAvailable (.term b) b block.insts.length)
  match block.term with
  | .invoke call _ _ =>
    if ((c.body.op? call).map Op.isCall).getD false && block.insts.getLast? == some call then
      pure ()
    else throw (.detachedInvoke b)
  | _ => pure ()

def checkBlock (c : Checker) (b : BlockId) : Except Defect Unit := do
  (c.body.block b).insts.zipIdx.forM fun (x, idx) => c.checkInst b idx x
  c.checkTerm b

mutual

/-- The recipes a debug value refers to exist. The last candidate of a merge is looked at first. -/
def checkObjects (s : SafepointId) (count : Nat) : DebugValue → Except Defect Unit
  | .object idx => if idx < count then pure () else throw (.missingObject s idx)
  | .merge _ _ candidates => checkObjectsAll s count candidates
  | .value _ | .const _ => pure ()

def checkObjectsAll (s : SafepointId) (count : Nat) : List DebugValue → Except Defect Unit
  | [] => pure ()
  | v :: vs => do
    checkObjectsAll s count vs
    checkObjects s count v

end

def slotCount (program : Program) : Shape → Nat
  | .inst cls => (program.layout cls).length
  | .array _ len => len

/-- Everything a debug state names is there where the state is observed, and its recipes are
complete. Values that have no place at all are found before values that are out of reach, and of
the latter the last one named is found first. -/
def checkState (c : Checker) (s : SafepointId) (site : Site) : Except Defect Unit := do
  let state := c.body.state s
  let (idx, own) : Nat × Option InstId :=
    match site with
    | .inst _ x => (((c.placement.get? x).map Prod.snd).getD 0, some x)
    | .term b => ((c.body.block b).insts.length, none)
  state.insts.forM (c.checkPlaced (.debug s))
  state.insts.reverse.forM fun operand =>
    if own = some operand then throw (.selfReferencingSafepoint s)
    else c.checkAvailable (.debug s) site.block idx operand
  let objects := checkObjects s state.recipes.length
  state.locals.forM objects
  state.monitors.forM fun m => objects m.obj
  state.recipes.zipIdx.forM fun (recipe, idx) => do
    let expected := slotCount c.program recipe.shape
    if recipe.fields.length ≠ expected then
      throw (.recipeShape s idx recipe.fields.length expected)
    recipe.fields.forM objects

end Checker

/-- Looks for a defect: in the placement, in the reachable blocks, then in the debug states that
are observed in them. -/
def Body.check (body : Body) (program : Program) : Except Defect Unit := do
  let c := Checker.ofBody program body
  c.checkPlacement
  c.order.blocks.forM c.checkBlock
  body.sites.toList.forM fun (s, site) =>
    if c.order.reaches site.block then c.checkState s site else pure ()

end EscapeAnalysis
