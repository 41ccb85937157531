import EscapeAnalysis.Ir.Body
import EscapeAnalysis.Slot.KeyMap

/-!
# Editing bodies

Adding, placing, renaming and removing instructions.
-/

namespace EscapeAnalysis

namespace Body

def modifyBlock (body : Body) (b : BlockId) (g : Block → Block) : Body :=
  { body with blocks := body.blocks.modify b g }

def modifyState (body : Body) (s : SafepointId) (g : DebugState → DebugState) : Body :=
  { body with states := body.states.modify s g }

def addInst (body : Body) (op : Op) (ty : Option Ty) : InstId × Body :=
  let (x, insts) := body.insts.insert { op, ty }
  (x, { body with insts })

def addState (body : Body) (s : DebugState) : SafepointId × Body :=
  let (key, states) := body.states.insert s
  (key, { body with states })

def setOp (body : Body) (x : InstId) (op : Op) : Body :=
  { body with insts := body.insts.modify x ({ · with op }) }

def setTy (body : Body) (x : InstId) (ty : Option Ty) : Body :=
  { body with insts := body.insts.modify x ({ · with ty }) }

def setTerm (body : Body) (b : BlockId) (term : Terminator) : Body :=
  body.modifyBlock b ({ · with term })

def retarget (body : Body) (b : BlockId) (idx : Nat) (target : BlockId) : Body :=
  body.modifyBlock b fun block => { block with term := block.term.retarget idx target }

/-- Places `x` in block `b` at position `idx`, or at the end of a shorter block. -/
def place (body : Body) (x : InstId) (b : BlockId) (idx : Nat) : Body :=
  body.modifyBlock b fun block =>
    { block with insts := block.insts.insertIdx (min idx block.insts.length) x }

/-- Takes `x` out of all blocks and leaves it in the table. -/
def unplace (body : Body) (x : InstId) : Body :=
  { body with
    blocks := body.blocks.map fun block => { block with insts := block.insts.filter (· ≠ x) } }

def pushInst (body : Body) (b : BlockId) (x : InstId) : Body :=
  body.modifyBlock b fun block => { block with insts := block.insts ++ [x] }

def placeAfterPhis (body : Body) (b : BlockId) (x : InstId) : Body :=
  body.place x b (body.phiCount b)

/-- Whether a block ends with the call of its own `invoke`. -/
def endsInInvoke (block : Block) : Bool :=
  match block.term with
  | .invoke call _ _ => block.insts.getLast? == some call
  | _ => false

/-- Places `x` so that it runs last before control leaves the block: at the end, or right before
the call of an `invoke`. -/
def placeAtEnd (body : Body) (b : BlockId) (x : InstId) : Body :=
  let block := body.block b
  let len := block.insts.length
  body.place x b (if endsInInvoke block then len - 1 else len)

def addPhi (body : Body) (b : BlockId) (ty : Ty) (inputs : List (BlockId × InstId)) :
    InstId × Body :=
  let (x, body) := body.addInst (.phi inputs) (some ty)
  (x, body.placeAfterPhis b x)

/-- Adds a constant to the entry, in front of all that follows the phis there. -/
def addConst (body : Body) (c : Const) : InstId × Body :=
  let (x, body) := body.addInst (.const c) (some c.ty)
  (x, body.placeAfterPhis body.entry x)

def barriersOf (body : Body) (stores : List InstId) : List InstId :=
  body.insts.toList.filterMap fun (x, inst) =>
    match inst.op with
    | .barrier store => if store ∈ stores then some x else none
    | _ => none

/-- Removes the given instructions and the barriers of removed stores, from the blocks and from
the table. -/
def removeInsts (body : Body) (dead : List InstId) : Body :=
  let dead := dead ++ body.barriersOf dead
  { body with
    blocks := body.blocks.map fun block => { block with insts := block.insts.filter (· ∉ dead) }
    insts := body.insts.filter fun x _ => x ∉ dead }

def mapOperands (body : Body) (r : InstId → InstId) : Body :=
  { body with
    insts := body.insts.map fun inst => { inst with op := inst.op.mapOperands r }
    blocks := body.blocks.map fun block => { block with term := block.term.mapOperand r }
    states := body.states.map (DebugState.mapInsts r) }

/-- What `x` is replaced by in the end, if replacements do not go round and round. -/
def resolve (replace : KeyMap .inst InstId) (x : InstId) : InstId :=
  chainEnd replace.get? replace.size x

/-- Replaces operands, following chains of replacements to their ends. -/
def substitute (body : Body) (replace : KeyMap .inst InstId) : Body :=
  body.mapOperands (resolve replace)

end Body

end EscapeAnalysis
