import EscapeAnalysis.Chain
import EscapeAnalysis.Ir.DebugState
import EscapeAnalysis.Ir.Op
import EscapeAnalysis.Slot.SideTable
import EscapeAnalysis.Slot.Table

/-!
# Method bodies

A body is a control-flow graph of blocks over a table of instructions. A block lists the
instructions it runs, phis first, and ends with a terminator.
-/

namespace EscapeAnalysis

inductive Terminator where
  | unreachable
  | jump (target : BlockId)
  | branch (cond : InstId) (onTrue onFalse : BlockId)
  | ret (value : Option InstId)
  | throw (value : InstId)
  | deopt (state : SafepointId)
  /-- Ends a block whose last instruction is the call. -/
  | invoke (call : InstId) (normal unwind : BlockId)
deriving DecidableEq

namespace Terminator

def targets : Terminator → List BlockId
  | unreachable | ret _ | throw _ | deopt _ => []
  | jump target => [target]
  | branch _ onTrue onFalse => [onTrue, onFalse]
  | invoke _ normal unwind => [normal, unwind]

/-- The value the terminator reads. The call of an `invoke` is run by its block and not read. -/
def operand? : Terminator → Option InstId
  | branch cond _ _ => some cond
  | ret value => value
  | throw value => some value
  | _ => none

def mapOperand (r : InstId → InstId) : Terminator → Terminator
  | branch cond onTrue onFalse => branch (r cond) onTrue onFalse
  | ret value => ret (value.map r)
  | throw value => throw (r value)
  | t => t

/-- Renames the operand and the call of an `invoke`. -/
def mapRefs (r : InstId → InstId) : Terminator → Terminator
  | invoke call normal unwind => invoke (r call) normal unwind
  | t => t.mapOperand r

def retarget (t : Terminator) (idx : Nat) (b : BlockId) : Terminator :=
  match t, idx with
  | jump _, 0 => jump b
  | branch cond _ onFalse, 0 => branch cond b onFalse
  | branch cond onTrue _, 1 => branch cond onTrue b
  | invoke call _ unwind, 0 => invoke call b unwind
  | invoke call normal _, 1 => invoke call normal b
  | t, _ => t

end Terminator

structure Block where
  name : String := ""
  insts : List InstId := []
  term : Terminator := .unreachable
deriving Inhabited

structure Body where
  blocks : SlotTable .block Block
  insts : SlotTable .inst Inst
  states : SlotTable .safepoint DebugState
  entry : BlockId
  params : List Ty
  ret : Option Ty
deriving Inhabited

inductive Site where
  | inst (block : BlockId) (x : InstId)
  | term (block : BlockId)
deriving DecidableEq

def Site.block : Site → BlockId
  | inst b _ | term b => b

namespace Body

/-- A key that names no block stands for the empty block. -/
def block (body : Body) (b : BlockId) : Block := (body.blocks.get? b).getD default

def inst? (body : Body) (x : InstId) : Option Inst := body.insts.get? x

def op? (body : Body) (x : InstId) : Option Op := (body.inst? x).map Inst.op

def ty? (body : Body) (x : InstId) : Option Ty := (body.inst? x).bind Inst.ty

def isRef (body : Body) (x : InstId) : Bool := body.ty? x == some .ref

def const? (body : Body) (x : InstId) : Option Const := (body.op? x).bind Op.toConst?

/-- The number that an instruction yields if it is a non-negative int constant. -/
def constNat? (body : Body) (x : InstId) : Option Nat := (body.const? x).bind Const.toNat?

def state (body : Body) (s : SafepointId) : DebugState := (body.states.get? s).getD default

def isPhi (body : Body) (x : InstId) : Bool := ((body.op? x).map Op.isPhi).getD false

def phis (body : Body) (b : BlockId) : List InstId := (body.block b).insts.takeWhile body.isPhi

def phiCount (body : Body) (b : BlockId) : Nat := (body.phis b).length

def code (body : Body) (b : BlockId) : List InstId := (body.block b).insts.dropWhile body.isPhi

/-- The block and the position of every placed instruction. Of two places, the one in the later
block counts, or the later one in its block. -/
def placement (body : Body) : SideTable .inst (BlockId × Nat) :=
  .ofList <| body.blocks.toList.flatMap fun (b, block) =>
    block.insts.zipIdx.map fun (x, idx) => (x, (b, idx))

def sites (body : Body) : SideTable .safepoint Site :=
  .ofList <| body.blocks.toList.flatMap fun (b, block) =>
    block.insts.filterMap (fun x =>
      ((body.op? x).bind Op.safepoint?).map fun s => (s, Site.inst b x)) ++
    match block.term with
    | .deopt s => [(s, Site.term b)]
    | _ => []

def castSource? (body : Body) (x : InstId) : Option InstId :=
  match body.op? x with
  | some (.checkCast obj _) => some obj
  | _ => none

/-- The instruction whose identity `x` has: `x` without its casts. Where casts of casts go round and
round there is none, and what is given is a cast. -/
def underlying (body : Body) (x : InstId) : InstId :=
  chainEnd body.castSource? body.insts.slots.size x

end Body

end EscapeAnalysis
