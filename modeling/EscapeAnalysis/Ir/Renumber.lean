import EscapeAnalysis.Flow.Graph

/-!
# Canonical numbering

The keys and the order of instructions that were created on the way to a body depend on the order
of their creation. Renumbering makes two bodies the same that differ in nothing else.
-/

namespace EscapeAnalysis

/-- Ints by value, longs by value, null, then classes. -/
def Const.le : Const → Const → Bool
  | int m, int n => m.toInt ≤ n.toInt
  | int _, _ => true
  | long _, int _ => false
  | long m, long n => m.toInt ≤ n.toInt
  | long _, _ => true
  | null, int _ | null, long _ => false
  | null, _ => true
  | cls c, cls d => c.index ≤ d.index
  | cls _, _ => false

structure Renumbering where
  body : Body
  keys : SideTable .inst InstId
  dropped : Nat

namespace Renumbering

def rename (r : Renumbering) (x : InstId) : InstId := (r.keys.get? x).getD .null

end Renumbering

namespace Body

/-- The reachable blocks in reverse post-order, then the others by key. -/
def listedBlocks (body : Body) : List BlockId :=
  let order := body.flow.order
  order.blocks ++ body.blocks.keys.filter fun b => !order.reaches b

def operandsOf (body : Body) (x : InstId) : List InstId :=
  ((body.op? x).map Op.operands).getD []

/-- All that is read, in order, except by created phis. -/
def reads (body : Body) (isCreatedPhi : InstId → Bool) : List InstId :=
  let ofCode := body.listedBlocks.flatMap fun b =>
    let block := body.block b
    (block.insts.filter fun x => !isCreatedPhi x).flatMap body.operandsOf ++
      block.term.operand?.toList
  ofCode ++ body.states.values.flatMap DebugState.insts

/-- The created phis that are read, in the order in which they are found. -/
def foundPhis (body : Body) (isCreatedPhi : InstId → Bool) : List InstId :=
  let roots := ((body.reads isCreatedPhi).filter isCreatedPhi).eraseDups
  flood .oldestFirst (body.insts.keys.filter isCreatedPhi) body.operandsOf roots roots

def arranged (body : Body) (isOld : InstId → Bool) (found : List InstId) (b : BlockId) :
    List InstId :=
  let insts := (body.block b).insts
  let phis := insts.filter body.isPhi
  let created := found.filter (· ∈ phis)
  let rest := insts.filter fun x => !body.isPhi x
  let isMoved (x : InstId) : Bool := b = body.entry && !isOld x && (body.const? x).isSome
  let value (x : InstId) : Const := (body.const? x).getD .null
  let consts := (rest.filter isMoved).mergeSort fun x y => (value x).le (value y)
  phis.filter isOld ++ created ++ consts ++ rest.filter fun x => !isMoved x

/-- Renumbers the instructions. Those for which `isOld` is false count as created. -/
def renumber (body : Body) (isOld : InstId → Bool) : Renumbering :=
  let isCreatedPhi (x : InstId) : Bool := !isOld x && body.isPhi x
  let found := body.foundPhis isCreatedPhi
  let arranged : SideTable .block (List InstId) :=
    .ofList (body.blocks.keys.map fun b => (b, body.arranged isOld found b))
  let placed := body.listedBlocks.flatMap fun b => (arranged.get? b).getD []
  let (insts, keys) := placed.foldl (fun (insts, keys) x =>
    match body.inst? x with
    | some inst =>
      let (y, insts) := insts.insert inst
      (insts, keys.insert x y)
    | none => (insts, keys)) ((SlotTable.empty, {}) : SlotTable .inst Inst × SideTable .inst InstId)
  let rename (x : InstId) : InstId := (keys.get? x).getD .null
  let blocks := body.blocks.toList.foldl (fun blocks (b, block) =>
    blocks.modify b fun _ =>
      { block with
        insts := ((arranged.get? b).getD []).map rename
        term := block.term.mapRefs rename }) body.blocks
  { body :=
      { body with
        blocks
        insts := insts.map fun inst => { inst with op := inst.op.mapRefs rename }
        states := body.states.map (DebugState.mapInsts rename) }
    keys
    dropped := (body.insts.keys.filter isCreatedPhi).length - found.length }

end Body

end EscapeAnalysis
