import EscapeAnalysis.Flow.Graph

/-!
# Regions

The part of the code that can run on the way from the start of a block to a point.
-/

namespace EscapeAnalysis

inductive Point where
  | before (block : BlockId) (idx : Nat)
  | atEnd (block : BlockId)
deriving DecidableEq

def Point.block : Point → BlockId
  | before b _ | atEnd b => b

namespace Flow

/-- The reachable blocks that `start` leads to along `next`, among them `start` itself. -/
def closure (order : Order) (next : BlockId → List BlockId) (start : BlockId) : List BlockId :=
  (flood .newestFirst order.blocks next [start] [start]).filter order.reaches

/-- The reachable blocks on a path from `first` to `last`. -/
def blocksBetween (g : Flow) (order : Order) (first last : BlockId) : List BlockId :=
  let ahead := closure order g.succs first
  let behind := closure order g.preds last
  order.blocks.filter fun b => b ∈ ahead && b ∈ behind

end Flow

namespace Body

/-- What runs between the start of block `first` and the point: blocks in order, each with the
number of instructions that can run, counted from its start. The block of the point counts in full
if a path leads back to it. -/
def between (body : Body) (order : Order) (first : BlockId) (stop : Point) : List (BlockId × Nat) :=
  let g := body.flow
  let region := g.blocksBetween order first stop.block
  let again := (g.succs stop.block).any (· ∈ region)
  region.map fun b =>
    let len := (body.block b).insts.length
    (b, match stop with
      | .before target idx => if target = b ∧ !again then idx else len
      | .atEnd _ => len)

def instsBetween (body : Body) (order : Order) (first : BlockId) (stop : Point) : List InstId :=
  (body.between order first stop).flatMap fun (b, len) => (body.block b).insts.take len

end Body

end EscapeAnalysis
