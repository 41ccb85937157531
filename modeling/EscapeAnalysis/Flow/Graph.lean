import EscapeAnalysis.Ir.Body
import EscapeAnalysis.Walk

/-!
# Control flow

The blocks of a body, the edges between them, and the reverse post-order of the blocks that the
entry reaches.
-/

namespace EscapeAnalysis

structure Flow where
  entry : BlockId
  blocks : List BlockId
  succs : BlockId → List BlockId

def Body.flow (body : Body) : Flow where
  entry := body.entry
  blocks := body.blocks.keys
  succs b := (body.block b).term.targets

namespace Flow

/-- The blocks with an edge to `b`, by key, each once. -/
def preds (g : Flow) (b : BlockId) : List BlockId := g.blocks.filter fun p => b ∈ g.succs p

end Flow

/-- The blocks that the entry reaches, in an order in which each block comes before its successors
unless a cycle prevents it. -/
structure Order where
  blocks : List BlockId
  position : SideTable .block Nat

namespace Order

def index? (o : Order) (b : BlockId) : Option Nat := o.position.get? b

def reaches (o : Order) (b : BlockId) : Bool := o.position.contains b

end Order

/-- Reverse post-order: a depth-first walk closes a block after all it leads to, so the block
closed last comes first. -/
def Flow.order (g : Flow) : Order :=
  let blocks := (walkFrom g.blocks g.succs [g.entry]).closed
  { blocks, position := .ofList blocks.zipIdx }

end EscapeAnalysis
