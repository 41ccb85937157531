import EscapeAnalysis.Flow.Graph
import EscapeAnalysis.Ir.Edit

/-!
# Pruning

Removing the blocks that the entry does not reach.
-/

namespace EscapeAnalysis

def Op.filterInputs (p : BlockId → Bool) : Op → Op
  | .phi inputs => .phi (inputs.filter fun (b, _) => p b)
  | op => op

/-- Drops unreachable blocks with their instructions and the phi inputs that come from them. -/
def Body.prune (body : Body) : Body :=
  let order := body.flow.order
  let dead := (body.blocks.toList.filter fun (b, _) => !order.reaches b).flatMap fun (_, block) =>
    block.insts
  let body := { body with blocks := body.blocks.filter fun b _ => order.reaches b }
  let body := body.removeInsts dead
  { body with
    insts := body.insts.map fun inst => { inst with op := inst.op.filterInputs order.reaches } }

end EscapeAnalysis
