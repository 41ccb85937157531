import EscapeAnalysis.Flow.Dominators

/-!
# Dominance frontiers

The frontier of a block is where its dominance ends. Where values written in some blocks may meet is
the iterated frontier of these blocks.
-/

namespace EscapeAnalysis

/-- Frontiers by position in reverse post-order, each in that order. -/
structure Frontiers where
  order : Order
  sets : Array (List Nat)

namespace Frontiers

/-- The positions from `i` up the dominator tree, without `stop` and what is above it. -/
def climb (parents : Array (Option Nat)) (stop : Nat) (i : Nat) : List Nat :=
  if i = stop then []
  else
    match parents.getD i none with
    | some j => if j < i then i :: climb parents stop j else [i]
    | none => [i]
termination_by i

/-- Adds a join to the frontier of block `i`, unless it was the last one added. -/
def note (join : Nat) (sets : Array (List Nat)) (i : Nat) : Array (List Nat) :=
  sets.modify i fun l => if l.getLast? = some join then l else l ++ [join]

/-- A block with several predecessors is in the frontier of all that dominate one of them up to
its own immediate dominator. -/
def ofTree (g : Flow) (t : DomTree) : Frontiers :=
  let joins := t.order.blocks.zipIdx.filterMap fun (b, i) =>
    let preds := (g.preds b).filterMap t.order.index?
    if preds.length < 2 then none
    else (t.parents.getD i none).map fun stop => (i, preds.flatMap (climb t.parents stop))
  { order := t.order
    sets := joins.foldl (fun sets (join, runners) => runners.foldl (note join) sets)
      (Array.replicate t.order.blocks.length []) }

def get (f : Frontiers) (i : Nat) : List Nat := f.sets.getD i []

def of? (f : Frontiers) (b : BlockId) : Option (List BlockId) :=
  (f.order.index? b).map fun i => (f.get i).filterMap (f.order.blocks[·]?)

/-- The blocks in the frontier of `defs` or, in turn, of such a block, in reverse post-order. -/
def iterated (f : Frontiers) (defs : List BlockId) : List BlockId :=
  let starts := defs.filterMap f.order.index?
  let all := List.range f.order.blocks.length
  let visited := flood .newestFirst all f.get starts.eraseDups starts
  let met := visited.flatMap f.get
  (all.filter (· ∈ met)).filterMap (f.order.blocks[·]?)

end Frontiers

end EscapeAnalysis
