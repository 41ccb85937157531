import EscapeAnalysis.Flow.Graph

/-!
# Dominators

Block `a` dominates block `b` if every path from the entry to `b` passes through `a`. Blocks are
numbered by their positions in reverse post-order. Each block's immediate dominator is refined by
walking its predecessors up towards the entry until they meet, and this is repeated until nothing
changes (Cooper, Harvey and Kennedy). That all walks lead up, and that the repetition comes to an
end, is a matter of the order; what would go on for ever without it has no answer here.
-/

namespace EscapeAnalysis

namespace Dominators

/-- The immediate dominators found so far, by position. The entry counts as its own. -/
abbrev Doms := Array (Option Nat)

def start (n : Nat) : Doms := (Array.replicate n none).setIfInBounds 0 (some 0)

def up (doms : Doms) (i : Nat) : Option Nat := doms.getD i none

/-- Where two positions meet on their ways up. -/
def meet (doms : Doms) (lhs rhs : Nat) : Option Nat :=
  if lhs = rhs then some lhs
  else if rhs < lhs then
    match up doms lhs with
    | some i => if i < lhs then meet doms i rhs else none
    | none => none
  else
    match up doms rhs with
    | some i => if i < rhs then meet doms lhs i else none
    | none => none
termination_by lhs + rhs

/-- Moves the dominator of a block to where those of its predecessors meet that have one. -/
def refine (preds : Array (List Nat)) (doms : Doms) (i : Nat) : Option Doms :=
  match (preds.getD i []).filter fun p => (up doms p).isSome with
  | [] => some doms
  | p :: ps => (ps.foldlM (meet doms) p).map fun d => doms.setIfInBounds i (some d)

def sweep (preds : Array (List Nat)) (doms : Doms) : Option Doms :=
  (List.range' 1 (doms.size - 1)).foldlM (refine preds) doms

/-- A bound on how often dominators can still move up, where one that is not known yet counts as
`n`. -/
def room (n : Nat) (doms : Doms) : Nat := doms.toList.foldr (·.getD n + ·) 0

/-- Sweeps until nothing changes. -/
def settle (preds : Array (List Nat)) (doms : Doms) : Option Doms :=
  (sweep preds doms).bind fun next =>
    if next = doms then some doms
    else if room doms.size next < room doms.size doms ∧ next.size = doms.size then
      settle preds next
    else none
termination_by room doms.size doms
decreasing_by
  rename_i h
  exact h.2 ▸ h.1

end Dominators

/-- The immediate dominators and the blocks that each block immediately dominates, by position. -/
structure DomTree where
  order : Order
  parents : Array (Option Nat)
  kids : Array (List Nat)

namespace DomTree

/-- Lists each position with those that it is the parent of. -/
def kidsOf (parents : Array (Option Nat)) : Array (List Nat) :=
  parents.toList.zipIdx.foldl (fun kids (parent, i) =>
    parent.elim kids fun p => kids.modify p (· ++ [i])) (Array.replicate parents.size [])

def ofFlow (g : Flow) (order : Order) : DomTree :=
  let preds := order.blocks.toArray.map fun b => (g.preds b).filterMap order.index?
  let doms := (Dominators.settle preds (Dominators.start preds.size)).getD #[]
  -- the entry is its own dominator only while the others are refined
  let parents := doms.setIfInBounds 0 none
  { order, parents, kids := kidsOf parents }

def block? (t : DomTree) (i : Nat) : Option BlockId := t.order.blocks[i]?

/-- Whether the way up from `i` passes `k`. -/
def passes (parents : Array (Option Nat)) (k i : Nat) : Bool :=
  i == k ||
    match parents.getD i none with
    | some j => if j < i then passes parents k j else false
    | none => false
termination_by i

/-- Whether `a` dominates `b`. An unreachable block dominates itself only. -/
def dominates (t : DomTree) (a b : BlockId) : Bool :=
  a == b ||
    match t.order.index? a, t.order.index? b with
    | some k, some i => passes t.parents k i
    | _, _ => false

def idom? (t : DomTree) (b : BlockId) : Option BlockId :=
  (t.order.index? b).bind fun i => (t.parents.getD i none).bind t.block?

/-- The blocks that `b` immediately dominates, in reverse post-order. -/
def children (t : DomTree) (b : BlockId) : List BlockId :=
  ((t.order.index? b).map fun i => (t.kids.getD i []).filterMap t.block?).getD []

/-- The reachable blocks, each after its immediate dominator, subtree by subtree. -/
def preorder (t : DomTree) : List BlockId :=
  (walkFrom t.order.blocks t.children (t.order.blocks.take 1)).opened.reverse

end DomTree

end EscapeAnalysis
