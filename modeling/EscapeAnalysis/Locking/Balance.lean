import EscapeAnalysis.PointsTo.Graph

/-!
# Balance of monitors

The monitor operations on an object are balanced if no path ever exits more often than it has
entered and any two paths to the same block agree on the depth. A search from the entry finds this
out with one visit to each block.
-/

namespace EscapeAnalysis

structure MonitorOp where
  node : Node
  delta : Int
deriving DecidableEq

abbrev MonitorOps := SideTable .inst MonitorOp

namespace MonitorOps

def delta (ops : MonitorOps) (n : Node) (x : InstId) : Int :=
  match ops.get? x with
  | some op => if op.node = n then op.delta else 0
  | none => 0

def run (ops : MonitorOps) (n : Node) (insts : List InstId) (depth : Int) : Int :=
  insts.foldl (fun depth x => depth + ops.delta n x) depth

end MonitorOps

/-- What the search over the blocks finds out about the monitor operations on a node. -/
inductive Balance where
  | even
  | uneven
  /-- A depth does not fit in 32 bits. -/
  | overflow
deriving DecidableEq

/-- The depth at the start of each block found so far, latest first, and the blocks still to be
visited, of which the first is the next. -/
structure BalanceSearch where
  depths : List (BlockId × Int)
  pending : List BlockId

namespace BalanceSearch

/-- Hands the depth at the end of a block to its successors, unless one of them was found at
another depth. -/
def offer (nodes : List BlockId) (depth : Int) : List BlockId → BalanceSearch → Option BalanceSearch
  | [], s => some s
  | b :: bs, s =>
    match s.depths.lookup b with
    | some expected => if expected = depth then offer nodes depth bs s else none
    | none =>
      if b ∈ nodes then offer nodes depth bs ⟨(b, depth) :: s.depths, b :: s.pending⟩
      else offer nodes depth bs s

/-- A bound on the visits to come: a block not found yet counts twice, as it has to be found
first. -/
def room (nodes : List BlockId) (s : BalanceSearch) : Nat :=
  2 * Walk.unseen (fun _ => 1) (s.depths.map Prod.fst) nodes + s.pending.length

theorem room_offer_le {nodes : List BlockId} {depth : Int} :
    ∀ {bs : List BlockId} {s s' : BalanceSearch},
      offer nodes depth bs s = some s' → s'.room nodes ≤ s.room nodes
  | [], s, s', h => by
    cases h
    exact Nat.le_refl _
  | b :: bs, s, s', h => by
    rw [offer] at h
    split at h
    · split at h
      · exact room_offer_le h
      · cases h
    · rename_i hb
      split at h
      · rename_i hmem
        have hnew : b ∉ s.depths.map Prod.fst := by
          rw [List.mem_map]
          rintro ⟨e, he, rfl⟩
          have := List.lookup_eq_none_iff.1 hb e he
          simp at this
        have hfound := Walk.unseen_cons_add_le (fun _ => 1) hnew nodes hmem
        have hrest := room_offer_le h
        simp only [room, List.map_cons, List.length_cons] at hrest hfound ⊢
        omega
      · exact room_offer_le h

end BalanceSearch

namespace MonitorOps

/-- The depth after the instructions, which has to stay in range on the way. -/
def descend (ops : MonitorOps) (n : Node) : List InstId → Int → Except Balance Int
  | [], depth => .ok depth
  | x :: xs, depth =>
    let depth := depth + ops.delta n x
    if depth < 0 then .error .uneven
    else if Int32.maxValue.toInt < depth then .error .overflow
    else descend ops n xs depth

/-- Visits the pending blocks one by one, each with the first depth that came there. -/
def search (ops : MonitorOps) (body : Body) (n : Node) : BalanceSearch → Balance
  | ⟨_, []⟩ => .even
  | ⟨depths, b :: pending⟩ =>
    match ops.descend n (body.block b).insts ((depths.lookup b).getD 0) with
    | .error balance => balance
    | .ok depth =>
      match _ : BalanceSearch.offer body.flow.blocks depth (body.block b).term.targets
        ⟨depths, pending⟩ with
      | none => .uneven
      | some s => search ops body n s
termination_by s => s.room body.flow.blocks
decreasing_by
  rename_i hoffer
  have := BalanceSearch.room_offer_le hoffer
  simp only [BalanceSearch.room, List.length_cons] at this ⊢
  omega

def balance (ops : MonitorOps) (body : Body) (n : Node) : Balance :=
  ops.search body n ⟨[(body.entry, 0)], [body.entry]⟩

end MonitorOps

/-- The operand of a monitor operation and the change of depth. -/
def Op.monitor? : Op → Option (InstId × Int)
  | .monitorEnter obj => some (obj, 1)
  | .monitorExit obj => some (obj, -1)
  | _ => none

theorem Op.of_monitor? {op : Op} {obj : InstId} {d : Int} (h : op.monitor? = some (obj, d)) :
    op = .monitorEnter obj ∧ d = 1 ∨ op = .monitorExit obj ∧ d = -1 := by
  cases op with
  | monitorEnter =>
    cases h
    exact .inl ⟨rfl, rfl⟩
  | monitorExit =>
    cases h
    exact .inr ⟨rfl, rfl⟩
  | _ => cases h

namespace Body

def monitorOps (body : Body) : List (InstId × InstId × Int) :=
  body.flow.order.blocks.flatMap fun b => (body.block b).insts.filterMap fun x =>
    ((body.op? x).bind Op.monitor?).map fun (obj, delta) => (x, obj, delta)

end Body

/-- The nodes whose monitors are not known to be balanced: those that some operation may or may not
act on, and those whose operations are out of balance. -/
def Graph.unbalanced (g : Graph) (body : Body) : NodeSet :=
  let ops := body.monitorOps.map fun (x, obj, delta) => (x, g.ptsOf obj, delta)
  let unclear := ops.foldl (fun s (_, pts, _) => if pts.size = 1 then s else s ∪ pts) ∅
  let known : MonitorOps := .ofList <| ops.flatMap fun (x, pts, delta) =>
    if pts.size = 1 then pts.toList.map fun n => (x, { node := n, delta }) else []
  (known.values.map MonitorOp.node).eraseDups.foldl (fun s n =>
    if n ∉ unclear && known.balance body n ≠ .even then s.insert n else s) unclear

end EscapeAnalysis
