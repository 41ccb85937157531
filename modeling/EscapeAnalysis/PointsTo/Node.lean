import EscapeAnalysis.BitSet
import EscapeAnalysis.Value

/-!
# Abstract objects

The analysis stands for all objects by a few nodes: one per allocation in the code, one for null,
and one, the phantom, for every object the method cannot see.
-/

namespace EscapeAnalysis

inductive Node where
  | phantom
  | null
  /-- The objects created by the allocation with this number. -/
  | alloc (n : Nat)
deriving DecidableEq, Inhabited

namespace Node

def rank : Node → Nat
  | phantom => 0
  | null => 1
  | alloc n => n + 2

def ofRank : Nat → Node
  | 0 => phantom
  | 1 => null
  | n + 2 => alloc n

def alloc? : Node → Option Nat
  | alloc n => some n
  | _ => none

@[simp] theorem ofRank_rank (n : Node) : ofRank n.rank = n := by cases n <;> rfl

theorem rank_injective {a b : Node} (h : a.rank = b.rank) : a = b := by
  rw [← ofRank_rank a, h, ofRank_rank]

end Node

structure NodeSet where
  ranks : BitSet
deriving DecidableEq

namespace NodeSet

instance : EmptyCollection NodeSet := ⟨⟨∅⟩⟩
instance : Inhabited NodeSet := ⟨∅⟩

instance : Membership Node NodeSet := ⟨fun s n => n.rank ∈ s.ranks⟩

instance (n : Node) (s : NodeSet) : Decidable (n ∈ s) :=
  inferInstanceAs (Decidable (n.rank ∈ s.ranks))

instance : Union NodeSet := ⟨fun s t => ⟨s.ranks ∪ t.ranks⟩⟩

def singleton (n : Node) : NodeSet := ⟨.singleton n.rank⟩

def insert (s : NodeSet) (n : Node) : NodeSet := s ∪ singleton n

/-- The members: the phantom, null, then allocations by number. -/
def toList (s : NodeSet) : List Node := s.ranks.toList.map Node.ofRank

def size (s : NodeSet) : Nat := s.ranks.size

def isEmpty (s : NodeSet) : Bool := s == ∅

def disjoint (s t : NodeSet) : Bool := s.ranks.disjoint t.ranks

def ofList (l : List Node) : NodeSet := l.foldl insert ∅

def allocs (s : NodeSet) : List Nat := s.toList.filterMap Node.alloc?

end NodeSet

inductive Escape where
  | none
  | arg
  | global
deriving DecidableEq, Inhabited

namespace Escape

def rank : Escape → Nat
  | none => 0
  | arg => 1
  | global => 2

def name : Escape → String
  | none => "no-escape"
  | arg => "arg-escape"
  | global => "global-escape"

instance : LT Escape := ⟨fun a b => a.rank < b.rank⟩
instance (a b : Escape) : Decidable (a < b) := inferInstanceAs (Decidable (a.rank < b.rank))

end Escape

inductive Cell where
  | field (f : FieldId)
  | elem (idx : Nat)
  /-- All elements that are not told apart. -/
  | anyElem
deriving DecidableEq

namespace Cell

/-- Fields by key, then elements by index, then the rest of the elements. -/
def le : Cell → Cell → Bool
  | field f, field g => f.le g
  | field _, _ => true
  | elem _, field _ => false
  | elem i, elem j => i ≤ j
  | elem _, anyElem => true
  | anyElem, anyElem => true
  | anyElem, _ => false

def isElem : Cell → Bool
  | field _ => false
  | elem _ | anyElem => true

end Cell

/-- What the cells of one object may hold, by rising cell. -/
abbrev Cells := List (Cell × NodeSet)

namespace Cells

def get (cells : Cells) (c : Cell) : NodeSet := (cells.lookup c).getD ∅

def add (c : Cell) (s : NodeSet) : Cells → Cells
  | [] => [(c, s)]
  | (d, t) :: rest =>
    if d = c then (d, t ∪ s) :: rest
    else if c.le d then (c, s) :: (d, t) :: rest
    else (d, t) :: add c s rest

def all (cells : Cells) : NodeSet := cells.foldl (fun s (_, t) => s ∪ t) ∅

end Cells

inductive Access where
  | field (f : FieldId)
  /-- The element at a known index, or at some index. -/
  | elem (idx : Option Nat)
  | allElems
deriving DecidableEq

inductive AllocShape where
  | inst (cls : ClassId)
  | array (elem : Ty) (len : Option Nat)
deriving DecidableEq, Inhabited

/-- The length of an array whose elements are told apart. -/
def AllocShape.trackedLen? (limit : Nat) : AllocShape → Option Nat
  | array _ (some len) => if len ≤ limit then some len else none
  | _ => none

namespace Access

def written (shape : AllocShape) (limit : Nat) : Access → List Cell
  | field f => [.field f]
  | elem (some idx) =>
    match shape.trackedLen? limit with
    | some len => if idx < len then [.elem idx] else [.anyElem]
    | none => [.anyElem]
  | elem none => [.anyElem]
  | allElems =>
    match shape.trackedLen? limit with
    | some len => (List.range len).map .elem
    | none => [.anyElem]

def read (shape : AllocShape) (limit : Nat) (cells : Cells) : Access → NodeSet
  | field f => cells.get (.field f)
  | a@(elem (some _)) =>
    (a.written shape limit ++ [Cell.anyElem]).foldl (fun s c => s ∪ cells.get c) ∅
  | elem none | allElems => Cells.all (cells.filter fun (c, _) => c.isElem)

end Access

end EscapeAnalysis
