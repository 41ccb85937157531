/-!
# Bit sets

Finite sets of natural numbers, held as the bits of one number. Two sets are equal exactly when
they have the same members.
-/

namespace EscapeAnalysis

structure BitSet where
  bits : Nat
deriving DecidableEq

namespace BitSet

def empty : BitSet := ⟨0⟩

instance : EmptyCollection BitSet := ⟨empty⟩
instance : Inhabited BitSet := ⟨empty⟩

instance : Membership Nat BitSet := ⟨fun s n => s.bits.testBit n = true⟩

instance (n : Nat) (s : BitSet) : Decidable (n ∈ s) :=
  inferInstanceAs (Decidable (s.bits.testBit n = true))

def singleton (n : Nat) : BitSet := ⟨1 <<< n⟩

def union (s t : BitSet) : BitSet := ⟨s.bits ||| t.bits⟩

def inter (s t : BitSet) : BitSet := ⟨s.bits &&& t.bits⟩

instance : Union BitSet := ⟨union⟩
instance : Inter BitSet := ⟨inter⟩

def insert (s : BitSet) (n : Nat) : BitSet := s ∪ singleton n

def toList (s : BitSet) : List Nat :=
  (List.range (s.bits.log2 + 1)).filter (· ∈ s)

def size (s : BitSet) : Nat := s.toList.length

def disjoint (s t : BitSet) : Bool := s ∩ t == ∅

theorem mem_def {n : Nat} {s : BitSet} : n ∈ s ↔ s.bits.testBit n = true := Iff.rfl

@[simp] theorem not_mem_empty (n : Nat) : ¬ n ∈ (∅ : BitSet) := by
  simp [mem_def, EmptyCollection.emptyCollection, empty]

@[simp] theorem mem_union {n : Nat} {s t : BitSet} : n ∈ s ∪ t ↔ n ∈ s ∨ n ∈ t := by
  simp [mem_def, Union.union, union]

@[simp] theorem mem_inter {n : Nat} {s t : BitSet} : n ∈ s ∩ t ↔ n ∈ s ∧ n ∈ t := by
  simp [mem_def, Inter.inter, inter]

@[simp] theorem mem_singleton {n m : Nat} : n ∈ singleton m ↔ n = m := by
  simp only [mem_def, singleton, Nat.one_shiftLeft, Nat.testBit_two_pow, decide_eq_true_eq]
  exact eq_comm

theorem ext {s t : BitSet} (h : ∀ n, n ∈ s ↔ n ∈ t) : s = t := by
  cases s; cases t
  simp only [BitSet.mk.injEq]
  exact Nat.eq_of_testBit_eq fun i => Bool.eq_iff_iff.2 (h i)

end BitSet

end EscapeAnalysis
