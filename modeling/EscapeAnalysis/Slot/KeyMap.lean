import EscapeAnalysis.Slot.Key

/-!
# Maps from keys

A map whose domain is any set of keys. Two keys of one slot are two keys here, and the null key is
one like any other, so such a map can also speak of what has gone.
-/

namespace EscapeAnalysis

/-- For every slot, the versions with their values, the last one attached in front. -/
structure KeyMap (f : Family) (α : Type) where
  slots : Array (List (Nat × α)) := #[]
  /-- How often a value was attached, which is at least the number of keys. -/
  size : Nat := 0

namespace KeyMap

variable {f : Family} {α : Type}

def empty : KeyMap f α := {}

instance : Inhabited (KeyMap f α) := ⟨empty⟩

def get? (m : KeyMap f α) (k : Key f) : Option α := (m.slots.getD k.index []).lookup k.version

/-- Attaches `a` to `k`, in place of what was attached before. -/
def insert (m : KeyMap f α) (k : Key f) (a : α) : KeyMap f α :=
  let slots := m.slots ++ Array.replicate (k.index + 1 - m.slots.size) []
  { slots := slots.modify k.index ((k.version, a) :: ·), size := m.size + 1 }

def ofList (l : List (Key f × α)) : KeyMap f α :=
  l.foldl (fun m (k, a) => m.insert k a) empty

@[simp] theorem get?_empty (k : Key f) : (empty : KeyMap f α).get? k = none := rfl

/-- What is attached last is found, and the other keys keep their values. -/
theorem get?_insert (m : KeyMap f α) (k j : Key f) (a : α) :
    (m.insert k a).get? j = if j = k then some a else m.get? j := by
  obtain ⟨i, v⟩ := k
  obtain ⟨i', v'⟩ := j
  have hlt : i < (m.slots ++ Array.replicate (i + 1 - m.slots.size) []).size := by
    simp only [Array.size_append, Array.size_replicate]
    omega
  have pad : (m.slots ++ Array.replicate (i + 1 - m.slots.size) []).getD i' [] =
      m.slots.getD i' [] := by
    simp only [Array.getD_eq_getD_getElem?, Array.getElem?_append, Array.getElem?_replicate]
    by_cases h : i' < m.slots.size
    · rw [if_pos h]
    · rw [if_neg h, Array.getElem?_eq_none (Nat.le_of_not_lt h)]
      split <;> rfl
  simp only [Array.getD_eq_getD_getElem?] at pad
  simp only [insert, get?, Array.getD_eq_getD_getElem?, Array.getElem?_modify, Key.mk.injEq]
  by_cases hi : i = i'
  · subst hi
    rw [Array.getElem?_eq_getElem hlt] at pad ⊢
    simp only [Option.getD_some] at pad
    simp only [if_true, Option.map_some, Option.getD_some, List.lookup_cons, true_and, pad]
    by_cases hv : v' = v
    · simp [hv]
    · rw [beq_false_of_ne hv, if_neg hv]
  · rw [if_neg hi, pad, if_neg fun h => hi h.1.symm]

end KeyMap

end EscapeAnalysis
