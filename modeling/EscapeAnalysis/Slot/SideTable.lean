import EscapeAnalysis.Slot.Key

/-!
# Side tables

A side table attaches values to keys that some slot table handed out. It has room for one value
per slot, that of the newest key.
-/

namespace EscapeAnalysis

structure SideTable (f : Family) (α : Type) where
  slots : Array (Option (Nat × α)) := #[]

namespace SideTable

variable {f : Family} {α : Type}

def empty : SideTable f α := {}

instance : Inhabited (SideTable f α) := ⟨empty⟩

def get? (t : SideTable f α) (k : Key f) : Option α :=
  match t.slots[k.index]? with
  | some (some (version, a)) => if version = k.version then some a else none
  | _ => none

def contains (t : SideTable f α) (k : Key f) : Bool := (t.get? k).isSome

/-- Whether the slot of `k` holds a value of a newer key. -/
def outdated (t : SideTable f α) (k : Key f) : Bool :=
  match t.slots[k.index]? with
  | some (some (version, _)) => k.version < version
  | _ => false

/-- Attaches `a` to `k`. The null key and keys older than the slot's value are refused. -/
def insert (t : SideTable f α) (k : Key f) (a : α) : SideTable f α :=
  if k = Key.null || t.outdated k then t
  else
    let slots := t.slots ++ Array.replicate (k.index + 1 - t.slots.size) none
    ⟨slots.setIfInBounds k.index (some (k.version, a))⟩

/-- Replaces what is attached to `k`, or attaches the first value. -/
def alter (t : SideTable f α) (k : Key f) (g : Option α → α) : SideTable f α :=
  t.insert k (g (t.get? k))

/-- The values with their keys, by rising slot. -/
def toList (t : SideTable f α) : List (Key f × α) :=
  t.slots.toList.zipIdx.filterMap fun (s, i) => s.map fun (version, a) => (⟨i, version⟩, a)

def keys (t : SideTable f α) : List (Key f) := t.toList.map Prod.fst

def values (t : SideTable f α) : List α := t.toList.map Prod.snd

def ofList (l : List (Key f × α)) : SideTable f α :=
  l.foldl (fun t (k, a) => t.insert k a) empty

@[simp] theorem get?_empty (k : Key f) : (empty : SideTable f α).get? k = none := rfl

/-- What is attached last is found, unless it was refused. -/
theorem get?_insert_self (t : SideTable f α) {k : Key f} (a : α) (hk : k ≠ .null)
    (ho : t.outdated k = false) : (t.insert k a).get? k = some a := by
  have hlt : k.index < (t.slots ++ Array.replicate (k.index + 1 - t.slots.size) none).size := by
    simp only [Array.size_append, Array.size_replicate]
    omega
  simp only [insert, hk, ho, decide_false, Bool.or_self, Bool.false_eq_true, if_false, get?,
    Array.getElem?_setIfInBounds_self_of_lt hlt, if_true]

/-- Attaching a value leaves the other slots alone. -/
theorem get?_insert_of_index_ne (t : SideTable f α) {k j : Key f} (a : α)
    (h : j.index ≠ k.index) : (t.insert k a).get? j = t.get? j := by
  rw [insert]
  split
  · rfl
  · simp only [get?, Array.getElem?_setIfInBounds_ne (Ne.symm h), Array.getElem?_append]
    by_cases hj : j.index < t.slots.size
    · rw [if_pos hj]
    · rw [if_neg hj, Array.getElem?_eq_none (Nat.le_of_not_lt hj), Array.getElem?_replicate]
      by_cases hr : j.index - t.slots.size < k.index + 1 - t.slots.size <;> simp [hr]

end SideTable

end EscapeAnalysis
