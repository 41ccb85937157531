import EscapeAnalysis.Slot.Key

/-!
# Slot tables

A slot table hands out a key for every entry it takes in. Removing an entry and using its slot again
each raise the slot's version by one, so entries have odd versions and an old key finds nothing.
-/

namespace EscapeAnalysis

structure Slot (α : Type) where
  version : Nat
  entry : Option α

structure SlotTable (f : Family) (α : Type) where
  slots : Array (Slot α) := #[]
  free : List Nat := []

namespace SlotTable

variable {f : Family} {α : Type}

def empty : SlotTable f α := {}

instance : Inhabited (SlotTable f α) := ⟨empty⟩

def get? (t : SlotTable f α) (k : Key f) : Option α :=
  match t.slots[k.index]? with
  | some s => if s.version = k.version then s.entry else none
  | none => none

def contains (t : SlotTable f α) (k : Key f) : Bool := (t.get? k).isSome

/-- Takes in `a` and names it. -/
def insert (t : SlotTable f α) (a : α) : Key f × SlotTable f α :=
  match t.free with
  | [] => (⟨t.slots.size, 1⟩, { t with slots := t.slots.push ⟨1, some a⟩ })
  | i :: rest =>
    let version := (t.slots[i]?.map Slot.version).getD 0 + 1
    (⟨i, version⟩, { slots := t.slots.setIfInBounds i ⟨version, some a⟩, free := rest })

/-- Replaces the entry that `k` names by its image. -/
def modify (t : SlotTable f α) (k : Key f) (g : α → α) : SlotTable f α :=
  { t with
    slots := t.slots.modify k.index fun s =>
      if s.version = k.version then { s with entry := s.entry.map g } else s }

def set (t : SlotTable f α) (k : Key f) (a : α) : SlotTable f α :=
  t.modify k fun _ => a

def erase (t : SlotTable f α) (k : Key f) : SlotTable f α :=
  if t.contains k then
    { slots := t.slots.setIfInBounds k.index ⟨k.version + 1, none⟩, free := k.index :: t.free }
  else t

def toList (t : SlotTable f α) : List (Key f × α) :=
  t.slots.toList.zipIdx.filterMap fun (s, i) => s.entry.map fun a => (⟨i, s.version⟩, a)

def keys (t : SlotTable f α) : List (Key f) := t.toList.map Prod.fst

def values (t : SlotTable f α) : List α := t.toList.map Prod.snd

def size (t : SlotTable f α) : Nat := t.toList.length

def map (t : SlotTable f α) (g : α → α) : SlotTable f α :=
  { t with slots := t.slots.map fun s => { s with entry := s.entry.map g } }

/-- Removes the entries that fail `p`, by rising slot, so the highest slot freed is used again
first. -/
def filter (t : SlotTable f α) (p : Key f → α → Bool) : SlotTable f α :=
  t.toList.foldl (fun t (k, a) => if p k a then t else t.erase k) t

@[simp] theorem get?_empty (k : Key f) : (empty : SlotTable f α).get? k = none := rfl

@[simp] theorem get?_map (t : SlotTable f α) (g : α → α) (k : Key f) :
    (t.map g).get? k = (t.get? k).map g := by
  simp only [get?, map, Array.getElem?_map]
  rcases t.slots[k.index]? with _ | s
  · rfl
  · by_cases hv : s.version = k.version <;> simp [hv]

theorem get?_modify (t : SlotTable f α) (k j : Key f) (g : α → α) :
    (t.modify k g).get? j = if j = k then (t.get? j).map g else t.get? j := by
  obtain ⟨i, v⟩ := k
  obtain ⟨i', v'⟩ := j
  simp only [get?, modify, Array.getElem?_modify, Key.mk.injEq]
  by_cases hi : i = i'
  · subst hi
    rcases t.slots[i]? with _ | s
    · simp
    · by_cases hv : s.version = v
      · by_cases hv' : s.version = v'
        · simp [hv, ← hv']
        · have : v' ≠ v := fun e => hv' (e ▸ hv)
          simp [hv, this, this.symm]
      · by_cases hv' : s.version = v'
        · have : v' ≠ v := fun e => hv (e ▸ hv')
          simp [hv', this]
        · simp [hv, hv']
  · simp [hi, Ne.symm hi]

theorem mem_toList_of_get? {t : SlotTable f α} {k : Key f} {a : α} (h : t.get? k = some a) :
    (k, a) ∈ t.toList := by
  obtain ⟨index, version⟩ := k
  simp only [get?] at h
  split at h
  · rename_i s hs
    simp only [toList, List.mem_filterMap, Prod.exists]
    refine ⟨s, index, ?_, ?_⟩
    · rw [List.mem_zipIdx_iff_getElem?]
      simpa using hs
    · split at h
      · rename_i hv
        simp_all
      · cases h
  · cases h

theorem mem_keys_of_get? {t : SlotTable f α} {k : Key f} {a : α} (h : t.get? k = some a) :
    k ∈ t.keys :=
  List.mem_map.2 ⟨(k, a), mem_toList_of_get? h, rfl⟩

end SlotTable

end EscapeAnalysis
