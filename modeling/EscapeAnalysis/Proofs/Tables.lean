import Mathlib
import EscapeAnalysis.Slot.KeyMap
import EscapeAnalysis.Slot.SideTable
import EscapeAnalysis.Slot.Table

/-!
# Slot tables and side tables

A slot table that was only ever changed by its operations is well formed (`SlotTable.WellFormed`).
An insertion into such a table names the new entry by a key that nothing had
(`SlotTable.get?_insert_fst`) and leaves all other entries alone (`SlotTable.get?_insert`).

A side table refuses keys that are older than what it holds. As long as all its keys name entries of
one slot table, nothing is ever refused (`SideTable.get?_insert`).
-/

namespace EscapeAnalysis

open List

namespace SlotTable

variable {f : Family} {α : Type} {t : SlotTable f α} {j k : Key f} {a b : α}

theorem get?_eq_some_iff : t.get? k = some a ↔ t.slots[k.index]? = some ⟨k.version, some a⟩ := by
  simp only [get?]
  rcases t.slots[k.index]? with _ | ⟨v, e⟩
  · simp
  · by_cases hv : v = k.version <;> simp [hv]

theorem map_map (t : SlotTable f α) (g h : α → α) : (t.map g).map h = t.map (h ∘ g) := by
  simp [map, Function.comp_def]

theorem toList_map (t : SlotTable f α) (g : α → α) :
    (t.map g).toList = t.toList.map fun e => (e.1, g e.2) := by
  simp only [toList, map, Array.toList_map, zipIdx_map, filterMap_map,
    map_filterMap]
  congr 1
  funext e
  rcases e with ⟨⟨_, _ | _⟩, _⟩ <;> rfl

theorem eq_of_index_eq (hj : t.get? j = some a) (hk : t.get? k = some b)
    (h : j.index = k.index) : j = k := by
  rw [get?_eq_some_iff] at hj hk
  rw [h, hk] at hj
  obtain ⟨_, _⟩ := j
  obtain ⟨_, _⟩ := k
  simp_all

theorem mem_toList_iff : (k, a) ∈ t.toList ↔ t.get? k = some a := by
  refine ⟨fun h => ?_, mem_toList_of_get?⟩
  simp only [toList, mem_filterMap, Prod.exists] at h
  obtain ⟨s, i, hm, he⟩ := h
  rw [mem_zipIdx_iff_getElem?] at hm
  rcases s with ⟨v, _ | x⟩
  · simp at he
  · simp only [Option.map_some, Option.some.injEq, Prod.mk.injEq] at he
    obtain ⟨rfl, rfl⟩ := he
    simpa [get?_eq_some_iff] using hm

theorem mem_keys_iff : k ∈ t.keys ↔ ∃ a, t.get? k = some a := by
  simp only [keys, mem_map, Prod.exists, mem_toList_iff]
  exact ⟨fun ⟨_, a, h, e⟩ => ⟨a, e ▸ h⟩, fun ⟨a, h⟩ => ⟨k, a, h, rfl⟩⟩

theorem pairwise_toList (t : SlotTable f α) :
    t.toList.Pairwise fun x y => x.1.index < y.1.index := by
  have step : ∀ (l : List (Slot α)) (n : Nat),
      ((l.zipIdx n).filterMap fun e =>
        e.1.entry.map fun a => ((⟨e.2, e.1.version⟩ : Key f), a)).Pairwise
          (fun x y => x.1.index < y.1.index) ∧
      ∀ x ∈ (l.zipIdx n).filterMap fun e =>
        e.1.entry.map fun a => ((⟨e.2, e.1.version⟩ : Key f), a), n ≤ x.1.index := by
    intro l
    induction l with
    | nil => simp
    | cons s l ih =>
      intro n
      obtain ⟨hp, hb⟩ := ih (n + 1)
      have hb' : ∀ x ∈ (l.zipIdx (n + 1)).filterMap fun e =>
          e.1.entry.map fun a => ((⟨e.2, e.1.version⟩ : Key f), a), n ≤ x.1.index :=
        fun x hx => Nat.le_trans (Nat.le_succ n) (hb x hx)
      rcases s with ⟨v, _ | a⟩
      · simpa only [zipIdx_cons, filterMap_cons, Option.map_none] using ⟨hp, hb'⟩
      · simp only [zipIdx_cons, filterMap_cons, Option.map_some, pairwise_cons,
          mem_cons, forall_eq_or_imp, Nat.le_refl, true_and]
        exact ⟨⟨fun x hx => hb x hx, hp⟩, hb'⟩
  exact (step t.slots.toList 0).1

theorem nodup_keys (t : SlotTable f α) : t.keys.Nodup := by
  rw [keys, List.Nodup, pairwise_map]
  exact t.pairwise_toList.imp fun h e => Nat.ne_of_lt h (congrArg Key.index e)

/-- What every table has that was made from the empty one by the operations of this library. -/
structure WellFormed (t : SlotTable f α) : Prop where
  free_nodup : t.free.Nodup
  free_empty : ∀ i ∈ t.free, ∃ v : Nat, t.slots[i]? = some (Slot.mk v none) ∧ v % 2 = 0
  odd : ∀ (i v : Nat) (a : α), t.slots[i]? = some (Slot.mk v (some a)) → v % 2 = 1

namespace WellFormed

theorem empty : (empty : SlotTable f α).WellFormed := ⟨by simp [SlotTable.empty],
  by simp [SlotTable.empty], by simp [SlotTable.empty]⟩

theorem ne_null (h : t.WellFormed) (hk : t.get? k = some a) : k ≠ .null := by
  rintro rfl
  have := h.odd _ _ _ (get?_eq_some_iff.1 hk)
  simp [Key.null] at this

end WellFormed

/-- A key that the table may have handed out: it is not newer than the entry in its slot. -/
def Issued (t : SlotTable f α) (k : Key f) : Prop :=
  ∀ j a, t.get? j = some a → k.index = j.index → k.version ≤ j.version

theorem issued_of_get? (h : t.get? k = some a) : t.Issued k := by
  intro j b hj hi
  exact Nat.le_of_eq (congrArg Key.version (eq_of_index_eq h hj hi))

section

variable (h : t.WellFormed)
include h

theorem insert_eq (a : α) :
    ∃ i v, (t.insert a).1 = ⟨i, v⟩ ∧ v % 2 = 1 ∧
      (t.insert a).2.slots[i]? = some ⟨v, some a⟩ ∧
      (∀ i', i' ≠ i → (t.insert a).2.slots[i']? = t.slots[i']?) ∧
      (t.slots[i]? = none ∨ ∃ w, t.slots[i]? = some ⟨w, none⟩ ∧ w + 1 = v) ∧
      (t.insert a).2.free = t.free.erase i ∧ (t.free = [] ∨ i ∈ t.free) := by
  rcases hf : t.free with _ | ⟨i, rest⟩
  · refine ⟨t.slots.size, 1, by simp [insert, hf], rfl, by simp [insert, hf], ?_,
      .inl (by simp), by simp [insert, hf], .inl rfl⟩
    intro i' hi'
    simp only [insert, hf, Array.getElem?_push]
    rw [if_neg hi']
  · obtain ⟨v, hv, heven⟩ := h.free_empty i (by simp [hf])
    obtain ⟨hlt, hget⟩ := Array.getElem?_eq_some_iff.1 hv
    refine ⟨i, v + 1, by simp [insert, hf, hv], by omega, ?_, ?_, .inr ⟨v, hv, rfl⟩,
      by simp [insert, hf], .inr (by simp)⟩
    · simp [insert, hf, hlt, hget]
    · intro i' hi'
      simp only [insert, hf]
      rw [Array.getElem?_setIfInBounds_ne (Ne.symm hi')]

theorem get?_insert_fst (a : α) : t.get? (t.insert a).1 = none := by
  obtain ⟨i, v, he, -, -, -, hold, -⟩ := insert_eq h a
  rw [he, get?]
  rcases hold with hold | ⟨w, hold, hw⟩
  · simp [hold]
  · simp [hold]

theorem get?_insert (a : α) (k : Key f) :
    (t.insert a).2.get? k = if k = (t.insert a).1 then some a else t.get? k := by
  obtain ⟨i, v, he, -, hnew, hsame, hold, -⟩ := insert_eq h a
  obtain ⟨i', v'⟩ := k
  rw [he]
  by_cases hi : i' = i
  · subst hi
    simp only [get?, hnew, Key.mk.injEq, true_and]
    by_cases hv : v' = v
    · simp [hv]
    · have : ¬ v = v' := fun e => hv e.symm
      simp only [hv, this, if_false]
      rcases hold with hold | ⟨w, hold, hw⟩ <;> simp [hold]
  · simp [get?, hsame i' hi, hi]

theorem WellFormed.insert (a : α) : (t.insert a).2.WellFormed := by
  obtain ⟨i, v, -, hodd, hnew, hsame, -, hfree, -⟩ := insert_eq h a
  refine ⟨hfree ▸ h.free_nodup.erase i, fun i' hi' => ?_, fun i' v' b hb => ?_⟩
  · rw [hfree, h.free_nodup.mem_erase_iff] at hi'
    rw [hsame i' hi'.1]
    exact h.free_empty i' hi'.2
  · by_cases hi : i' = i
    · subst hi
      rw [hnew] at hb
      simp only [Option.some.injEq, Slot.mk.injEq] at hb
      exact hb.1 ▸ hodd
    · rw [hsame i' hi] at hb
      exact h.odd i' v' b hb

theorem WellFormed.map (g : α → α) : (t.map g).WellFormed := by
  refine ⟨h.free_nodup, fun i hi => ?_, fun i v b hb => ?_⟩
  · obtain ⟨v, hv, he⟩ := h.free_empty i hi
    exact ⟨v, by simp [SlotTable.map, hv], he⟩
  · simp only [SlotTable.map, Array.getElem?_map, Option.map_eq_some_iff] at hb
    obtain ⟨⟨w, _ | c⟩, hs, he⟩ := hb
    · simp at he
    · simp only [Option.map_some, Slot.mk.injEq] at he
      exact he.1 ▸ h.odd i w c hs

theorem WellFormed.modify (k : Key f) (g : α → α) : (t.modify k g).WellFormed := by
  have slot : ∀ i, (t.modify k g).slots[i]? = (t.slots[i]?).map fun s =>
      if i = k.index ∧ s.version = k.version then { s with entry := s.entry.map g } else s := by
    intro i
    simp only [SlotTable.modify, Array.getElem?_modify]
    by_cases hi : k.index = i
    · subst hi
      simp
    · rw [if_neg hi]
      simp [Ne.symm hi]
  refine ⟨h.free_nodup, fun i hi => ?_, fun i v b hb => ?_⟩
  · obtain ⟨v, hv, he⟩ := h.free_empty i hi
    refine ⟨v, ?_, he⟩
    rw [slot, hv]
    simp
  · rw [slot, Option.map_eq_some_iff] at hb
    obtain ⟨⟨w, _ | c⟩, hs, he⟩ := hb
    · split at he <;> simp at he
    · split at he <;> simp only [Option.map_some, Slot.mk.injEq] at he <;>
        exact he.1 ▸ h.odd i w c hs

end

theorem get?_erase (t : SlotTable f α) (j k : Key f) :
    (t.erase k).get? j = if j = k then none else t.get? j := by
  obtain ⟨i, v⟩ := k
  obtain ⟨i', v'⟩ := j
  rw [erase, contains]
  rcases hk : t.get? ⟨i, v⟩ with _ | a
  · simp only [Option.isSome_none, Bool.false_eq_true, if_false, Key.mk.injEq]
    split
    · rename_i h
      rw [h.1, h.2, hk]
    · rfl
  · rw [get?_eq_some_iff] at hk
    have hlt : i < t.slots.size := (Array.getElem?_eq_some_iff.1 hk).1
    simp only [Option.isSome_some, if_true, Key.mk.injEq, get?]
    by_cases hi : i' = i
    · subst hi
      rw [Array.getElem?_setIfInBounds_self_of_lt hlt]
      simp only [true_and, hk]
      by_cases hv : v' = v
      · simp [hv]
      · simp [hv, Ne.symm hv]
    · rw [Array.getElem?_setIfInBounds_ne (Ne.symm hi)]
      simp [hi]

theorem WellFormed.erase (h : t.WellFormed) (k : Key f) : (t.erase k).WellFormed := by
  rw [SlotTable.erase, contains]
  rcases hk : t.get? k with _ | a
  · simpa using h
  · rw [get?_eq_some_iff] at hk
    have hlt : k.index < t.slots.size := (Array.getElem?_eq_some_iff.1 hk).1
    have hodd := h.odd _ _ _ hk
    have hnot : k.index ∉ t.free := by
      intro hm
      obtain ⟨v, hv, -⟩ := h.free_empty _ hm
      rw [hk] at hv
      simp at hv
    simp only [Option.isSome_some, if_true]
    refine ⟨nodup_cons.2 ⟨hnot, h.free_nodup⟩, fun i hi => ?_, fun i v b hb => ?_⟩
    · rcases mem_cons.1 hi with rfl | hi
      · exact ⟨k.version + 1, Array.getElem?_setIfInBounds_self_of_lt hlt, by omega⟩
      · have hne : k.index ≠ i := fun e => hnot (e ▸ hi)
        simp only [Array.getElem?_setIfInBounds_ne hne]
        exact h.free_empty i hi
    · by_cases hi : k.index = i
      · subst hi
        rw [Array.getElem?_setIfInBounds_self_of_lt hlt] at hb
        simp at hb
      · rw [Array.getElem?_setIfInBounds_ne hi] at hb
        exact h.odd i v b hb

theorem get?_foldl_erase (p : Key f → α → Bool) (k : Key f) :
    ∀ (l : List (Key f × α)) (t : SlotTable f α),
      (l.foldl (fun t (k, a) => if p k a then t else t.erase k) t).get? k =
        if l.any fun e => e.1 == k && !p e.1 e.2 then none else t.get? k
  | [], t => by simp
  | (k', a) :: l, t => by
    rw [foldl_cons, get?_foldl_erase p k l, any_cons]
    by_cases hp : p k' a = true
    · simp only [hp, if_true, Bool.not_true, Bool.and_false, Bool.false_or]
    · by_cases hk : k' = k
      · subst hk
        simp [hp, get?_erase]
      · simp only [hp, Bool.false_eq_true, if_false, get?_erase, Ne.symm hk,
          beq_false_of_ne hk, Bool.false_and, Bool.false_or]

theorem get?_filter (t : SlotTable f α) (p : Key f → α → Bool) (k : Key f) :
    (t.filter p).get? k = (t.get? k).filter (p k) := by
  rw [filter, get?_foldl_erase]
  rcases hk : t.get? k with _ | a
  · split <;> simp
  · have hany : (t.toList.any fun e => e.1 == k && !p e.1 e.2) = !p k a := by
      rw [Bool.eq_iff_iff, any_eq_true]
      constructor
      · rintro ⟨⟨j, b⟩, hm, hb⟩
        simp only [Bool.and_eq_true, beq_iff_eq] at hb
        obtain ⟨rfl, hb⟩ := hb
        rw [mem_toList_iff, hk, Option.some.injEq] at hm
        exact hm ▸ hb
      · exact fun h => ⟨(k, a), mem_toList_iff.2 hk, by simpa using h⟩
    rw [hany]
    by_cases hp : p k a = true <;> simp [hp, Option.filter_some]

theorem filter_induction {P : SlotTable f α → Prop} (t : SlotTable f α) (p : Key f → α → Bool)
    (h : P t) (herase : ∀ t k, P t → P (t.erase k)) : P (t.filter p) := by
  refine foldlRecOn t.toList _ h fun t h e _ => ?_
  by_cases hp : p e.1 e.2 = true
  · simpa only [hp, if_true] using h
  · simpa only [hp, Bool.false_eq_true, if_false] using herase t e.1 h

theorem WellFormed.filter (h : t.WellFormed) (p : Key f → α → Bool) : (t.filter p).WellFormed :=
  filter_induction t p h fun _ k h => h.erase k

/-- The last version that a slot has had. -/
def age (t : SlotTable f α) (i : Nat) : Nat := ((t.slots[i]?).map Slot.version).getD 0

/-- A key that the table will not hand out again. -/
def Spent (t : SlotTable f α) (k : Key f) : Prop := k.version ≤ t.age k.index

theorem age_of_get? (h : t.get? k = some a) : t.age k.index = k.version := by
  rw [age, get?_eq_some_iff.1 h]
  rfl

theorem spent_of_get? (h : t.get? k = some a) : t.Spent k := Nat.le_of_eq (age_of_get? h).symm

theorem not_spent_insert_fst (h : t.WellFormed) (a : α) : ¬ t.Spent (t.insert a).1 := by
  obtain ⟨i, v, he, hodd, -, -, hold, -⟩ := insert_eq h a
  rw [he, Spent, age]
  rcases hold with hold | ⟨w, hold, hw⟩ <;> simp only [hold, Option.map_none, Option.map_some,
    Option.getD_none, Option.getD_some] <;> omega

theorem age_le_insert (h : t.WellFormed) (a : α) (i : Nat) : t.age i ≤ (t.insert a).2.age i := by
  obtain ⟨i', v, -, -, hnew, hsame, hold, -⟩ := insert_eq h a
  by_cases hi : i = i'
  · subst hi
    rw [age, age, hnew]
    rcases hold with hold | ⟨w, hold, hw⟩ <;> simp [hold]
    omega
  · simp [age, hsame i hi]

theorem age_map (t : SlotTable f α) (g : α → α) (i : Nat) : (t.map g).age i = t.age i := by
  simp only [age, map, Array.getElem?_map]
  rcases t.slots[i]? with _ | s <;> rfl

theorem age_modify (t : SlotTable f α) (k : Key f) (g : α → α) (i : Nat) :
    (t.modify k g).age i = t.age i := by
  simp only [age, modify, Array.getElem?_modify]
  split
  · rcases t.slots[i]? with _ | s
    · rfl
    · simp only [Option.map_some]
      split <;> rfl
  · rfl

theorem age_le_erase (t : SlotTable f α) (k : Key f) (i : Nat) : t.age i ≤ (t.erase k).age i := by
  rw [erase, contains]
  rcases hk : t.get? k with _ | a
  · exact Nat.le_refl _
  · simp only [Option.isSome_some, if_true]
    have hlt := (Array.getElem?_eq_some_iff.1 (get?_eq_some_iff.1 hk)).1
    by_cases hi : k.index = i
    · subst hi
      rw [age_of_get? hk, age, Array.getElem?_setIfInBounds_self_of_lt hlt]
      exact Nat.le_succ _
    · simp [age, Array.getElem?_setIfInBounds_ne hi]

theorem age_le_filter (t : SlotTable f α) (p : Key f → α → Bool) (i : Nat) :
    t.age i ≤ (t.filter p).age i :=
  filter_induction t p (Nat.le_refl _) fun t' k h => Nat.le_trans h (age_le_erase t' k i)

/-- A key that was handed out and names nothing any more. -/
structure Retired (t : SlotTable f α) (k : Key f) : Prop where
  spent : t.Spent k
  gone : t.get? k = none

namespace Retired

theorem insert (h : t.WellFormed) (hk : t.Retired k) (a : α) : (t.insert a).2.Retired k where
  spent := Nat.le_trans hk.spent (age_le_insert h a _)
  gone := by
    rw [get?_insert h, if_neg, hk.gone]
    rintro rfl
    exact not_spent_insert_fst h a hk.spent

theorem map (hk : t.Retired k) (g : α → α) : (t.map g).Retired k where
  spent := Nat.le_trans hk.spent (Nat.le_of_eq (age_map t g _).symm)
  gone := by simp [get?_map, hk.gone]

theorem modify (hk : t.Retired k) (k' : Key f) (g : α → α) : (t.modify k' g).Retired k where
  spent := Nat.le_trans hk.spent (Nat.le_of_eq (age_modify t k' g _).symm)
  gone := by
    rw [get?_modify, hk.gone]
    split <;> rfl

theorem filter (hk : t.Retired k) (p : Key f → α → Bool) : (t.filter p).Retired k where
  spent := Nat.le_trans hk.spent (age_le_filter t p _)
  gone := by simp [get?_filter, hk.gone]

end Retired

theorem retired_filter (hk : t.get? k = some a) {p} (hp : p k a = false) :
    (t.filter p).Retired k where
  spent := Nat.le_trans (spent_of_get? hk) (age_le_filter t p _)
  gone := by simp [get?_filter, hk, hp]

/-- A table with the given entries, none of which was ever removed. -/
def ofEntries (l : List α) : SlotTable f α := ⟨(l.map fun a => ⟨1, some a⟩).toArray, []⟩

theorem WellFormed.ofEntries (l : List α) : (ofEntries l : SlotTable f α).WellFormed := by
  refine ⟨by simp [SlotTable.ofEntries], by simp [SlotTable.ofEntries], fun i v a h => ?_⟩
  simp only [SlotTable.ofEntries, List.getElem?_toArray, List.getElem?_map,
    Option.map_eq_some_iff] at h
  obtain ⟨b, -, hb⟩ := h
  cases hb
  rfl

end SlotTable

namespace SideTable

variable {f : Family} {α β : Type} {t t' : SideTable f α} {j k : Key f} {a b : α}
  {l : List (Key f × α)}

theorem get?_eq_some_iff : t.get? k = some a ↔ t.slots[k.index]? = some (some (k.version, a)) := by
  simp only [get?]
  rcases t.slots[k.index]? with _ | _ | ⟨v, x⟩
  · simp
  · simp
  · by_cases hv : v = k.version <;> simp [hv]

theorem contains_iff : t.contains k = true ↔ ∃ a, t.get? k = some a := by
  rw [contains, Option.isSome_iff_exists]

theorem mem_toList_iff : (k, a) ∈ t.toList ↔ t.get? k = some a := by
  rw [get?_eq_some_iff]
  simp only [toList, mem_filterMap, Prod.exists, mem_zipIdx_iff_getElem?]
  constructor
  · rintro ⟨_ | ⟨v, x⟩, i, hm, he⟩
    · simp at he
    · simp only [Option.map_some, Option.some.injEq, Prod.mk.injEq] at he
      obtain ⟨rfl, rfl⟩ := he
      simpa using hm
  · intro h
    exact ⟨some (k.version, a), k.index, by simpa using h, rfl⟩

theorem mem_keys_iff : k ∈ t.keys ↔ ∃ a, t.get? k = some a := by
  simp only [keys, mem_map, Prod.exists, exists_and_right, exists_eq_right, mem_toList_iff]

theorem mem_values_iff : a ∈ t.values ↔ ∃ k, t.get? k = some a := by
  simp only [values, mem_map, Prod.exists, exists_eq_right, mem_toList_iff]

/-- All keys of a side table name entries of the slot table `keys`. -/
def Within (t : SideTable f α) (keys : SlotTable f β) : Prop :=
  ∀ k a, t.get? k = some a → ∃ b, keys.get? k = some b

theorem Within.empty (keys : SlotTable f β) : (empty : SideTable f α).Within keys := by
  intro k a h
  simp at h

variable {keys : SlotTable f β} {c : β}

theorem Within.not_outdated (hw : t.Within keys) (hk : keys.get? k = some c) :
    t.outdated k = false := by
  rw [outdated]
  split
  · rename_i v x hs
    obtain ⟨d, hd⟩ := hw ⟨k.index, v⟩ x (get?_eq_some_iff.2 hs)
    have hv : v = k.version := congrArg Key.version (SlotTable.eq_of_index_eq hd hk rfl)
    simp [hv]
  · rfl

/-- A value stays found until another one is attached to its slot. -/
theorem get?_insert_cases (t : SideTable f α) (k : Key f) (a : α) {x}
    (h : (t.insert k a).get? j = some x) : (j = k ∧ x = a) ∨ t.get? j = some x := by
  by_cases hr : (k = Key.null || t.outdated k) = true
  · rw [SideTable.insert, if_pos hr] at h
    exact .inr h
  · by_cases hi : j.index = k.index
    · have hself : (t.insert k a).get? k = some a := by
        simp only [Bool.or_eq_true, decide_eq_true_eq, not_or, Bool.not_eq_true] at hr
        exact get?_insert_self t a hr.1 hr.2
      rw [get?_eq_some_iff] at h hself
      rw [hi, hself] at h
      simp only [Option.some.injEq, Prod.mk.injEq] at h
      refine .inl ⟨?_, h.2.symm⟩
      obtain ⟨_, _⟩ := j
      obtain ⟨_, _⟩ := k
      simp_all
    · rw [get?_insert_of_index_ne t a hi] at h
      exact .inr h

theorem outdated_eq_false_iff : t.outdated j = false ↔
    ∀ v a, t.slots[j.index]? = some (some (v, a)) → v ≤ j.version := by
  rw [outdated]
  split
  · rename_i v a hs
    simp only [decide_eq_false_iff_not, Nat.not_lt, hs, Option.some.injEq, Prod.mk.injEq, and_imp]
    exact ⟨fun h _ _ hv _ => hv ▸ h, fun h => h v a rfl rfl⟩
  · rename_i hs
    exact iff_of_true rfl fun v a h => absurd h (hs v a)

theorem get?_insert_of_alone (hk : k ≠ .null) (ho : t.outdated k = false)
    (hj : j.index = k.index → j ≠ k → t.get? j = none) (a : α) :
    (t.insert k a).get? j = if j = k then some a else t.get? j := by
  by_cases hjk : j = k
  · rw [if_pos hjk, hjk, get?_insert_self t a hk ho]
  rw [if_neg hjk]
  by_cases hi : j.index = k.index
  · rw [hj hi hjk, Option.eq_none_iff_forall_not_mem]
    intro x hx
    rcases get?_insert_cases t k a hx with ⟨h, -⟩ | h
    · exact hjk h
    · simp [hj hi hjk] at h
  · exact get?_insert_of_index_ne t a hi

theorem get?_insert (hwf : keys.WellFormed) (hw : t.Within keys) (hk : keys.get? k = some c)
    (a : α) (j : Key f) : (t.insert k a).get? j = if j = k then some a else t.get? j := by
  refine get?_insert_of_alone (hwf.ne_null hk) (hw.not_outdated hk) (fun hi hjk => ?_) a
  refine Option.eq_none_iff_forall_not_mem.2 fun x hx => ?_
  obtain ⟨d, hd⟩ := hw j x hx
  exact hjk (SlotTable.eq_of_index_eq hd hk hi)

theorem Within.insert (hw : t.Within keys) (hk : keys.get? k = some c) (a : α) :
    (t.insert k a).Within keys := by
  intro j x hj
  rcases get?_insert_cases t k a hj with ⟨rfl, -⟩ | hj
  · exact ⟨c, hk⟩
  · exact hw j x hj

theorem outdated_insert (ho : t.outdated j = false) (hk : k.index = j.index → k.version ≤ j.version)
    (a : α) : (t.insert k a).outdated j = false := by
  rw [outdated_eq_false_iff] at ho ⊢
  intro v b hs
  have hget : (t.insert k a).get? ⟨j.index, v⟩ = some b := get?_eq_some_iff.2 hs
  rcases get?_insert_cases t k a hget with ⟨rfl, -⟩ | hget
  · exact hk rfl
  · exact ho v b (get?_eq_some_iff.1 hget)

/-- The value of a key changes only by an insertion at the key itself, as long as no newer key of
its slot is used. -/
theorem get?_insert_of_not_newer (hj : j ≠ .null) (ho : t.outdated j = false)
    (hk : k.index = j.index → k.version ≤ j.version) (a : α) :
    (t.insert k a).get? j = if j = k then some a else t.get? j := by
  by_cases hjk : j = k
  · subst hjk
    rw [if_pos rfl, get?_insert_self t a hj ho]
  rw [if_neg hjk]
  rcases hget : t.get? j with _ | b
  · rcases hget' : (t.insert k a).get? j with _ | b
    · rfl
    · rcases get?_insert_cases t k a hget' with ⟨rfl, -⟩ | h
      · exact absurd rfl hjk
      · simp [hget] at h
  · by_cases hi : j.index = k.index
    · -- The slot holds the value of `j`, which is newer, so `k` is refused.
      have hlt : k.version < j.version := by
        have hle := hk hi.symm
        have hne : k.version ≠ j.version := fun h => hjk (by cases j; cases k; simp_all)
        omega
      have hout : t.outdated k = true := by
        rw [get?_eq_some_iff] at hget
        simp [outdated, ← hi, hget, hlt]
      rw [SideTable.insert, if_pos (by simp [hout]), hget]
    · rw [get?_insert_of_index_ne t a hi, hget]

theorem get?_foldl_insert_of_not_mem (hj : j ≠ .null) :
    ∀ (l : List (Key f × α)) (t : SideTable f α), t.outdated j = false →
      (∀ e ∈ l, e.1.index = j.index → e.1.version ≤ j.version) → j ∉ l.map Prod.fst →
      (l.foldl (fun t (k, a) => t.insert k a) t).get? j = t.get? j := by
  intro l
  induction l with
  | nil => exact fun _ _ _ _ => rfl
  | cons e l ih =>
    intro t ho hl hn
    simp only [map_cons, mem_cons, not_or] at hn
    have he := hl e (by simp)
    rw [foldl_cons, ih _ (outdated_insert ho he e.2)
      (fun e' he' => hl e' (.tail _ he')) hn.2,
      get?_insert_of_not_newer hj ho he, if_neg hn.1]

theorem get?_foldl_insert_of_count (hj : j ≠ .null) :
    ∀ (l : List (Key f × α)) (t : SideTable f α), t.outdated j = false →
      (∀ e ∈ l, e.1.index = j.index → e.1.version ≤ j.version) →
      (l.map Prod.fst).count j ≤ 1 → (j, a) ∈ l →
      (l.foldl (fun t (k, a) => t.insert k a) t).get? j = some a := by
  intro l
  induction l with
  | nil => simp
  | cons e l ih =>
    intro t ho hl hc ha
    have he := hl e (by simp)
    have hl' : ∀ e ∈ l, e.1.index = j.index → e.1.version ≤ j.version :=
      fun e he => hl e (.tail _ he)
    rw [map_cons, count_cons] at hc
    rw [foldl_cons]
    rcases mem_cons.1 ha with rfl | ha
    · have hn : j ∉ l.map Prod.fst := by
        rw [← count_eq_zero]
        simpa using hc
      rw [get?_foldl_insert_of_not_mem hj l _ (outdated_insert ho he _) hl' hn,
        get?_insert_of_not_newer hj ho he, if_pos rfl]
    · refine ih _ (outdated_insert ho he e.2) hl' ?_ ha
      have : 0 < (l.map Prod.fst).count j :=
        count_pos_iff.2 (mem_map.2 ⟨_, ha, rfl⟩)
      omega

theorem contains_foldl_insert_of_not_newer (hj : j ≠ .null) :
    ∀ (l : List (Key f × α)) (t : SideTable f α), t.outdated j = false →
      (∀ e ∈ l, e.1.index = j.index → e.1.version ≤ j.version) →
      (∃ a, t.get? j = some a) ∨ j ∈ l.map Prod.fst →
      ∃ a, (l.foldl (fun t (k, a) => t.insert k a) t).get? j = some a := by
  intro l
  induction l with
  | nil => exact fun _ _ _ h => h.resolve_right (by simp)
  | cons e l ih =>
    intro t ho hl h
    have he := hl e (by simp)
    refine ih _ (outdated_insert ho he e.2) (fun e' he' => hl e' (.tail _ he')) ?_
    rw [get?_insert_of_not_newer hj ho he]
    by_cases hje : j = e.1
    · exact .inl ⟨e.2, if_pos hje⟩
    · rw [if_neg hje]
      exact h.imp_right fun h => (mem_cons.1 h).resolve_left hje

theorem mem_of_get?_foldl_insert :
    ∀ {t : SideTable f α} {j : Key f} {x : α},
      (l.foldl (fun t (k, a) => t.insert k a) t).get? j = some x →
        (j, x) ∈ l ∨ t.get? j = some x := by
  induction l with
  | nil => exact fun h => .inr h
  | cons e l ih =>
    intro t j x h
    rw [foldl_cons] at h
    rcases ih h with h | h
    · exact .inl (.tail _ h)
    · rcases get?_insert_cases t e.1 e.2 h with ⟨rfl, rfl⟩ | h
      · exact .inl (by simp)
      · exact .inr h

theorem mem_of_get?_ofList (h : (ofList l).get? j = some a) : (j, a) ∈ l := by
  rcases mem_of_get?_foldl_insert h with h | h
  · exact h
  · simp at h

theorem Within.foldl_insert :
    ∀ (l : List (Key f × α)) {t : SideTable f α}, t.Within keys →
      (∀ e ∈ l, ∃ c, keys.get? e.1 = some c) →
      (l.foldl (fun t (k, a) => t.insert k a) t).Within keys := by
  intro l t hw hl j x hj
  rcases mem_of_get?_foldl_insert hj with hj | hj
  · exact hl _ hj
  · exact hw j x hj

section

variable {l : List (Key f × α)} (hwf : keys.WellFormed) (hw : t.Within keys)
  (hl : ∀ e ∈ l, ∃ c, keys.get? e.1 = some c)

include hl in
theorem not_newer_of_live (hj : keys.get? j = some c) :
    ∀ e ∈ l, e.1.index = j.index → e.1.version ≤ j.version := by
  intro e he hi
  obtain ⟨d, hd⟩ := hl e he
  exact SlotTable.issued_of_get? hd j c hj hi

include hwf hw hl

theorem get?_foldl_insert_keep (hj : j ∉ l.map Prod.fst) :
    (l.foldl (fun t (k, a) => t.insert k a) t).get? j = t.get? j := by
  rcases hk : keys.get? j with _ | d
  · have missing : ∀ {t : SideTable f α}, t.Within keys → t.get? j = none := fun hw =>
      Option.eq_none_iff_forall_not_mem.2 fun x hx => by simpa [hk] using hw j x hx
    rw [missing (hw.foldl_insert l hl), missing hw]
  · exact get?_foldl_insert_of_not_mem (hwf.ne_null hk) l t (hw.not_outdated hk)
      (not_newer_of_live hl hk) hj

theorem get?_foldl_insert_of_nodup (hnd : (l.map Prod.fst).Nodup) :
    ∀ e ∈ l, (l.foldl (fun t (k, a) => t.insert k a) t).get? e.1 = some e.2 := by
  intro e he
  obtain ⟨d, hd⟩ := hl e he
  exact get?_foldl_insert_of_count (hwf.ne_null hd) l t (hw.not_outdated hd)
    (not_newer_of_live hl hd) (nodup_iff_count.1 hnd _) he

theorem contains_foldl_insert (hj : (∃ a, t.get? j = some a) ∨ j ∈ l.map Prod.fst) :
    ∃ a, (l.foldl (fun t (k, a) => t.insert k a) t).get? j = some a := by
  obtain ⟨d, hd⟩ : ∃ d, keys.get? j = some d := by
    rcases hj with ⟨a, ha⟩ | hj
    · exact hw j a ha
    · obtain ⟨e, he, rfl⟩ := mem_map.1 hj
      exact hl e he
  exact contains_foldl_insert_of_not_newer (hwf.ne_null hd) l t (hw.not_outdated hd)
    (not_newer_of_live hl hd) hj

end

theorem get?_ofList_of_nodup (hwf : keys.WellFormed) (hl : ∀ e ∈ l, ∃ c, keys.get? e.1 = some c)
    (hnd : (l.map Prod.fst).Nodup) {e} (he : e ∈ l) : (ofList l).get? e.1 = some e.2 :=
  get?_foldl_insert_of_nodup hwf (.empty keys) hl hnd e he

/-- Which key of each slot has a value. -/
def versions (t : SideTable f α) : Array (Option Nat) := t.slots.map (Option.map Prod.fst)

theorem contains_iff_versions :
    t.contains k = true ↔ t.versions[k.index]? = some (some k.version) := by
  rw [contains_iff, versions, Array.getElem?_map]
  constructor
  · rintro ⟨a, ha⟩
    rw [get?_eq_some_iff.1 ha]
    rfl
  · intro h
    rw [Option.map_eq_some_iff] at h
    obtain ⟨_ | ⟨v, a⟩, hs, hv⟩ := h
    · cases hv
    · cases hv
      exact ⟨a, get?_eq_some_iff.2 hs⟩

theorem contains_congr (h : t'.versions = t.versions) (k : Key f) :
    t'.contains k = t.contains k := by
  rw [Bool.eq_iff_iff, contains_iff_versions, contains_iff_versions, h]

theorem ext_of_versions (hv : t'.versions = t.versions) (hget : ∀ k, t'.get? k = t.get? k) :
    t' = t := by
  have hslots : ∀ i : Nat, t'.slots[i]? = t.slots[i]? := by
    intro i
    have hi := congrArg (fun vs : Array (Option Nat) => vs[i]?) hv
    simp only [versions, Array.getElem?_map] at hi
    rcases hs : t.slots[i]? with _ | _ | ⟨v, a⟩
    · simpa [hs] using hi
    · rw [hs] at hi
      simpa using hi
    · exact get?_eq_some_iff.1 ((hget ⟨i, v⟩).trans (get?_eq_some_iff.2 hs))
  cases t
  cases t'
  exact congrArg SideTable.mk (Array.ext_getElem? hslots)

theorem get?_insert_of_contains (hk : k ≠ .null) (h : t.contains k = true) (a : α) (j : Key f) :
    (t.insert k a).get? j = if j = k then some a else t.get? j := by
  obtain ⟨b, hb⟩ := contains_iff.1 h
  have hslot := get?_eq_some_iff.1 hb
  refine get?_insert_of_alone hk (outdated_eq_false_iff.2 fun v x hs => ?_) (fun hi hjk => ?_) a
  · rw [hslot] at hs
    cases hs
    exact Nat.le_refl _
  · refine Option.eq_none_iff_forall_not_mem.2 fun x hx => hjk ?_
    have := get?_eq_some_iff.1 (Option.mem_def.1 hx)
    rw [hi, hslot] at this
    cases j
    cases k
    simp_all

theorem versions_insert_of_contains (h : t.contains k = true) (a : α) :
    (t.insert k a).versions = t.versions := by
  obtain ⟨b, hb⟩ := contains_iff.1 h
  have hslot := get?_eq_some_iff.1 hb
  rw [insert]
  split
  · rfl
  · obtain ⟨hlt, -⟩ := Array.getElem?_eq_some_iff.1 hslot
    have hroom : k.index + 1 - t.slots.size = 0 := by omega
    refine Array.ext_getElem? fun i => ?_
    simp only [versions, hroom, Array.replicate_zero, Array.append_empty, Array.getElem?_map,
      Array.getElem?_setIfInBounds]
    by_cases hi : k.index = i
    · subst hi
      rw [if_pos rfl, if_pos hlt, hslot]
      rfl
    · rw [if_neg hi]

/-- The same value for every key of the table. -/
def fill (t : SideTable f α) (a : α) : SideTable f α :=
  ⟨t.slots.map (Option.map fun e => (e.1, a))⟩

theorem get?_fill (t : SideTable f α) (a : α) (k : Key f) :
    (t.fill a).get? k = if t.contains k = true then some a else none := by
  by_cases h : t.contains k = true
  · obtain ⟨b, hb⟩ := contains_iff.1 h
    rw [if_pos h, get?_eq_some_iff, fill, Array.getElem?_map, get?_eq_some_iff.1 hb]
    rfl
  · rw [if_neg h, Option.eq_none_iff_forall_not_mem]
    intro x hx
    rw [Option.mem_def, get?_eq_some_iff, fill, Array.getElem?_map, Option.map_eq_some_iff] at hx
    obtain ⟨_ | ⟨v, b⟩, hs, hv⟩ := hx
    · cases hv
    · cases hv
      exact h (contains_iff.2 ⟨b, get?_eq_some_iff.2 hs⟩)

end SideTable

namespace KeyMap

variable {f : Family} {α : Type} {l : List (Key f × α)} {k : Key f} {a : α}

theorem mem_of_get?_ofList (h : (KeyMap.ofList l).get? k = some a) : (k, a) ∈ l := by
  refine foldlRecOn (motive := fun m : KeyMap f α => ∀ k a, m.get? k = some a → (k, a) ∈ l) l
    _ (fun k a h => ?_) (fun m hm e he k a h => ?_) k a h
  · simp at h
  · rw [get?_insert] at h
    split at h
    · cases h
      exact ‹k = e.1› ▸ he
    · exact hm k a h

theorem size_ofList (l : List (Key f × α)) : (KeyMap.ofList l).size = l.length := by
  have h : ∀ (l : List (Key f × α)) (m : KeyMap f α),
      (l.foldl (fun m e => m.insert e.1 e.2) m).size = m.size + l.length := by
    intro l
    induction l with
    | nil => exact fun _ => rfl
    | cons e l ih =>
      intro m
      rw [foldl_cons, ih, length_cons, insert]
      dsimp only
      omega
  exact (h l empty).trans (Nat.zero_add _)

end KeyMap

end EscapeAnalysis
