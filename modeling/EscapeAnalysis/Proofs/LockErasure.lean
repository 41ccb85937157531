import EscapeAnalysis.Locking.Balance
import EscapeAnalysis.Proofs.Evaluation
import EscapeAnalysis.Proofs.Isomorphisms
import EscapeAnalysis.Proofs.Rebuilding

/-!
# What does not depend on locks

Only the monitor operations look at how often an object is locked. Heaps that differ in locks alone
(`Heap.unlocked`) give every other operation the same effect (`Machine.eval_congr`). A debug state
whose slots are marked takes the marked locks when compiled code is left. If the heap lacks just
these locks, that makes up for them (`Body.deoptimize_mark`).
-/

namespace EscapeAnalysis

open List Heap

namespace SlotTable

variable {f : Family} {α : Type} {t t' : SlotTable f α} {g : α → α}

theorem map_insert (t : SlotTable f α) (g : α → α) (a : α) :
    (t.map g).insert (g a) = ((t.insert a).1, (t.insert a).2.map g) := by
  rcases t with ⟨slots, _ | ⟨i, rest⟩⟩
  · simp [insert, map]
  · have hv : ((slots.map fun s => { s with entry := s.entry.map g })[i]?.map Slot.version) =
        slots[i]?.map Slot.version := by
      simp [Function.comp_def]
    simp only [insert, map, hv, Prod.mk.injEq, mk.injEq, and_true, true_and]
    apply Array.ext_getElem?
    intro j
    simp only [Array.getElem?_setIfInBounds, Array.getElem?_map, Array.size_map]
    split
    · split <;> rfl
    · rfl

theorem map_modify {k u v} (h : ∀ a, g (u a) = v (g a)) :
    (t.modify k u).map g = (t.map g).modify k v := by
  simp only [map, modify, mk.injEq, and_true]
  apply Array.ext_getElem?
  intro j
  simp only [Array.getElem?_map, Array.getElem?_modify]
  by_cases hj : k.index = j
  · simp only [hj, if_true, Option.map_map]
    congr 1
    funext s
    by_cases hv : s.version = k.version
    · simp [hv, Function.comp_def, h]
    · simp [hv]
  · simp [hj]

theorem modify_id (t : SlotTable f α) (k : Key f) : t.modify k id = t := by
  rcases t with ⟨slots, free⟩
  simp only [modify, mk.injEq, and_true]
  apply Array.ext_getElem?
  intro j
  rw [Array.getElem?_modify]
  split
  · simp
  · rfl

theorem WellFormed.of_map (h : (t.map g).WellFormed) : t.WellFormed := by
  refine ⟨h.free_nodup, fun i hi => ?_, fun i v a ha => ?_⟩
  · obtain ⟨v, hv, heven⟩ := h.free_empty i hi
    simp only [SlotTable.map, Array.getElem?_map, Option.map_eq_some_iff] at hv
    obtain ⟨⟨w, _ | a⟩, hs, he⟩ := hv
    · cases he
      exact ⟨w, hs, heven⟩
    · simp at he
  · exact h.odd i v (g a) (by simp [SlotTable.map, ha])

theorem eq_of_map_eq (h : t'.map g = t.map g) (hget : ∀ k, t'.get? k = t.get? k) : t' = t := by
  rcases t with ⟨slots, free⟩
  rcases t' with ⟨slots', free'⟩
  simp only [map, mk.injEq] at h
  obtain ⟨hslots, rfl⟩ := h
  simp only [mk.injEq, and_true]
  apply Array.ext_getElem?
  intro i
  have hi := congrArg (·[i]?) hslots
  simp only [Array.getElem?_map] at hi
  rcases hs : slots[i]? with _ | ⟨v, e⟩
  · simpa [hs] using hi
  · rcases hs' : slots'[i]? with _ | ⟨v', e'⟩
    · simp [hs, hs'] at hi
    · simp only [hs, hs', Option.map_some, Option.some.injEq, Slot.mk.injEq] at hi
      obtain ⟨rfl, -⟩ := hi
      have := hget ⟨i, v'⟩
      simp only [get?, hs, hs', if_true] at this
      rw [this]

end SlotTable

def Object.unlocked (obj : Object) : Object := { obj with locks := 0 }

theorem Object.toNat_locks_add_one {obj : Object} (h : obj.isFull = false) :
    (obj.locks + 1).toNat = obj.locks.toNat + 1 := by
  have hlt := obj.locks.toNat_lt_size
  have hne := of_decide_eq_false h
  have hone : (1 : UInt32).toNat = 1 := rfl
  have hlast : obj.locks.toNat + 1 < UInt32.size := by omega
  rw [UInt32.toNat_add, hone]
  exact Nat.mod_eq_of_lt hlast

theorem Object.toNat_locks_sub_one {obj : Object} (h : obj.locks ≠ 0) :
    (obj.locks - 1).toNat + 1 = obj.locks.toNat := by
  have hpos : obj.locks.toNat ≠ 0 := fun hzero => h (UInt32.toNat_inj.1 hzero)
  have hone : (1 : UInt32).toNat = 1 := rfl
  have hle : (1 : UInt32) ≤ obj.locks := UInt32.le_iff_toNat_le.2 (by omega)
  rw [UInt32.toNat_sub_of_le _ _ hle]
  omega

namespace Heap

variable {h h' : Heap} {p : Program} {o : ObjRef} {obj : Object} {shape : Shape}

def unlocked (h : Heap) : Heap := { h with objects := h.objects.map Object.unlocked }

def locksOf (h : Heap) (o : ObjRef) : Nat := ((h.get? o).map fun obj => obj.locks.toNat).getD 0

theorem locksOf_of_get? (ho : h.get? o = some obj) : h.locksOf o = obj.locks.toNat := by
  simp [locksOf, ho]

theorem unlocked_eq_iff : h'.unlocked = h.unlocked ↔
    h'.objects.map Object.unlocked = h.objects.map Object.unlocked ∧ h'.globals = h.globals ∧
      h'.allocations = h.allocations ∧ h'.rematerialized = h.rematerialized := by
  simp [unlocked]

section Unlocked

variable (he : h'.unlocked = h.unlocked)
include he

theorem get?_of_unlocked (o : ObjRef) :
    h'.get? o = (h.get? o).map fun obj => { obj with locks := .ofNat (h'.locksOf o) } := by
  have hmap := congrArg (SlotTable.get? · o) (unlocked_eq_iff.1 he).1
  simp only [SlotTable.get?_map] at hmap
  change (h'.get? o).map _ = (h.get? o).map _ at hmap
  rcases hobj : h.get? o with _ | obj
  · simpa [hobj] using hmap
  · rcases hobj' : h'.get? o with _ | obj'
    · simp [hobj, hobj'] at hmap
    · rw [locksOf_of_get? hobj']
      simp only [hobj, hobj', Object.unlocked, Option.map_some, Option.some.injEq,
        Object.mk.injEq, and_true] at hmap
      simp [← hmap.1, ← hmap.2]

theorem get?_eq_of_locksOf (hl : h'.locksOf o = h.locksOf o) : h'.get? o = h.get? o := by
  rw [get?_of_unlocked he, hl]
  rcases hobj : h.get? o with _ | obj
  · rfl
  · rw [locksOf_of_get? hobj]
    simp

theorem live_of_unlocked : h'.Live o ↔ h.Live o := by
  rw [Live, Live, get?_of_unlocked he]
  cases h.get? o <;> simp

theorem wellFormed_of_unlocked (hwf : h.objects.WellFormed) : h'.objects.WellFormed := by
  have := hwf.map Object.unlocked
  rw [← (unlocked_eq_iff.1 he).1] at this
  exact this.of_map

theorem eq_of_unlocked (hl : ∀ o, h'.locksOf o = h.locksOf o) : h' = h := by
  obtain ⟨hmap, hglobals, hallocs, hremat⟩ := unlocked_eq_iff.1 he
  have hobjects := SlotTable.eq_of_map_eq hmap fun o => get?_eq_of_locksOf he (hl o)
  cases h
  cases h'
  simp_all

theorem alloc_of_unlocked (p : Program) (shape : Shape) :
    (h'.alloc p shape).1 = (h.alloc p shape).1 ∧
      (h'.alloc p shape).2.unlocked = (h.alloc p shape).2.unlocked := by
  obtain ⟨hmap, hrest⟩ := unlocked_eq_iff.1 he
  have hnew := SlotTable.map_insert h.objects Object.unlocked
    { shape, fields := freshFields p shape }
  have hnew' := SlotTable.map_insert h'.objects Object.unlocked
    { shape, fields := freshFields p shape }
  rw [hmap, hnew, Prod.mk.injEq] at hnew'
  exact ⟨hnew'.1.symm, unlocked_eq_iff.2 ⟨hnew'.2.symm, hrest⟩⟩

theorem modify_fields_of_unlocked (o : ObjRef) {k : Object → Array Value}
    (hk : ∀ obj, k obj.unlocked = k obj) :
    (h'.modify o fun obj => { obj with fields := k obj }).unlocked =
      (h.modify o fun obj => { obj with fields := k obj }).unlocked := by
  obtain ⟨hmap, hrest⟩ := unlocked_eq_iff.1 he
  refine unlocked_eq_iff.2 ⟨?_, hrest⟩
  rw [modify, modify, SlotTable.map_modify (v := fun obj => { obj with fields := k obj }), hmap,
    SlotTable.map_modify (v := fun obj => { obj with fields := k obj })]
  all_goals
    intro obj
    simp only [hk]
    rfl

end Unlocked

theorem unlocked_modify_locks (h : Heap) (o : ObjRef) (k : Object → UInt32) :
    (h.modify o fun obj => { obj with locks := k obj }).unlocked = h.unlocked := by
  have hcomm : ∀ obj : Object, Object.unlocked { obj with locks := k obj } = id obj.unlocked :=
    fun _ => rfl
  refine unlocked_eq_iff.2 ⟨?_, rfl, rfl, rfl⟩
  rw [modify, SlotTable.map_modify hcomm, SlotTable.modify_id]

theorem locksOf_modify_fields (h : Heap) (o o' : ObjRef) (k : Object → Array Value) :
    (h.modify o fun obj => { obj with fields := k obj }).locksOf o' = h.locksOf o' := by
  rw [locksOf, locksOf, get?_modify]
  split
  · cases h.get? o' <;> rfl
  · rfl

theorem locksOf_alloc (hwf : h.objects.WellFormed) (o : ObjRef) :
    (h.alloc p shape).2.locksOf o = h.locksOf o := by
  rw [locksOf, get?_alloc hwf]
  split
  · rename_i he
    rw [he, locksOf, get?_alloc_fst hwf]
    rfl
  · rfl

/-- The heaps differ in the locks of the hidden objects only, and in `h'` these are free. -/
structure Frees (hidden : ObjRef → Prop) (h h' : Heap) : Prop where
  same : h'.unlocked = h.unlocked
  seen : ∀ o, ¬ hidden o → h'.locksOf o = h.locksOf o
  free : ∀ o, hidden o → h'.locksOf o = 0

namespace Frees

variable {hidden hidden' : ObjRef → Prop}

theorem get? (hf : Frees hidden h h') (ho : ¬ hidden o) : h'.get? o = h.get? o :=
  get?_eq_of_locksOf hf.same (hf.seen o ho)

theorem mono (hf : Frees hidden h h') (hsub : ∀ o, hidden o → hidden' o)
    (hfree : ∀ o, hidden' o → ¬ hidden o → h'.locksOf o = 0) : Frees hidden' h h' where
  same := hf.same
  seen o ho := hf.seen o fun hh => ho (hsub o hh)
  free o ho := (Classical.em (hidden o)).elim (hf.free o) (hfree o ho)

theorem setLocks_left (hf : Frees hidden h h') (ho : hidden o) (n : UInt32) :
    Frees hidden (h.modify o fun obj => { obj with locks := n }) h' where
  same := by rw [hf.same, unlocked_modify_locks]
  seen o' ho' := by
    rw [hf.seen o' ho', locksOf, locksOf, get?_modify, if_neg]
    rintro rfl
    exact ho' ho
  free := hf.free

theorem apply (hwf : h.objects.WellFormed) (hf : Frees hidden h h') (p : Program) (eff : Effect)
    (hlocks : ∀ o n, eff = .setLocks o n → ¬ hidden o) :
    (eff.apply p h').1 = (eff.apply p h).1 ∧
      Frees hidden (eff.apply p h).2 (eff.apply p h').2 := by
  have hwf' := wellFormed_of_unlocked hf.same hwf
  obtain ⟨hmap, hglobals, hallocs, hremat⟩ := unlocked_eq_iff.1 hf.same
  cases eff with
  | none | value => exact ⟨rfl, hf⟩
  | alloc shape =>
    obtain ⟨hfst, hsame⟩ := alloc_of_unlocked hf.same p shape
    refine ⟨congrArg (fun o => some (Value.ref o)) hfst, ?_, fun o ho => ?_, fun o ho => ?_⟩
    · obtain ⟨h₁, h2, h3, h4⟩ := unlocked_eq_iff.1 hsame
      exact unlocked_eq_iff.2 ⟨h₁, h2, congrArg (· + 1) h3, h4⟩
    · exact (locksOf_alloc hwf' o).trans ((hf.seen o ho).trans (locksOf_alloc hwf o).symm)
    · exact (locksOf_alloc hwf' o).trans (hf.free o ho)
  | write o first vs =>
    refine ⟨rfl, ?_, fun o' ho' => ?_, fun o' ho' => ?_⟩ <;> simp only [Effect.apply]
    · exact modify_fields_of_unlocked hf.same o fun _ => rfl
    · rw [locksOf_modify_fields, hf.seen o' ho', locksOf_modify_fields]
    · rw [locksOf_modify_fields, hf.free o' ho']
  | setLocks o n =>
    refine ⟨rfl, ?_, fun o' ho' => ?_, fun o' ho' => ?_⟩ <;> simp only [Effect.apply]
    · rw [unlocked_modify_locks, hf.same, unlocked_modify_locks]
    · simp only [locksOf, get?_modify, hf.get? ho']
    · rw [← hf.free o' ho', locksOf, locksOf, get?_modify, if_neg]
      rintro rfl
      exact hlocks o' n rfl ho'
  | setGlobal gl v =>
    refine ⟨rfl, unlocked_eq_iff.2 ⟨hmap, ?_, hallocs, hremat⟩, hf.seen, hf.free⟩
    simp only [Effect.apply, setGlobal, hglobals]

end Frees

end Heap

namespace Host

variable {σ : Type} {host : Host σ} {p : Program} {holds : σ → ObjRef → Prop} {args : List Value}
  {h h' h₁ : Heap} {s s₁ : σ} {o : ObjRef} {reply : Reply} {callee : CalleeId}

/-- A host whose calls do not depend on the locks of objects out of their reach, and leave objects
in their reach and new ones the same whatever these locks are. -/
def Oblivious (host : Host σ) (p : Program) (holds : σ → ObjRef → Prop) : Prop :=
  ∀ callee args h s reply h₁ s₁ h', h.objects.WellFormed →
    host.call p callee args h s = .ok (reply, h₁, s₁) → h'.unlocked = h.unlocked →
    (∀ o, Known p holds args h s o → h'.get? o = h.get? o) →
    ∃ h₁', host.call p callee args h' s = .ok (reply, h₁', s₁) ∧ h₁'.unlocked = h₁.unlocked ∧
      ∀ o, HandsOn p holds args h s h₁ o → h₁'.get? o = h₁.get? o

theorem oblivious_idle (p : Program) : idle.Oblivious p fun _ _ => False := by
  intro callee args h s reply h₁ s₁ h' _ hcall hsame hknown
  cases hcall
  refine ⟨h', rfl, hsame, fun o ho => ?_⟩
  rcases ho with ho | ⟨hnone, obj, hobj⟩
  · exact hknown o ho
  · simp [hnone] at hobj

theorem known_of_unlocked (he : h'.unlocked = h.unlocked) (hk : Known p holds args h' s o) :
    Known p holds args h s o := by
  refine hk.subset (fun o ho => .root ?_) fun o obj o' hr hobj hmem => ?_
  · simpa only [Heap.InGlobals, Heap.global, (unlocked_eq_iff.1 he).2.1] using ho
  · rw [get?_of_unlocked he, Option.map_eq_some_iff] at hobj
    obtain ⟨obj0, hobj0, rfl⟩ := hobj
    exact hr.field hobj0 hmem

theorem frees_of_call {hidden} (hhost : host.Confined p holds) (hobl : host.Oblivious p holds)
    (hwf : h.objects.WellFormed) (hf : Heap.Frees hidden h h')
    (hhidden : ∀ o, hidden o → h.Live o ∧ ¬ Known p holds args h s o)
    (hcall : host.call p callee args h s = .ok (reply, h₁, s₁)) :
    ∃ h1', host.call p callee args h' s = .ok (reply, h1', s₁) ∧ Heap.Frees hidden h₁ h1' := by
  obtain ⟨h1', hcall', hsame, heq⟩ := hobl _ _ _ _ _ _ _ h' hwf hcall hf.same
    fun o ho => hf.get? fun hh => (hhidden o hh).2 ho
  have hw := hhost _ _ _ _ _ _ _ hwf hcall
  have hw' := hhost _ _ _ _ _ _ _ (wellFormed_of_unlocked hf.same hwf) hcall'
  refine ⟨h1', hcall', hsame, fun o ho => ?_, fun o ho => ?_⟩
  · suffices hget : h1'.get? o = h₁.get? o by rw [locksOf, hget, locksOf]
    by_cases hon : HandsOn p holds args h s h₁ o
    · exact heq o hon
    · simp only [HandsOn, not_or, not_and] at hon
      rcases hobj : h.get? o with _ | obj
      · rcases hobj1 : h₁.get? o with _ | obj1
        · rw [get?_of_unlocked hsame, hobj1]
          rfl
        · exact absurd ⟨obj1, hobj1⟩ (hon.2 hobj)
      · rw [hw.untouched o obj hobj hon.1]
        exact hw'.untouched o obj ((hf.get? ho).trans hobj)
          fun hk => hon.1 (known_of_unlocked hf.same hk)
  · obtain ⟨hlive, hnot⟩ := hhidden o ho
    obtain ⟨obj, hobj⟩ := (live_of_unlocked hf.same).2 hlive
    have hobj1 := hw'.untouched o obj hobj fun hk => hnot (known_of_unlocked hf.same hk)
    rw [locksOf_of_get? hobj1, ← locksOf_of_get? hobj, hf.free o ho]

end Host

theorem mem_zip_self {α : Type} {e} {l : List α} (h : e ∈ l.zip l) : e.1 = e.2 ∧ e.1 ∈ l := by
  induction l with
  | nil => cases h
  | cons a l ih =>
    rcases mem_cons.1 h with rfl | h
    · exact ⟨rfl, .head _⟩
    · exact ⟨(ih h).1, .tail a (ih h).2⟩

namespace Heap

variable {h h' : Heap}

theorem equivAll_of_closed {P : ObjRef → Prop}
    (hP : ∀ o, P o → ∃ obj, h.get? o = some obj ∧ h'.get? o = some obj ∧
      ∀ o', .ref o' ∈ obj.fields → P o') (vs : List Value) (hvs : ∀ o, .ref o ∈ vs → P o) :
    h.equivAll vs h' vs = true := by
  simp only [equivAll, beq_self_eq_true, Bool.true_and, all_eq_true]
  intro e he
  obtain ⟨heq, hmem⟩ := mem_zip_self he
  rw [← heq]
  exact equiv_of_closed hP fun o ho => hvs o (ho ▸ hmem)

end Heap

namespace Machine

variable {m : Machine} {f : Frame} {h h' : Heap} {x : InstId} {op : Op}

theorem object_bind_congr {α : Type} {k : Object → Except Halt α} (he : h'.unlocked = h.unlocked)
    (hk : ∀ obj n, k { obj with locks := n } = k obj) (o : ObjRef) :
    (object h' o >>= k) = (object h o >>= k) := by
  rw [object, object, get?_of_unlocked he]
  cases h.get? o with
  | none => rfl
  | some obj => exact hk obj _

/-- The operation of a monitor has the same effect if its object is the same; no other operation
depends on locks. -/
theorem eval_congr (he : h'.unlocked = h.unlocked)
    (hmonitor : ∀ y d o, op.monitor? = some (y, d) → f.values.get? y = some (.ref o) →
      h'.get? o = h.get? o) : m.eval f h' x op = m.eval f h x op := by
  have htarget : ∀ y d (k : ObjRef → Object → Except Halt Effect), op.monitor? = some (y, d) →
      (target f y >>= fun o => object h' o >>= k o) =
        (target f y >>= fun o => object h o >>= k o) := by
    intro y d k hop
    rcases ht : target f y with e | o
    · rfl
    · show (object h' o >>= k o) = (object h o >>= k o)
      rw [object, object, hmonitor y d o hop (target_eq_ok.1 ht)]
  cases op with
  | loadField | loadElem | arrayLength | loadClass =>
    exact bind_congr fun _ => object_bind_congr he (fun _ _ => rfl) _
  | storeField | arrayFill =>
    exact bind_congr fun _ => bind_congr fun _ => object_bind_congr he (fun _ _ => rfl) _
  | storeElem =>
    exact bind_congr fun _ => bind_congr fun _ => bind_congr fun _ =>
      object_bind_congr he (fun _ _ => rfl) _
  | rawStore =>
    exact bind_congr fun _ => bind_congr fun _ => object_bind_congr he (fun _ _ => rfl) _
  | arrayCopy =>
    refine bind_congr fun _ => bind_congr fun _ => bind_congr fun _ => bind_congr fun _ =>
      bind_congr fun _ => ?_
    refine Eq.trans ?_ (object_bind_congr he (fun _ _ => rfl) _)
    exact bind_congr fun _ => object_bind_congr he (fun _ _ => rfl) _
  | loadGlobal gl =>
    simp only [eval, Heap.global, (unlocked_eq_iff.1 he).2.1]
  | instanceOf | checkCast =>
    refine bind_congr fun v => ?_
    cases v with
    | ref => exact object_bind_congr he (fun _ _ => rfl) _
    | _ => rfl
  | monitorEnter obj => exact htarget obj 1 _ rfl
  | monitorExit obj => exact htarget obj (-1) _ rfl
  | _ => rfl

end Machine

/-- The slot stands for a lock on `o` that the code has taken. -/
def MonitorSlot.holds (values : SideTable .inst Value) (o : ObjRef) (slot : MonitorSlot) : Bool :=
  !slot.eliminated && match slot.obj with
    | .value x => values.get? x = some (.ref o)
    | _ => false

theorem MonitorSlot.holds_iff {values o} {slot : MonitorSlot} :
    slot.holds values o = true ↔ slot.eliminated = false ∧
      ∃ x, slot.obj = .value x ∧ values.get? x = some (.ref o) := by
  obtain ⟨obj, eliminated⟩ := slot
  cases obj <;> simp [holds]

namespace Heap

variable {h : Heap} {o : ObjRef} {p : Program} {shape : Shape}

theorem live_alloc (hwf : h.objects.WellFormed) (ho : h.Live o) : (h.alloc p shape).2.Live o := by
  obtain ⟨obj, hobj⟩ := ho
  rw [Live, get?_alloc hwf]
  split
  · exact ⟨_, rfl⟩
  · exact ⟨obj, hobj⟩

theorem live_modify (o' : ObjRef) (u : Object → Object) : (h.modify o' u).Live o ↔ h.Live o := by
  rw [Live, Live, get?_modify]
  split
  · cases h.get? o <;> simp
  · rfl

theorem locksOf_lt (h : Heap) (o : ObjRef) : h.locksOf o < UInt32.size := by
  rcases hobj : h.get? o with _ | obj
  · simp [locksOf, hobj, UInt32.size]
  · exact locksOf_of_get? hobj ▸ obj.locks.toNat_lt_size

theorem lockable_iff : h.Lockable o ↔ h.Live o ∧ h.locksOf o + 1 < UInt32.size := by
  rw [Lockable, Live, ← exists_and_right]
  refine exists_congr fun obj => and_congr_right fun hobj => ?_
  have hlt := obj.locks.toNat_lt_size
  rw [locksOf_of_get? hobj, Object.isFull, decide_eq_false_iff_not]
  omega

theorem locksOf_lock (ho : h.Lockable o) (o' : ObjRef) :
    (h.lock o).locksOf o' = h.locksOf o' + if o' = o then 1 else 0 := by
  obtain ⟨obj, hobj, hroom⟩ := ho
  rw [lock, locksOf, get?_modify]
  split
  · rename_i he
    rw [he, hobj, locksOf_of_get? hobj]
    exact obj.toNat_locks_add_one hroom
  · rfl

end Heap

namespace Rebuild

variable {program : Program} {values : SideTable .inst Value} {recipes : List Recipe}
  {owed : ObjRef → Nat} {r r' r₁ r₁' r₂ r₂' : Rebuild} {o : ObjRef} {w : Value}
  {ws ws₂ : List Value}

/-- Every reference that the rebuilding knows of designates an object. -/
structure Grounded (values : SideTable .inst Value) (r : Rebuild) : Prop where
  wellFormed : r.heap.objects.WellFormed
  fields : ∀ o obj o', r.heap.get? o = some obj → .ref o' ∈ obj.fields → r.heap.Live o'
  values : ∀ x o, values.get? x = some (.ref o) → r.heap.Live o
  built : ∀ (i : Nat) (o : ObjRef), r.built[i]? = some (some o) → r.heap.Live o

theorem Grounded.modify (hr : Grounded values r) (o : ObjRef) {u}
    (hu : ∀ obj o', r.heap.get? o = some obj → .ref o' ∈ (u obj).fields → r.heap.Live o') :
    Grounded values { r with heap := r.heap.modify o u } := by
  have keeps : ∀ o', r.heap.Live o' → (r.heap.modify o u).Live o' :=
    fun o' ho' => (live_modify o u).2 ho'
  refine ⟨wellFormed_modify hr.wellFormed o u, fun o1 obj o2 hobj hmem => keeps o2 ?_,
    fun x o' hx => keeps o' (hr.values x o' hx), fun i o' hi => keeps o' (hr.built i o' hi)⟩
  change (r.heap.modify o u).get? o1 = some obj at hobj
  rw [get?_modify] at hobj
  split at hobj
  · rename_i he
    subst he
    obtain ⟨obj0, hobj0, rfl⟩ := Option.map_eq_some_iff.1 hobj
    exact hu obj0 o2 hobj0 hmem
  · exact hr.fields o1 obj o2 hobj hmem

theorem Grounded.live (hr : Grounded values r) (hw : r.Knows values w) (ho : w = .ref o) :
    r.heap.Live o :=
  (hw o ho).elim (fun ⟨x, hx⟩ => hr.values x o hx) fun ⟨i, hi⟩ => hr.built i o hi

theorem Grounded.create (hr : Grounded values r) (shape : Shape) (idx : Nat) :
    Grounded values (r.create program shape idx) := by
  have hwf := hr.wellFormed
  have keeps : ∀ o, r.heap.Live o → (r.create program shape idx).heap.Live o :=
    fun o ho => live_alloc hwf ho
  refine ⟨wellFormed_alloc hwf _ _, fun o obj o' hobj hmem => ?_,
    fun x o hx => keeps o (hr.values x o hx), fun i o hi => ?_⟩
  · change (r.heap.alloc program shape).2.get? o = some obj at hobj
    rw [get?_alloc hwf] at hobj
    split at hobj
    · cases hobj
      exact absurd hmem (not_ref_mem_freshFields o')
    · exact keeps o' (hr.fields o obj o' hobj hmem)
  · simp only [Rebuild.create, Array.getElem?_setIfInBounds] at hi
    split at hi
    · split at hi
      · cases hi
        exact ⟨_, (get?_alloc hwf ..).trans (if_pos rfl)⟩
      · cases hi
    · exact keeps o (hr.built i o hi)

theorem Grounded.stable : Stable program values recipes (Grounded values) where
  create _ idx recipe hr _ _ := hr.create recipe.shape idx
  lock _ o hr := hr.modify o (hr.fields o)
  setField _ _ o _ _ _ _ hr _ _ _ hw := hr.modify o fun obj o' hobj hmem => by
    rcases Array.mem_or_eq_of_mem_setIfInBounds hmem with hmem | hmem
    · exact hr.fields o obj o' hobj hmem
    · exact hr.live hw (Value.narrow_eq_ref.1 hmem.symm)
  pop _ _ hr := ⟨hr.wellFormed, hr.fields, hr.values, hr.built⟩

/-- The two rebuildings differ in locks only: the second one owes `owed o` locks of `o`. -/
structure Owes (values : SideTable .inst Value) (owed : ObjRef → Nat) (r r' : Rebuild) :
    Prop where
  wellFormed : r.heap.objects.WellFormed
  values : ∀ x o, values.get? x = some (.ref o) → r.heap.Live o
  same : r'.heap.unlocked = r.heap.unlocked
  locks : ∀ o, r.heap.locksOf o = r'.heap.locksOf o + owed o
  built : r'.built = r.built
  pending : r'.pending = r.pending

/-- `mark` leaves the object of the slot alone, and marks it only if it names the value of an
instruction that holds a reference. -/
structure Marks (values : SideTable .inst Value) (mark : MonitorSlot → MonitorSlot)
    (slot : MonitorSlot) : Prop where
  obj : (mark slot).obj = slot.obj
  kept : slot.eliminated = true → (mark slot).eliminated = true
  new : slot.eliminated = false → (mark slot).eliminated = true → ∃ x, slot.obj = .value x ∧
    ∀ v, values.get? x = some v → ∃ o, v = .ref o

namespace Owes

variable {idx : Nat}

section

variable (h : Owes values owed r r')
include h

theorem create (program : Program) (shape : Shape) (idx : Nat) :
    (r'.heap.alloc program shape).1 = (r.heap.alloc program shape).1 ∧
      Owes values owed (r.create program shape idx) (r'.create program shape idx) := by
  have hwf' := wellFormed_of_unlocked h.same h.wellFormed
  obtain ⟨hfst, hsame⟩ := alloc_of_unlocked h.same program shape
  refine ⟨hfst, wellFormed_alloc h.wellFormed _ _,
    fun x o hx => live_alloc h.wellFormed (h.values x o hx), ?_, fun o => ?_, ?_, ?_⟩
  · obtain ⟨h₁, h2, h3, h4⟩ := unlocked_eq_iff.1 hsame
    exact unlocked_eq_iff.2 ⟨h₁, h2, h3, congrArg (· + 1) h4⟩
  · change (r.heap.alloc program shape).2.locksOf o = (r'.heap.alloc program shape).2.locksOf o + _
    rw [locksOf_alloc h.wellFormed, locksOf_alloc hwf', h.locks o]
  · simp only [Rebuild.create, h.built, hfst]
  · simp only [Rebuild.create, h.pending]

theorem eval {v} (he : Rebuild.eval program values recipes r v = .ok (w, r₁)) :
    ∃ r₁', Rebuild.eval program values recipes r' v = .ok (w, r₁') ∧ Owes values owed r₁ r₁' := by
  rcases eval_eq_ok.1 he with ⟨hw, rfl⟩ | ⟨idx, o, hs, ho, rfl⟩
  · exact ⟨r', eval_eq_ok.2 (.inl ⟨hw, rfl⟩), h⟩
  · rcases object_eq_ok.1 ho with ⟨hb, rfl⟩ | ⟨recipe, hb, hrecipe, rfl, rfl⟩
    · exact ⟨r', eval_eq_ok.2
        (.inr ⟨idx, o, hs, object_eq_ok.2 (.inl ⟨h.built ▸ hb, rfl⟩), rfl⟩), h⟩
    · obtain ⟨hfst, hnew⟩ := h.create program recipe.shape idx
      exact ⟨_, eval_eq_ok.2 (.inr ⟨idx, _, hs, object_eq_ok.2
        (.inr ⟨recipe, h.built ▸ hb, hrecipe, hfst.symm, rfl⟩), rfl⟩), hnew⟩

theorem evalAll {vs} (he : Rebuild.evalAll program values recipes r vs = .ok (ws, r₁)) :
    ∃ r₁', Rebuild.evalAll program values recipes r' vs = .ok (ws, r₁') ∧
      Owes values owed r₁ r₁' := by
  induction vs generalizing r r' ws with
  | nil =>
    cases he
    exact ⟨r', rfl, h⟩
  | cons v vs ih =>
    simp only [Rebuild.evalAll, Except.bind_eq_ok, Except.pure_eq_ok, Prod.mk.injEq] at he ⊢
    obtain ⟨⟨w, r₂⟩, hv, ⟨ws', r3⟩, hvs, rfl, rfl⟩ := he
    obtain ⟨r₂', hv', h2⟩ := h.eval hv
    obtain ⟨r3', hvs', h3⟩ := ih h2 hvs
    exact ⟨r3', ⟨_, hv', _, hvs', rfl, rfl⟩, h3⟩

theorem setField (o : ObjRef) (idx : Nat) (w : Value) :
    Owes values owed { r with heap := r.heap.setField o idx w }
      { r' with heap := r'.heap.setField o idx w } := by
  refine ⟨wellFormed_modify h.wellFormed _ _,
    fun x o' hx => (live_modify o _).2 (h.values x o' hx), ?_, fun o' => ?_, h.built, h.pending⟩
  · exact modify_fields_of_unlocked h.same o fun _ => rfl
  · simp only [Heap.setField, Heap.locksOf_modify_fields]
    exact h.locks o'

theorem fillFields {slots fields}
    (he : Rebuild.fillFields program values recipes slots o r idx fields = .ok r₁) :
    ∃ r₁', Rebuild.fillFields program values recipes slots o r' idx fields = .ok r₁' ∧
      Owes values owed r₁ r₁' := by
  induction fields generalizing r r' idx with
  | nil =>
    cases he
    exact ⟨r', rfl, h⟩
  | cons v fields ih =>
    obtain ⟨w, ty, r₂, hv, hty, he⟩ := fillFields_cons_eq_ok.1 he
    obtain ⟨r₂', hv', h2⟩ := h.eval hv
    obtain ⟨r3', he', h3⟩ := ih (h2.setField o idx _) he
    exact ⟨r3', fillFields_cons_eq_ok.2 ⟨w, ty, r₂', hv', hty, he'⟩, h3⟩

theorem fill {n} (he : Rebuild.fill program values recipes n r = .ok r₁)
    : ∃ r₁', Rebuild.fill program values recipes n r' = .ok r₁' ∧ Owes values owed r₁ r₁' := by
  induction n generalizing r r' with
  | zero =>
    cases he
    exact ⟨r', rfl, h⟩
  | succ n ih =>
    rw [Rebuild.fill] at he ⊢
    rw [h.pending, h.built]
    split at he
    · cases he
      exact ⟨r', rfl, h⟩
    · rename_i idx pending hp
      split at he
      · rename_i o' recipe hb hrecipe
        obtain ⟨r₂, hf, he⟩ := Except.bind_eq_ok.1 he
        have h0 : Owes values owed { r with pending } { r' with pending } :=
          ⟨h.wellFormed, h.values, h.same, h.locks, h.built, rfl⟩
        obtain ⟨r₂', hf', h2⟩ := h0.fillFields hf
        obtain ⟨r3', he', h3⟩ := ih h2 he
        refine ⟨r3', Except.bind_eq_ok.2 ⟨r₂', ?_, he'⟩, h3⟩
        rw [← h.built]
        exact hf'
      · cases he

theorem lock (he : r.lock o = .ok r₁) : ∃ r₁', r'.lock o = .ok r₁' ∧ Owes values owed r₁ r₁' := by
  obtain ⟨ho, rfl⟩ := lock_eq_ok.1 he
  obtain ⟨hlive, hroom⟩ := lockable_iff.1 ho
  have ho' : r'.heap.Lockable o := by
    have := h.locks o
    exact lockable_iff.2 ⟨(live_of_unlocked h.same).2 hlive, by omega⟩
  refine ⟨_, lock_eq_ok.2 ⟨ho', rfl⟩, wellFormed_modify h.wellFormed _ _,
    fun x o' hx => (live_modify o _).2 (h.values x o' hx), ?_, fun o' => ?_, h.built, h.pending⟩
  · simp only [Heap.lock, unlocked_modify_locks, h.same]
  · rw [locksOf_lock ho, locksOf_lock ho', h.locks o']
    omega

end

/-- The second rebuilding takes a lock that it owes. Since the first one has it, there is room. -/
theorem repay (ho : r.heap.Live o)
    (h : Owes values (fun o' => owed o' + if o' = o then 1 else 0) r r') :
    ∃ r₁', r'.lock o = .ok r₁' ∧ Owes values owed r r₁' := by
  have ho' : r'.heap.Lockable o := by
    have hlt := r.heap.locksOf_lt o
    rw [h.locks o, if_pos rfl] at hlt
    exact lockable_iff.2 ⟨(live_of_unlocked h.same).2 ho, by omega⟩
  refine ⟨_, lock_eq_ok.2 ⟨ho', rfl⟩, h.wellFormed, h.values, ?_, fun o' => ?_, h.built, h.pending⟩
  · simp only [Heap.lock, unlocked_modify_locks, h.same]
  · rw [locksOf_lock ho', h.locks o']
    omega

section Mark

variable {mark : MonitorSlot → MonitorSlot} {slot : MonitorSlot} {s : SafepointId}

theorem evalMonitor (hm : Marks values mark slot)
    (h : Owes values (fun o => owed o +
      if (mark slot).eliminated && slot.holds values o then 1 else 0) r r')
    (he : Rebuild.evalMonitor program values recipes s r slot = .ok (w, r₁)) :
    ∃ r₁', Rebuild.evalMonitor program values recipes s r' (mark slot) = .ok (w, r₁') ∧
      Owes values owed r₁ r₁' := by
  obtain ⟨r₂, hv, ⟨hold, rfl⟩ | ⟨hold, o, rfl, hlock⟩⟩ := evalMonitor_eq_ok.1 he
  · cases hnew : (mark slot).eliminated with
    | false =>
      have hsame : Owes values owed r r' := by simpa [hnew] using h
      obtain ⟨r₂', hv', h2⟩ := hsame.eval hv
      exact ⟨r₂', evalMonitor_eq_ok.2 ⟨r₂', hm.obj ▸ hv', .inl ⟨hnew, rfl⟩⟩, h2⟩
    | true =>
      -- the lock that the second rebuilding takes is one that it owes
      obtain ⟨x, hobj, href⟩ := hm.new hold hnew
      rw [hobj] at hv
      obtain ⟨v, hx, hres⟩ := eval_value.1 hv
      cases hres
      obtain ⟨o, rfl⟩ := href _ hx
      have hh : ∀ o', slot.holds values o' = decide (o' = o) := by
        intro o'
        simp [MonitorSlot.holds, hold, hobj, hx, eq_comm]
      simp only [hnew, hh, Bool.true_and, decide_eq_true_eq] at h
      have hv' : Rebuild.eval program values recipes r' (mark slot).obj = .ok (.ref o, r') := by
        rw [hm.obj, hobj]
        exact eval_value.2 ⟨_, hx, rfl⟩
      obtain ⟨r₁', hlock', h1⟩ := repay (h.values x o hx) h
      exact ⟨r₁', evalMonitor_eq_ok.2 ⟨r', hv', .inr ⟨hnew, o, rfl, hlock'⟩⟩, h1⟩
  · have hsame : Owes values owed r r' := by simpa [MonitorSlot.holds, hold] using h
    obtain ⟨r₂', hv', h2⟩ := hsame.eval hv
    obtain ⟨r₁', hlock', h1⟩ := h2.lock hlock
    exact ⟨r₁', evalMonitor_eq_ok.2 ⟨r₂', hm.obj ▸ hv', .inr ⟨hm.kept hold, o, rfl, hlock'⟩⟩, h1⟩

theorem evalMonitors (owed : ObjRef → Nat) {ms} (hm : ∀ slot ∈ ms, Marks values mark slot)
    (h : Owes values (fun o => owed o +
      ms.countP fun slot => (mark slot).eliminated && slot.holds values o) r r')
    (he : Rebuild.evalMonitors program values recipes s r ms = .ok (ws, r₁)) :
    ∃ r₁', Rebuild.evalMonitors program values recipes s r' (ms.map mark) = .ok (ws, r₁') ∧
      Owes values owed r₁ r₁' := by
  induction ms generalizing r r' ws with
  | nil =>
    cases he
    exact ⟨r', rfl, h⟩
  | cons slot ms ih =>
    simp only [map_cons, Rebuild.evalMonitors, Except.bind_eq_ok, Except.pure_eq_ok,
      Prod.mk.injEq] at he ⊢
    obtain ⟨⟨w, r₂⟩, hv, ⟨ws', r3⟩, hvs, rfl, rfl⟩ := he
    simp only [countP_cons, ← Nat.add_assoc] at h
    obtain ⟨r₂', hv', h2⟩ := evalMonitor (hm slot (by simp)) h hv
    obtain ⟨r3', hvs', h3⟩ := ih (fun slot hs => hm slot (by simp [hs])) h2 hvs
    exact ⟨r3', ⟨_, hv', _, hvs', rfl, rfl⟩, h3⟩

end Mark

end Owes

end Rebuild

/-- Leaving compiled code with marked slots makes up for the locks that the heap lacks. -/
theorem Body.deoptimize_mark {body body' : Body} {program h h' h₁ values sp d mark}
    (hstates : body'.states.get? sp = (body.states.get? sp).map fun state =>
      { state with monitors := state.monitors.map mark })
    (hmarks : ∀ state, body.states.get? sp = some state → ∀ slot ∈ state.monitors,
      Rebuild.Marks values mark slot) (hvalid : h.Valid program)
    (hvalues : ∀ x o, values.get? x = some (.ref o) → h.Live o) (hsame : h'.unlocked = h.unlocked)
    (hlocks : ∀ state, body.states.get? sp = some state → ∀ o, h.locksOf o = h'.locksOf o +
      state.monitors.countP fun slot => (mark slot).eliminated && slot.holds values o)
    (hd : body.deoptimize program h values sp = .ok (d, h₁)) :
    body'.deoptimize program h' values sp = .ok (d, h₁) ∧
      Exit.equiv h₁ (.deopt d) h₁ (.deopt d) = true := by
  obtain ⟨recipes, hstable⟩ := deoptimize_stable hd
  obtain ⟨r, hr, rfl, hknows⟩ := hstable _ Rebuild.Grounded.stable
    ⟨hvalid.wellFormed, hvalid.fields, hvalues, by simp [Array.getElem?_replicate]⟩
  constructor
  · rw [deoptimize] at hd
    split at hd
    · cases hd
    · rename_i state hstate
      simp only [Except.bind_eq_ok, Except.pure_eq_ok, Prod.mk.injEq] at hd
      obtain ⟨⟨locals, r₁⟩, hlocals, ⟨monitors, r₂⟩, hmonitors, r3, hfill, rfl, hheap⟩ := hd
      have start : Rebuild.Owes values
          (fun o => 0 + state.monitors.countP fun slot =>
            (mark slot).eliminated && slot.holds values o)
          { heap := h, built := Array.replicate state.recipes.length none }
          { heap := h', built := Array.replicate state.recipes.length none } := by
        refine ⟨hvalid.wellFormed, hvalues, hsame, fun o => ?_, rfl, rfl⟩
        rw [Nat.zero_add]
        exact hlocks state hstate o
      obtain ⟨r₁', hlocals', h₁⟩ := start.evalAll hlocals
      obtain ⟨r₂', hmonitors', h2⟩ :=
        Rebuild.Owes.evalMonitors (fun _ => 0) (hmarks state hstate) h₁ hmonitors
      obtain ⟨r3', hfill', h3⟩ := h2.fill hfill
      have hheap' : r3'.heap = r3.heap :=
        eq_of_unlocked h3.same fun o => (h3.locks o).symm
      simp only [deoptimize, hstates, hstate, Option.map_some, Except.bind_eq_ok]
      exact ⟨_, hlocals', _, hmonitors', _, hfill', by rw [hheap', hheap]; rfl⟩
  · have hclosed : ∀ o, r.heap.Live o → ∃ obj, r.heap.get? o = some obj ∧
        r.heap.get? o = some obj ∧ ∀ o', .ref o' ∈ obj.fields → r.heap.Live o' := by
      rintro o ⟨obj, hobj⟩
      exact ⟨obj, hobj, hobj, fun o' ho' => hr.fields o obj o' hobj ho'⟩
    simp only [Exit.equiv, beq_self_eq_true, Bool.true_and, Bool.and_eq_true]
    exact ⟨equivAll_of_closed hclosed _ fun o ho =>
        hr.live (hknows _ (mem_append_left _ ho)) rfl,
      equivAll_of_closed hclosed _ fun o ho =>
        hr.live (hknows _ (mem_append_right _ ho)) rfl⟩

end EscapeAnalysis
