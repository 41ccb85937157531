import EscapeAnalysis.Proofs.Tables
import EscapeAnalysis.Run.Machine

/-!
# Heaps, and what hosts do to them

What each change of a heap leaves alone, which objects can be reached from which values, and what a
host may do that only touches objects it can reach (`Host.Confined`).
-/

namespace EscapeAnalysis

section Slots

variable {fields : Array Value} {first i : Nat} {vs : List Value} {v : Value}

/-- Writing consecutive slots changes those slots only, and none beyond the end. -/
theorem getElem?_writeSlots : ∀ (vs : List Value) (fields : Array Value) (first i : Nat),
    (writeSlots fields first vs)[i]? =
      if first ≤ i ∧ i < first + vs.length ∧ i < fields.size then vs[i - first]? else fields[i]?
  | [], fields, first, i => by
    rw [writeSlots]
    simp only [List.zipIdx_nil, List.foldl_nil, List.length_nil, Nat.add_zero]
    rw [if_neg (by omega)]
  | v :: vs, fields, first, i => by
    have hstep : writeSlots fields first (v :: vs) =
        writeSlots (fields.setIfInBounds first v) (first + 1) vs := rfl
    rw [hstep, getElem?_writeSlots vs, Array.size_setIfInBounds, List.length_cons]
    by_cases hi : i = first
    · subst hi
      rw [if_neg (by omega)]
      by_cases hlt : i < fields.size
      · rw [if_pos (by omega), Array.getElem?_setIfInBounds_self_of_lt hlt]
        simp
      · rw [if_neg (by omega), Array.getElem?_eq_none (by simp; omega),
          Array.getElem?_eq_none (by omega)]
    · rw [Array.getElem?_setIfInBounds_ne (Ne.symm hi)]
      by_cases hin : first + 1 ≤ i ∧ i < first + 1 + vs.length ∧ i < fields.size
      · rw [if_pos hin, if_pos (by omega)]
        obtain ⟨k, hk⟩ : ∃ k, i - first = k + 1 := ⟨i - first - 1, by omega⟩
        rw [hk, List.getElem?_cons_succ, show i - (first + 1) = k by omega]
      · rw [if_neg hin, if_neg (by omega)]

@[simp] theorem size_writeSlots : ∀ (vs : List Value) (fields : Array Value) (first : Nat),
    (writeSlots fields first vs).size = fields.size
  | [], _, _ => rfl
  | v :: vs, fields, first => by
    have hstep : writeSlots fields first (v :: vs) =
        writeSlots (fields.setIfInBounds first v) (first + 1) vs := rfl
    rw [hstep, size_writeSlots vs, Array.size_setIfInBounds]

end Slots

namespace Heap

variable {h : Heap} {p : Program} {o o' : ObjRef} {obj : Object} {shape : Shape} {g : GlobalId}

def freshFields (p : Program) (shape : Shape) : Array Value :=
  ((shape.slots p).map fun ty => ty.default.toValue).toArray

theorem get?_modify (h : Heap) (o o' : ObjRef) (g : Object → Object) :
    (h.modify o g).get? o' = if o' = o then (h.get? o').map g else h.get? o' :=
  SlotTable.get?_modify h.objects o o' g

section

variable (hwf : h.objects.WellFormed)
include hwf

theorem get?_alloc (p : Program) (shape : Shape) (o : ObjRef) :
    (h.alloc p shape).2.get? o =
      if o = (h.alloc p shape).1 then some { shape, fields := freshFields p shape }
      else h.get? o :=
  SlotTable.get?_insert hwf _ o

theorem get?_alloc_fst (p : Program) (shape : Shape) : h.get? (h.alloc p shape).1 = none :=
  SlotTable.get?_insert_fst hwf _

theorem wellFormed_alloc (p : Program) (shape : Shape) :
    (h.alloc p shape).2.objects.WellFormed := hwf.insert _

theorem wellFormed_modify (o : ObjRef) (g : Object → Object) :
    (h.modify o g).objects.WellFormed := hwf.modify o g

end

theorem not_ref_mem_freshFields (o : ObjRef) : ¬ Value.ref o ∈ freshFields p shape := by
  simp only [freshFields, List.mem_toArray, List.mem_map, not_exists, not_and]
  intro ty _
  cases ty <;> simp [Ty.default, Const.toValue]

theorem global_ne_ref_of_none (hg : h.globals.get? g = none) : h.global p g ≠ .ref o := by
  rw [global, hg]
  cases p.globalTy g <;> simp [Ty.default, Const.toValue]

theorem global_eq_ref_iff : h.global p g = .ref o ↔ h.globals.get? g = some (.ref o) := by
  rcases hg : h.globals.get? g with _ | v
  · simp [global_ne_ref_of_none hg]
  · simp [global, hg]

theorem global_setGlobal_cases {g' v} (hv : (h.setGlobal g v).global p g' = .ref o) :
    v = .ref o ∨ h.global p g' = .ref o := by
  rw [global_eq_ref_iff] at hv
  rcases SideTable.get?_insert_cases h.globals g v hv with ⟨-, e⟩ | e
  · exact .inl e.symm
  · exact .inr (global_eq_ref_iff.2 e)

/-- The objects that can be reached from some roots through the fields of objects. -/
inductive Reach (h : Heap) (roots : ObjRef → Prop) : ObjRef → Prop
  | root {o : ObjRef} : roots o → Reach h roots o
  | field {o o' : ObjRef} {obj} : Reach h roots o → h.get? o = some obj →
      .ref o' ∈ obj.fields → Reach h roots o'

theorem Reach.subset {roots P : ObjRef → Prop} (hroots : ∀ o, roots o → P o)
    (hfields : ∀ o obj o', P o → h.get? o = some obj → .ref o' ∈ obj.fields → P o')
    (hr : h.Reach roots o) : P o := by
  induction hr with
  | root h => exact hroots _ h
  | field _ hobj hmem ih => exact hfields _ _ _ ih hobj hmem

def InGlobals (h : Heap) (p : Program) (o : ObjRef) : Prop := ∃ g, h.global p g = .ref o

/-- The reference designates an object. -/
def Live (h : Heap) (o : ObjRef) : Prop := ∃ obj, h.get? o = some obj

/-- Every reference in the heap designates an object, and the table of objects is well formed. -/
structure Valid (h : Heap) (p : Program) : Prop where
  wellFormed : h.objects.WellFormed
  fields : ∀ o obj o', h.get? o = some obj → .ref o' ∈ obj.fields → h.Live o'
  globals : ∀ o, h.InGlobals p o → h.Live o

theorem valid_empty (p : Program) : ({} : Heap).Valid p :=
  ⟨.empty, fun o obj o' h => by simp [get?, SlotTable.get?] at h, fun o ⟨g, hg⟩ => by
    rw [global_eq_ref_iff] at hg
    simp [SideTable.get?] at hg⟩

end Heap

def Reply.value? : Reply → Option Value
  | .ret v => v
  | .throw v => some v

namespace Host

variable {σ : Type}

/-- What a callee can reach: from the globals, from what the host holds, and from the arguments. -/
def Known (p : Program) (holds : σ → ObjRef → Prop) (args : List Value) (h : Heap) (s : σ) :
    ObjRef → Prop :=
  h.Reach fun o => h.InGlobals p o ∨ holds s o ∨ .ref o ∈ args

/-- What a callee can hand on: what it can reach, and what it has created. -/
def HandsOn (p : Program) (holds : σ → ObjRef → Prop) (args : List Value) (h : Heap) (s : σ)
    (h' : Heap) (o : ObjRef) : Prop :=
  Known p holds args h s o ∨ h.get? o = none ∧ h'.Live o

/-- What a call does that stays within its reach. Objects keep their shapes, those that the callee
cannot reach are left alone, and it can only pass on, store or keep what it can reach or has
created. -/
structure Within (p : Program) (holds : σ → ObjRef → Prop) (args : List Value) (h : Heap) (s : σ)
    (reply : Reply) (h' : Heap) (s' : σ) : Prop where
  wellFormed : h'.objects.WellFormed
  keeps : ∀ o obj, h.get? o = some obj → ∃ obj', h'.get? o = some obj' ∧ obj'.shape = obj.shape ∧
    obj'.fields.size = obj.fields.size
  untouched : ∀ o obj, h.get? o = some obj → ¬ Known p holds args h s o → h'.get? o = some obj
  fields : ∀ o obj o', HandsOn p holds args h s h' o → h'.get? o = some obj →
    .ref o' ∈ obj.fields → HandsOn p holds args h s h' o'
  globals : ∀ o, h'.InGlobals p o → HandsOn p holds args h s h' o
  held : ∀ o, holds s' o → HandsOn p holds args h s h' o
  reply : ∀ o, reply.value? = some (.ref o) → HandsOn p holds args h s h' o

/-- A host whose calls all stay within their reach; `holds s o` says that the host refers to `o` in
its state `s`. -/
def Confined (host : Host σ) (p : Program) (holds : σ → ObjRef → Prop) : Prop :=
  ∀ callee args h s reply h' s', h.objects.WellFormed →
    host.call p callee args h s = .ok (reply, h', s') → Within p holds args h s reply h' s'

def idle : Host Unit := ⟨fun _ _ _ h s => .ok (.ret none, h, s)⟩

theorem confined_idle (p : Program) : idle.Confined p fun _ _ => False := by
  intro callee args h s reply h' s' hwf hcall
  cases hcall
  refine ⟨hwf, fun o obj hobj => ⟨obj, hobj, rfl, rfl⟩, fun o obj hobj _ => hobj,
    fun o obj o' ho hobj hmem => ?_, fun o ho => .inl (.root (.inl ho)), fun o ho => ho.elim,
    fun o ho => by cases ho⟩
  rcases ho with ho | ⟨hnone, -⟩
  · exact .inl (.field ho hobj hmem)
  · rw [hnone] at hobj
    cases hobj

end Host

end EscapeAnalysis
