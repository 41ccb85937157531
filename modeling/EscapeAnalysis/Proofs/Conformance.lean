import EscapeAnalysis.Proofs.Constraints
import EscapeAnalysis.Proofs.Heaps

/-!
# What a graph has to say about the code

A node stands for an object if it is the node of its allocation, or the phantom when callees may see
the object (`Graph.Stands`). A heap is sound if its fields and globals keep this relation
(`Graph.SoundHeap`), and so does every change of the heap that keeps it.

Slot by slot, a load must find no more than its instruction may point to, and a slot must be able to
hold what is stored in it (`Graph.Conforms`); null does not matter. In this form a graph may speak
for code that it was not made for (`Graph.Conforms.rename`). A graph that is solved speaks for its
own code (`Graph.Solved.upholds`).
-/

namespace EscapeAnalysis

open List

/-- The shapes of the objects that an allocation can create. -/
def AllocShape.Describes : AllocShape → Shape → Prop
  | .inst c, .inst c' => c' = c
  | .array elem len, .array elem' len' => elem' = elem ∧ ∀ k, len = some k → len' = k
  | _, _ => False

theorem AllocShape.Describes.eq_inst {c shape} (h : (inst c).Describes shape) :
    shape = .inst c := by
  cases shape with
  | inst => exact congrArg _ h
  | array => cases h

/-- The access concerns slot `i` of an object of the given shape. -/
def Access.Touches (p : Program) (shape : Shape) (i : Nat) : Access → Prop
  | .field f => ∃ c, shape = .inst c ∧ (p.layout c)[i]? = some f
  | .elem k => shape.elem?.isSome ∧ ∀ j, k = some j → i = j
  | .allElems => shape.elem?.isSome

/-- The object has a value for each slot of its shape. -/
def Object.Sized (p : Program) (obj : Object) : Prop :=
  obj.fields.size = (obj.shape.slots p).length

namespace Graph

variable (g : Graph) (p : Program) (org : ObjRef → Option Nat) {k limit : Nat} {cells : Cells}

/-- Node `b` stands for object `o`. -/
def Stands (o : ObjRef) (b : Node) : Prop :=
  match org o with
  | some n => b = .alloc n ∨ b = .phantom ∧ .none < g.escapeOf n
  | none => b = .phantom

/-- Callees may see `o`. -/
def Escaped (o : ObjRef) : Prop := g.Stands org o .phantom

def Covered (s : NodeSet) (o : ObjRef) : Prop := ∃ b ∈ s, g.Stands org o b

/-- What slot `i` of the objects of allocation `n` may refer to. -/
def slotNodes (n i : Nat) : NodeSet :=
  match g.shapeOf n with
  | .inst c =>
    match (p.layout c)[i]? with
    | some f => (g.cellsOf n).get (.field f)
    | none => ∅
  | .array _ _ => (Access.elem (some i)).read (g.shapeOf n) g.elemLimit (g.cellsOf n)

variable {g p org} {o o' : ObjRef} {n i : Nat} {s t : NodeSet} {b : Node} {access : Access}
  {shape : Shape}

theorem escaped_iff : g.Escaped org o ↔ ∀ n, org o = some n → .none < g.escapeOf n := by
  rw [Escaped, Stands]
  rcases org o with _ | n <;> simp

theorem Escaped.ne_none (h : g.Escaped org o) (hn : org o = some n) : g.escapeOf n ≠ .none :=
  Escape.none_lt_iff.1 (escaped_iff.1 h n hn)

theorem escaped_or (g : Graph) (org : ObjRef → Option Nat) (o : ObjRef) :
    g.Escaped org o ∨ ∃ n, org o = some n ∧ g.escapeOf n = .none := by
  rw [escaped_iff]
  rcases org o with _ | n
  · simp
  · by_cases he : g.escapeOf n = .none
    · exact .inr ⟨n, rfl, he⟩
    · exact .inl fun k hk => Option.some.inj hk ▸ Escape.none_lt_iff.2 he

theorem Stands.eq_alloc (h : g.Stands org o b) (hn : org o = some n)
    (he : g.escapeOf n = .none) : b = .alloc n := by
  rw [Stands, hn] at h
  exact h.resolve_right fun h => Escape.none_lt_iff.1 h.2 he

theorem Stands.alloc_or_escaped (h : g.Stands org o b) :
    (∃ n, org o = some n ∧ b = .alloc n) ∨ b = .phantom ∧ g.Escaped org o := by
  rw [Stands] at h
  rcases hn : org o with _ | n
  · rw [hn] at h
    exact .inr ⟨h, escaped_iff.2 fun n h => by simp [hn] at h⟩
  · rw [hn] at h
    rcases h with h | ⟨h, he⟩
    · exact .inl ⟨n, rfl, h⟩
    · exact .inr ⟨h, escaped_iff.2 fun k hk => by rw [hn] at hk; cases hk; exact he⟩

theorem Escaped.covered (h : g.Escaped org o) (hs : .phantom ∈ s) : g.Covered org s o :=
  ⟨.phantom, hs, h⟩

theorem Covered.escaped (h : g.Covered org s o)
    (hs : ∀ k, .alloc k ∈ s → org o = some k → .none < g.escapeOf k) : g.Escaped org o := by
  obtain ⟨b, hb, hstands⟩ := h
  rcases hstands.alloc_or_escaped with ⟨n, hn, rfl⟩ | ⟨-, he⟩
  · exact escaped_iff.2 fun k hk => by rw [hn] at hk; cases hk; exact hs _ hb hn
  · exact he

theorem isElem_of_mem_written {k alloc c} (h : c ∈ (Access.elem k).written alloc limit) :
    c.isElem = true := by
  rcases k with _ | k
  · simp only [Access.written, mem_singleton] at h
    exact h ▸ rfl
  · simp only [Access.written] at h
    split at h
    · split at h <;> simp only [mem_singleton] at h <;> exact h ▸ rfl
    · simp only [mem_singleton] at h
      exact h ▸ rfl

theorem mem_read_elem {alloc} :
    b ∈ (Access.elem (some k)).read alloc limit cells ↔
      (∃ c ∈ (Access.elem (some k)).written alloc limit, b ∈ cells.get c) ∨
        b ∈ cells.get .anyElem := by
  rw [Access.read, NodeSet.mem_foldl_union]
  simp [or_and_right, exists_or]

theorem mem_read_elems {alloc} (h : b ∈ (Access.elem
    (some k)).read alloc limit cells) : b ∈ Cells.all (cells.filter fun (c, _) => c.isElem) := by
  obtain ⟨c, hc, hb⟩ : ∃ c : Cell, c.isElem = true ∧ b ∈ cells.get c := by
    rcases mem_read_elem.1 h with ⟨c, hc, hb⟩ | hb
    · exact ⟨c, isElem_of_mem_written hc, hb⟩
    · exact ⟨.anyElem, rfl, hb⟩
  obtain ⟨s, hs, hbs⟩ := Cells.exists_mem_of_mem_get hb
  exact Cells.mem_all.2 ⟨(c, s), mem_filter.2 ⟨hs, hc⟩, hbs⟩

section

variable (hd : (g.shapeOf n).Describes shape) (ht : access.Touches p shape i)
include hd ht

theorem slotNodes_subset_read (hb : b ∈ g.slotNodes p n i) :
    b ∈ access.read (g.shapeOf n) g.elemLimit (g.cellsOf n) := by
  rw [slotNodes] at hb
  rcases hs : g.shapeOf n with c | ⟨elem, len⟩ <;> rcases shape with c' | ⟨elem', len'⟩ <;>
    simp only [hs, AllocShape.Describes] at hd hb
  · subst hd
    rcases access with f | k | _ <;> simp only [Access.Touches] at ht
    · obtain ⟨_, hc, hf⟩ := ht
      cases hc
      rw [hf] at hb
      exact hb
    · exact absurd ht.1 (by simp [Shape.elem?])
    · exact absurd ht (by simp [Shape.elem?])
  · rcases access with f | k | _ <;> simp only [Access.Touches] at ht
    · obtain ⟨_, hc, -⟩ := ht
      cases hc
    · rcases k with _ | k
      · exact mem_read_elems hb
      · exact ht.2 k rfl ▸ hb
    · exact mem_read_elems hb

theorem exists_written_subset_slotNodes (hi : i < (shape.slots p).length) :
    ∃ c ∈ access.written (g.shapeOf n) g.elemLimit,
      ∀ b ∈ (g.cellsOf n).get c, b ∈ g.slotNodes p n i := by
  rw [slotNodes]
  rcases hs : g.shapeOf n with c | ⟨elem, len⟩ <;> rcases shape with c' | ⟨elem', len'⟩ <;>
    simp only [hs, AllocShape.Describes] at hd ⊢
  · subst hd
    rcases access with f | k | _ <;> simp only [Access.Touches] at ht
    · obtain ⟨_, hc, hf⟩ := ht
      cases hc
      exact ⟨.field f, by simp [Access.written], fun b hb => by rwa [hf]⟩
    · exact absurd ht.1 (by simp [Shape.elem?])
    · exact absurd ht (by simp [Shape.elem?])
  · rcases access with f | k | _ <;> simp only [Access.Touches] at ht
    · obtain ⟨_, hc, -⟩ := ht
      cases hc
    · rcases k with _ | k
      · exact ⟨.anyElem, by simp [Access.written], fun b hb => mem_read_elem.2 (.inr hb)⟩
      · obtain ⟨c, hc⟩ : ∃ c, c ∈ (Access.elem (some k)).written (.array elem len) g.elemLimit := by
          simp only [Access.written]
          split
          · split <;> exact ⟨_, mem_singleton.2 rfl⟩
          · exact ⟨_, mem_singleton.2 rfl⟩
        exact ⟨c, hc, fun b hb => mem_read_elem.2 (.inl ⟨c, ht.2 k rfl ▸ hc, hb⟩)⟩
    · rcases htr : (AllocShape.array elem len).trackedLen? g.elemLimit with _ | m
      · exact ⟨.anyElem, by simp [Access.written, htr], fun b hb => mem_read_elem.2 (.inr hb)⟩
      · -- a tracked array has the length the allocation says
        have him : i < m := by
          rcases len with _ | k
          · simp [AllocShape.trackedLen?] at htr
          · simp only [AllocShape.trackedLen?] at htr
            split at htr
            · cases htr
              cases hd.2 _ rfl
              simpa [Shape.slots] using hi
            · cases htr
        refine ⟨.elem i, by simp [Access.written, htr, him], fun b hb => mem_read_elem.2
          (.inl ⟨.elem i, ?_, hb⟩)⟩
        simp [Access.written, htr, him]

end

/-- What is known about a slot of an object that holds `o'`: a visible object holds visible ones,
and the cells of the allocation account for the others. -/
def Holds (g : Graph) (p : Program) (org : ObjRef → Option Nat) (o : ObjRef) (i : Nat)
    (o' : ObjRef) : Prop :=
  (g.Escaped org o → g.Escaped org o') ∧
    ∀ n, org o = some n → g.escapeOf n = .none → g.Covered org (g.slotNodes p n i) o'

/-- Every reference in the heap is accounted for: objects have the shapes of their allocations,
globals refer to visible objects, and slots hold what the cells say. -/
structure SoundHeap (g : Graph) (p : Program) (org : ObjRef → Option Nat) (h : Heap) : Prop where
  valid : h.Valid p
  created : ∀ o n, org o = some n → n < g.facts.escapes.size ∧
    ∃ obj, h.get? o = some obj ∧ (g.shapeOf n).Describes obj.shape ∧ obj.Sized p
  globals : ∀ o, h.InGlobals p o → g.Escaped org o
  holds : ∀ o obj i o', h.get? o = some obj → obj.fields[i]? = some (.ref o') →
    g.Holds p org o i o'

def Visible (g : Graph) (org : ObjRef → Option Nat) (h : Heap) (o : ObjRef) : Prop :=
  h.Live o ∧ g.Escaped org o

def Extends (h : Heap) (org : ObjRef → Option Nat) (h' : Heap) (org' : ObjRef → Option Nat) :
    Prop :=
  ∀ o, h.Live o → h'.Live o ∧ org' o = org o

section Extends

variable {h h' : Heap} {org' : ObjRef → Option Nat}

theorem stands_congr (ho : org' o = org o) : g.Stands org' o b ↔ g.Stands org o b := by
  rw [Stands, Stands, ho]

section

variable (he : Extends h org h' org')
include he

theorem Extends.escaped (hl : h.Live o) :
    g.Escaped org' o ↔ g.Escaped org o := stands_congr (he o hl).2

theorem Extends.covered (hl : h.Live o) : g.Covered org' s o ↔ g.Covered org s o := by
  simp only [Covered, stands_congr (he o hl).2]

theorem Extends.visible (hv : g.Visible org h o) :
    g.Visible org' h' o := ⟨(he o hv.1).1, (he.escaped hv.1).2 hv.2⟩

theorem Extends.holds (ho : h.Live o) (ho' : h.Live o')
    (hh : g.Holds p org o i o') : g.Holds p org' o i o' := by
  refine ⟨fun h => (he.escaped ho').2 (hh.1 ((he.escaped ho).1 h)), fun n hn hne => ?_⟩
  exact (he.covered ho').2 (hh.2 n ((he o ho).2 ▸ hn) hne)

end

end Extends

namespace SoundHeap

variable {h h' : Heap} {obj : Object}

section

variable (hs : g.SoundHeap p org h)
include hs

theorem bound (o : ObjRef) (n : Nat) (ho : org o = some n) :
    n < g.facts.escapes.size := (hs.created o n ho).1

theorem describes (hobj : h.get? o = some obj) (hi : i < obj.fields.size)
    (n : Nat) (ho : org o = some n) :
    (g.shapeOf n).Describes obj.shape ∧ i < (obj.shape.slots p).length := by
  obtain ⟨-, obj', hobj', hd, hz⟩ := hs.created o n ho
  rw [hobj] at hobj'
  cases hobj'
  exact ⟨hd, hz ▸ hi⟩

theorem visible_of_reach {roots} (hr : ∀ o, roots o → g.Visible org h o)
    (ho : h.Reach roots o) : g.Visible org h o := by
  refine ho.subset hr fun o obj o' hv hobj hmem => ?_
  obtain ⟨i, hi⟩ := Array.mem_iff_getElem?.1 hmem
  exact ⟨hs.valid.fields o obj o' hobj hmem, (hs.holds o obj i o' hobj hi).1 hv.2⟩

theorem visible_of_inGlobals (ho : h.InGlobals p o) :
    g.Visible org h o := ⟨hs.valid.globals o ho, hs.globals o ho⟩

theorem modify {f}
    (hshape : ∀ obj, (f obj).shape = obj.shape ∧ (f obj).fields.size = obj.fields.size)
    (hfields : ∀ obj i o', h.get? o = some obj → (f obj).fields[i]? = some (.ref o') →
      obj.fields[i]? = some (.ref o') ∨ h.Live o' ∧ g.Holds p org o i o') :
    g.SoundHeap p org (h.modify o f) := by
  -- each slot of the new heap was there before, or holds what the change has put there
  have slot : ∀ o1 obj i o', (h.modify o f).get? o1 = some obj → obj.fields[i]? = some (.ref o') →
      h.Live o' ∧ g.Holds p org o1 i o' := by
    intro o1 obj i o' hobj hi
    have old : ∀ obj, h.get? o1 = some obj → obj.fields[i]? = some (.ref o') →
        h.Live o' ∧ g.Holds p org o1 i o' := fun obj hobj hi =>
      ⟨hs.valid.fields o1 obj o' hobj (Array.mem_of_getElem? hi), hs.holds o1 obj i o' hobj hi⟩
    rw [Heap.get?_modify] at hobj
    split at hobj
    · rename_i he
      subst he
      obtain ⟨obj0, hobj0, rfl⟩ := Option.map_eq_some_iff.1 hobj
      exact (hfields obj0 i o' hobj0 hi).elim (old obj0 hobj0) id
    · exact old obj hobj hi
  have live : ∀ o1, h.Live o1 → (h.modify o f).Live o1 := by
    rintro o1 ⟨obj, hobj⟩
    rw [Heap.Live, Heap.get?_modify, hobj]
    split <;> exact ⟨_, rfl⟩
  refine ⟨⟨Heap.wellFormed_modify hs.valid.wellFormed o f, fun o1 obj o' hobj hmem => ?_,
    fun o' ho' => live o' (hs.valid.globals o' ho')⟩, fun o1 n hn => ?_, hs.globals,
    fun o1 obj i o' hobj hi => (slot o1 obj i o' hobj hi).2⟩
  · obtain ⟨i, hi⟩ := Array.mem_iff_getElem?.1 hmem
    exact live o' (slot o1 obj i o' hobj hi).1
  · obtain ⟨hlt, obj, hobj, hd, hz⟩ := hs.created o1 n hn
    refine ⟨hlt, ?_⟩
    rw [Heap.get?_modify, hobj]
    split
    · refine ⟨f obj, rfl, (hshape obj).1 ▸ hd, ?_⟩
      rw [Object.Sized, (hshape obj).1, (hshape obj).2]
      exact hz
    · exact ⟨obj, rfl, hd, hz⟩

theorem alloc (hn : n < g.facts.escapes.size) (hd : (g.shapeOf n).Describes shape) :
    g.SoundHeap p (fun o => if o = (h.alloc p shape).1 then some n else org o)
      (h.alloc p shape).2 ∧
    Extends h org (h.alloc p shape).2
      (fun o => if o = (h.alloc p shape).1 then some n else org o) := by
  have hwf := hs.valid.wellFormed
  have hfresh : ∀ o, h.Live o → o ≠ (h.alloc p shape).1 := by
    rintro o ⟨obj, hobj⟩ rfl
    rw [Heap.get?_alloc_fst hwf] at hobj
    cases hobj
  have hext : Extends h org (h.alloc p shape).2
      (fun o => if o = (h.alloc p shape).1 then some n else org o) := by
    intro o ho
    refine ⟨?_, if_neg (hfresh o ho)⟩
    rw [Heap.Live, Heap.get?_alloc hwf, if_neg (hfresh o ho)]
    exact ho
  -- the slots of the new object hold no references
  have slot : ∀ o obj o', (h.alloc p shape).2.get? o = some obj → .ref o' ∈ obj.fields →
      h.get? o = some obj := by
    intro o obj o' hobj hmem
    rw [Heap.get?_alloc hwf] at hobj
    split at hobj
    · cases hobj
      exact absurd hmem (Heap.not_ref_mem_freshFields o')
    · exact hobj
  refine ⟨⟨⟨Heap.wellFormed_alloc hwf p shape, fun o obj o' hobj hmem => ?_, fun o ho => ?_⟩,
    fun o k hk => ?_, fun o ho => ?_, fun o obj i o' hobj hi => ?_⟩, hext⟩
  · exact (hext o' (hs.valid.fields o obj o' (slot o obj o' hobj hmem) hmem)).1
  · exact (hext o (hs.valid.globals o ho)).1
  · split at hk
    · rename_i he
      cases hk
      subst he
      refine ⟨hn, _, by rw [Heap.get?_alloc hwf, if_pos rfl], hd, ?_⟩
      simp [Object.Sized, Heap.freshFields]
    · rename_i he
      obtain ⟨hlt, obj, hobj, h1, h2⟩ := hs.created o k hk
      exact ⟨hlt, obj, by rw [Heap.get?_alloc hwf, if_neg he, hobj], h1, h2⟩
  · exact (hext.escaped (hs.valid.globals o ho)).2 (hs.globals o ho)
  · have hmem := Array.mem_of_getElem? hi
    have hold := slot o obj o' hobj hmem
    exact hext.holds ⟨obj, hold⟩ (hs.valid.fields o obj o' hold hmem) (hs.holds o obj i o' hold hi)

theorem setGlobal {gl v} (hv : ∀ o, v = .ref o → g.Visible org h o) :
    g.SoundHeap p org (h.setGlobal gl v) := by
  have visible : ∀ o, (h.setGlobal gl v).InGlobals p o → g.Visible org h o := by
    rintro o ⟨gl', ho⟩
    rcases Heap.global_setGlobal_cases ho with he | he
    · exact hv o he
    · exact hs.visible_of_inGlobals ⟨gl', he⟩
  exact ⟨⟨hs.valid.wellFormed, hs.valid.fields, fun o ho => (visible o ho).1⟩, hs.created,
    fun o ho => (visible o ho).2, hs.holds⟩

end

section Call

variable {σ : Type} {holds : σ → ObjRef → Prop} {args : List Value} {a a' : σ} {reply : Reply}

/-- What a call does keeps the heap sound, if everything that it hands on to globals and fields is
visible, and the slots it can reach are open to that. -/
theorem call_of (hs : g.SoundHeap p org h) (hw : Host.Within p holds args h a reply h' a')
    (hglobals : ∀ o, h'.InGlobals p o → g.Visible org h' o)
    (hfields : ∀ o obj o', Host.HandsOn p holds args h a h' o → h'.get? o = some obj →
      .ref o' ∈ obj.fields → g.Visible org h' o')
    (hopen : ∀ o obj n i, Host.Known p holds args h a o → h.get? o = some obj → org o = some n →
      i < obj.fields.size → g.escapeOf n = .none → .phantom ∈ g.slotNodes p n i) :
    g.SoundHeap p org h' ∧ Extends h org h' org := by
  have hext : Extends h org h' org := fun o ⟨obj, hobj⟩ =>
    let ⟨obj', hobj', _⟩ := hw.keeps o obj hobj
    ⟨⟨obj', hobj'⟩, rfl⟩
  -- an object is one the callee could hand on, or is as it was
  have either : ∀ o obj, h'.get? o = some obj →
      Host.HandsOn p holds args h a h' o ∨ h.get? o = some obj := by
    intro o obj hobj
    rcases hold : h.get? o with _ | obj0
    · exact .inl (.inr ⟨hold, obj, hobj⟩)
    · by_cases hk : Host.Known p holds args h a o
      · exact .inl (.inl hk)
      · have := hw.untouched o obj0 hold hk
        rw [hobj] at this
        cases this
        exact .inr rfl
  refine ⟨⟨⟨hw.wellFormed, fun o obj o' hobj hmem => ?_, fun o ho => (hglobals o ho).1⟩,
    fun o n hn => ?_, fun o ho => (hglobals o ho).2, fun o obj i o' hobj hi => ?_⟩, hext⟩
  · rcases either o obj hobj with hh | hold
    · exact (hfields o obj o' hh hobj hmem).1
    · exact (hext o' (hs.valid.fields o obj o' hold hmem)).1
  · obtain ⟨hlt, obj, hobj, hd, hz⟩ := hs.created o n hn
    obtain ⟨obj', hobj', hshape, hsize⟩ := hw.keeps o obj hobj
    refine ⟨hlt, obj', hobj', hshape ▸ hd, ?_⟩
    rw [Object.Sized, hshape, hsize]
    exact hz
  · rcases either o obj hobj with hh | hold
    · have hv := (hfields o obj o' hh hobj (Array.mem_of_getElem? hi)).2
      refine ⟨fun _ => hv, fun n hn hne => hv.covered ?_⟩
      obtain ⟨-, obj0, hobj0, -⟩ := hs.created o n hn
      rcases hh with hk | ⟨hnone, -⟩
      · obtain ⟨obj', hobj', -, hsize⟩ := hw.keeps o obj0 hobj0
        rw [hobj] at hobj'
        cases hobj'
        exact hopen o obj0 n i hk hobj0 hn (hsize ▸ (Array.getElem?_eq_some_iff.1 hi).1) hne
      · rw [hnone] at hobj0
        cases hobj0
    · exact hs.holds o obj i o' hold hi

variable (hs : g.SoundHeap p org h) (hheld : ∀ o, holds a o → g.Visible org h o)
  (hargs : ∀ o, .ref o ∈ args → g.Visible org h o)
include hs hheld hargs

theorem visible_of_known (ho : Host.Known p holds args h a o) : g.Visible org h o := by
  refine hs.visible_of_reach ?_ ho
  rintro o (ho | ho | ho)
  · exact hs.visible_of_inGlobals ho
  · exact hheld o ho
  · exact hargs o ho

variable (hw : Host.Within p holds args h a reply h' a')
include hw

theorem visible_of_handsOn (ho : Host.HandsOn p holds args h a h' o) : g.Visible org h' o := by
  rcases ho with hk | ⟨hnone, hlive⟩
  · obtain ⟨⟨obj, hobj⟩, he⟩ := hs.visible_of_known hheld hargs hk
    obtain ⟨obj', hobj', -⟩ := hw.keeps o obj hobj
    exact ⟨⟨obj', hobj'⟩, he⟩
  · refine ⟨hlive, escaped_iff.2 fun n hn => ?_⟩
    obtain ⟨-, obj, hobj, -⟩ := hs.created o n hn
    rw [hnone] at hobj
    cases hobj

theorem call : g.SoundHeap p org h' ∧ Extends h org h' org := by
  have visible := fun o => hs.visible_of_handsOn (o := o) hheld hargs hw
  refine hs.call_of hw (fun o ho => visible o (hw.globals o ho))
    (fun o obj o' ho hobj hmem => visible o' (hw.fields o obj o' ho hobj hmem))
    fun o obj n i hk _ hn _ hne => absurd hne ((visible o (.inl hk)).2.ne_none hn)

end Call

end SoundHeap

end Graph

/-- Apart from null, the nodes of `s` are in `t`. -/
def NodeSet.Sub (s t : NodeSet) : Prop := ∀ b ∈ s, b ≠ .null → b ∈ t

namespace NodeSet

variable {s t u : NodeSet}

theorem Sub.of_subset (h : ∀ b ∈ s, b ∈ t) : s.Sub t := fun b hb _ => h b hb

theorem Sub.trans (h : s.Sub t) (h' : t.Sub u) : s.Sub u := fun b hb hne => h' b (h b hb hne) hne

end NodeSet

/-- `x` may be the number `i`: it is no constant, or that one. -/
def Body.MayBe (body : Body) (x : InstId) (i : Nat) : Prop :=
  ∀ c, body.const? x = some c → c.toNat? = some i

/-- Slot `i` is the element of an array that `index` may be. -/
def Body.ElemAt (body : Body) (index : InstId) (shape : Shape) (i : Nat) : Prop :=
  shape.elem?.isSome ∧ body.MayBe index i

theorem Body.MayBe.eq_of_constNat? {body : Body} {x i j} (h : body.MayBe x i)
    (hj : body.constNat? x = some j) : j = i := by
  obtain ⟨c, hc, hn⟩ := Option.bind_eq_some_iff.1 hj
  rw [h c hc] at hn
  exact (Option.some.inj hn).symm

theorem Body.ElemAt.touches {body : Body} {p index shape i} (h : body.ElemAt index shape i) :
    (Access.elem (body.constNat? index)).Touches p shape i :=
  ⟨h.1, fun _ hj => (h.2.eq_of_constNat? hj).symm⟩

namespace Access

variable {p : Program}

theorem touches_any (i : Nat) (shape : Shape) (h : allElems.Touches p shape i) :
    (elem none).Touches p shape i := ⟨h, nofun⟩

theorem touches_self (i : Nat) (shape : Shape) (h : allElems.Touches p shape i) :
    (elem (some i)).Touches p shape i := ⟨h, fun _ => Option.some.inj⟩

end Access

namespace Graph

section Definitions

variable (g : Graph) (p : Program) (body : Body)

/-- What a load from slot `i` of what node `b` stands for may find. -/
def found (i : Nat) : Node → NodeSet
  | .null => ∅
  | .phantom => .singleton .phantom
  | .alloc n =>
    if .none < g.escapeOf n then (g.slotNodes p n i).insert .phantom else g.slotNodes p n i

def Lost (s : NodeSet) : Prop :=
  ∀ k, .alloc k ∈ s → k < g.facts.escapes.size → ¬ g.escapeOf k < .global

/-- Slot `i` of what node `b` stands for may hold what the nodes of `s` stand for. -/
def Admits (i : Nat) (s : NodeSet) : Node → Prop
  | .null => True
  | .phantom => g.Lost s
  | .alloc n => (.none < g.escapeOf n → g.Lost s) ∧ s.Sub (g.slotNodes p n i)

/-- Slot `i` is one that an access touches in objects that node `b` stands for. -/
def Touched (touches : Shape → Nat → Prop) (i : Nat) (b : Node) : Prop :=
  ∀ n, b = .alloc n → n < g.facts.escapes.size ∧
    ∃ shape, (g.shapeOf n).Describes shape ∧ touches shape i ∧ i < (shape.slots p).length

/-- What is found in the touched slots of `base` is what `dst` may point to. -/
def Loads (touches : Shape → Nat → Prop) (dst base : InstId) : Prop :=
  ∀ b ∈ g.ptsOf base, ∀ i, g.Touched p touches i b → (g.found p i b).Sub (g.ptsOf dst)

/-- The touched slots of `base` may hold what `value` points to. -/
def Stores (touches : Shape → Nat → Prop) (base value : InstId) : Prop :=
  ∀ b ∈ g.ptsOf base, ∀ i, g.Touched p touches i b → g.Admits p i (g.ptsOf value) b

/-- The elements of `dst` may hold what the elements of `src` do that are copied there. -/
def Copies (src srcPos dst dstPos len : InstId) : Prop :=
  ∀ s ∈ g.ptsOf src, ∀ d ∈ g.ptsOf dst, ∀ i j k l, body.MayBe srcPos i → body.MayBe dstPos j →
    body.MayBe len l → k < l → g.Touched p (Access.allElems.Touches p) (i + k) s →
    g.Touched p (Access.allElems.Touches p) (j + k) d →
    g.Admits p (j + k) (g.found p (i + k) s) d

/-- `x` has a node for objects of the given shape. -/
def Numbers (x : InstId) (shape : Shape) : Prop :=
  ∃ n, g.allocOf.get? x = some n ∧ n < g.facts.escapes.size ∧ .alloc n ∈ g.ptsOf x ∧
    (g.shapeOf n).Describes shape

/-- The graph accounts for all that operation `op` does with references. -/
def Conforms (x : InstId) : Op → Prop
  | .new c => g.Numbers x (.inst c)
  | .newArray elem len => ∀ k, body.MayBe len k → g.Numbers x (.array elem k)
  | .param _ | .loadGlobal _ | .exception | .call _ =>
    body.isRef x = true → .phantom ∈ g.ptsOf x
  | .phi inputs => body.isRef x = true → ∀ e ∈ inputs, (g.ptsOf e.2).Sub (g.ptsOf x)
  | .checkCast obj _ => body.isRef x = true → (g.ptsOf obj).Sub (g.ptsOf x)
  | .loadField obj f => body.isRef x = true → g.Loads p ((Access.field f).Touches p) x obj
  | .loadElem array index => body.isRef x = true → g.Loads p (body.ElemAt index) x array
  | .storeField obj f value =>
    body.isRef value = true → g.Stores p ((Access.field f).Touches p) obj value
  | .storeElem array index value =>
    body.isRef value = true → g.Stores p (body.ElemAt index) array value
  | .arrayFill array value =>
    body.isRef value = true → g.Stores p (Access.allElems.Touches p) array value
  | .arrayCopy src srcPos dst dstPos len => g.Copies p body src srcPos dst dstPos len
  | .storeGlobal _ value => body.isRef value = true → g.Lost (g.ptsOf value)
  | _ => True

/-- The graph speaks for the reachable code, apart from what callees do. -/
structure Upholds : Prop where
  insts : ∀ b ∈ body.flow.order.blocks, ∀ x ∈ (body.block b).insts, ∀ op,
    body.op? x = some op → g.Conforms p body x op
  terms : ∀ b ∈ body.flow.order.blocks, ∀ x,
    .sink x .global ∈ termConstraints (body.block b).term → g.Lost (g.ptsOf x)

/-- Arguments escape as far as the effects of their callees say. -/
def Sinks : Prop :=
  ∀ b ∈ body.flow.order.blocks, ∀ x ∈ (body.block b).insts, ∀ c, body.op? x = some (.call c) →
    ∀ i arg, c.args[i]? = some arg → body.isRef arg = true →
      match (p.callee c.callee).argEffect i with
      | .escapes => g.Lost (g.ptsOf arg)
      | .borrows => ∀ k, .alloc k ∈ g.ptsOf arg → k < g.facts.escapes.size → .none < g.escapeOf k

end Definitions

variable {g : Graph} {p : Program} {body : Body} {org : ObjRef → Option Nat} {o o' : ObjRef}
  {i n : Nat} {s t : NodeSet} {b : Node} {shape : Shape} {src srcPos dst dstPos len : InstId}
  {range : Option (Nat × Nat × Nat)}

/-! ## What nodes of slots say about objects -/

theorem Stands.ne_null (h : g.Stands org o b) : b ≠ .null := by
  rcases h.alloc_or_escaped with ⟨n, -, rfl⟩ | ⟨rfl, -⟩ <;> simp

theorem Covered.sub (h : g.Covered org s o) (hst : s.Sub t) : g.Covered org t o := by
  obtain ⟨b, hb, hs⟩ := h
  exact ⟨b, hst b hb hs.ne_null, hs⟩

theorem Lost.mono (h : g.Lost t) (hst : s.Sub t) : g.Lost s :=
  fun k hk => h k (hst _ hk (by simp))

theorem Admits.mono (h : g.Admits p i t b) (hst : s.Sub t) : g.Admits p i s b := by
  rcases b with _ | _ | n
  · exact Lost.mono h hst
  · trivial
  · exact ⟨fun he => (h.1 he).mono hst, hst.trans h.2⟩

theorem Covered.escaped_of_lost (hbound : ∀ o n, org o = some n → n < g.facts.escapes.size)
    (h : g.Covered org s o) (hs : g.Lost s) : g.Escaped org o :=
  h.escaped fun k hk hok => Escape.none_lt_of_not_lt (hs k hk (hbound o k hok)) (by decide)

/-- What a load through a node that stands for the object may find: anything visible, or what the
slots of its allocation may hold. -/
theorem Stands.found_cases (hs : g.Stands org o b) (p : Program) (i : Nat) :
    g.Escaped org o ∧ .phantom ∈ g.found p i b ∨
      ∃ n, org o = some n ∧ g.escapeOf n = .none ∧ g.found p i b = g.slotNodes p n i := by
  rcases escaped_or g org o with he | ⟨n, hn, he⟩
  · refine .inl ⟨he, ?_⟩
    rcases hs.alloc_or_escaped with ⟨n, hn, rfl⟩ | ⟨rfl, -⟩
    · simp [found, escaped_iff.1 he n hn]
    · simp [found]
  · cases hs.eq_alloc hn he
    exact .inr ⟨n, hn, he, if_neg fun h => Escape.none_lt_iff.1 h he⟩

theorem covered_found (hs : g.Stands org o b) (hh : g.Holds p org o i o') :
    g.Covered org (g.found p i b) o' := by
  rcases hs.found_cases p i with ⟨he, hmem⟩ | ⟨n, hn, he, heq⟩
  · exact (hh.1 he).covered hmem
  · exact heq ▸ hh.2 n hn he

section

variable (hbound : ∀ o n, org o = some n → n < g.facts.escapes.size) (hs : g.Stands org o b)
include hbound hs

/-- A store through a node that stands for the object accounts for what is stored. -/
theorem holds_of_admits (ha : g.Admits p i t b) (hv : g.Covered org t o') :
    g.Holds p org o i o' := by
  rcases hs.alloc_or_escaped with ⟨n, hn, rfl⟩ | ⟨rfl, he⟩
  · refine ⟨fun he => hv.escaped_of_lost hbound (ha.1 (escaped_iff.1 he n hn)), ?_⟩
    intro n' hn' _
    rw [hn] at hn'
    cases hn'
    exact hv.sub ha.2
  · exact ⟨fun _ => hv.escaped_of_lost hbound ha, fun n hn hne => absurd hne (he.ne_none hn)⟩

theorem touched_of_stands {touches} (hd : ∀ n, org o = some n → (g.shapeOf n).Describes shape ∧
      i < (shape.slots p).length) (ht : touches shape i) : g.Touched p touches i b := by
  rintro n rfl
  rcases hs.alloc_or_escaped with ⟨n', hn', heq⟩ | ⟨h, -⟩
  · cases heq
    exact ⟨hbound o n hn', shape, (hd n hn').1, ht, (hd n hn').2⟩
  · cases h

end

/-! ## Solved graphs -/

theorem found_subset_readNode {touches access}
    (ht : ∀ shape, touches shape i → access.Touches p shape i) (hb : g.Touched p touches i b) :
    ∀ n ∈ g.found p i b, n ∈ g.readNode access g.facts b := by
  intro k hk
  rcases b with _ | _ | n
  · exact hk
  · exact hk
  · obtain ⟨-, shape, hd, htouch, -⟩ := hb n rfl
    have hread := fun k hk => slotNodes_subset_read (b := k) hd (ht shape htouch) hk
    simp only [found] at hk
    simp only [readNode, show g.facts.escapeOf n = g.escapeOf n from rfl]
    by_cases he : .none < g.escapeOf n
    · rw [if_pos he, NodeSet.mem_insert] at hk ⊢
      exact hk.imp_left (hread k)
    · rw [if_neg he] at hk ⊢
      exact hread k hk

theorem subset_slotNodes_of_stored {touches access}
    (ht : ∀ shape, touches shape i → access.Touches p shape i)
    (hb : g.Touched p touches i (.alloc n)) (hst : g.Stored g.facts access t (.alloc n)) :
    ∃ c, (∀ k ∈ t, k ∈ (g.cellsOf n).get c) ∧
      ∀ k ∈ (g.cellsOf n).get c, k ∈ g.slotNodes p n i := by
  obtain ⟨-, shape, hd, htouch, hi⟩ := hb n rfl
  obtain ⟨c, hc, hsub⟩ := exists_written_subset_slotNodes hd (ht shape htouch) hi
  exact ⟨c, fun k hk => hst c hc k hk, hsub⟩

theorem admits_of_stored {touches access} (hc : g.Closed g.facts)
    (ht : ∀ shape, touches shape i → access.Touches p shape i) (hb : g.Touched p touches i b)
    (hst : g.Stored g.facts access t b) : g.Admits p i t b := by
  rcases b with _ | _ | n
  · exact hst
  · trivial
  · obtain ⟨c, hin, hsub⟩ := subset_slotNodes_of_stored ht hb hst
    exact ⟨fun he k hk hlt => hc.escapes n he c k (hin _ hk) hlt,
      .of_subset fun k hk => hsub k (hin k hk)⟩

variable {x : InstId}
variable {touches : Shape → Nat → Prop} {access : Access} {base : InstId}

theorem found_subset_of_load (ht : ∀ shape, touches shape i → access.Touches p shape i)
    (hx : ∃ t, g.facts.pts.get? x = some t) (hsat : g.Satisfied g.facts (.load x base access))
    (hb : b ∈ g.ptsOf base) (hi : g.Touched p touches i b) :
    ∀ n ∈ g.found p i b, n ∈ g.ptsOf x := by
  obtain ⟨t, hx⟩ := hx
  rw [ptsOf, ptsOf_eq hx]
  exact fun n hn => hsat t hx b hb n (found_subset_readNode ht hi n hn)

theorem loads_of_satisfied (ht : ∀ shape i, touches shape i → access.Touches p shape i)
    (hx : ∃ t, g.facts.pts.get? x = some t) (hsat : g.Satisfied g.facts (.load x base access)) :
    g.Loads p touches x base :=
  fun _ hb i hi => .of_subset (found_subset_of_load (fun shape => ht shape i) hx hsat hb hi)

theorem stores_of_satisfied {value} (hc : g.Closed g.facts)
    (ht : ∀ shape i, touches shape i → access.Touches p shape i)
    (hsat : g.Satisfied g.facts (.store base access value)) : g.Stores p touches base value :=
  fun b hb i hi => admits_of_stored hc (fun shape => ht shape i) hi (hsat b hb)

section

variable
  (hrange : ∀ i j n, range = some (i, j, n) → body.constNat? srcPos = some i ∧ body.constNat?
    dstPos = some j ∧ body.constNat? len = some n)
  (hsat : g.Satisfied g.facts (.copyElems src dst range))
include hrange hsat

/-- What is copied to element `j + k` was read from element `i + k`, or all elements are taken
together. -/
theorem stored_of_copied {d : Node} {j k l} (hb : b ∈ g.ptsOf src) (hd : d ∈ g.ptsOf dst)
    (hi : body.MayBe srcPos i) (hj : body.MayBe dstPos j) (hl : body.MayBe len l) (hk : k < l) :
    g.Stored g.facts (.elem none) (g.readNode .allElems g.facts b) d ∨
      g.Stored g.facts (.elem (some (j + k)))
        (g.readNode (.elem (some (i + k))) g.facts b) d := by
  have hcopied := hsat b hb d hd
  unfold Copied at hcopied
  rcases range with _ | ⟨a, a', m⟩
  · exact .inl hcopied
  · rcases htr : g.copyTracked? d with _ | len'
    · rw [htr] at hcopied
      exact .inl hcopied
    · rw [htr] at hcopied
      obtain ⟨ha, ha', hm⟩ := hrange a a' m rfl
      cases hi.eq_of_constNat? ha
      cases hj.eq_of_constNat? ha'
      cases hl.eq_of_constNat? hm
      exact .inr (hcopied k hk)

theorem copies_of_satisfied (hc : g.Closed g.facts) :
    g.Copies p body src srcPos dst dstPos len := by
  intro s hs d hd i j k l hi hj hl hk hsrc hdst
  rcases stored_of_copied hrange hsat hs hd hi hj hl hk with hst | hst
  · exact (admits_of_stored hc (Access.touches_any (j + k)) hdst hst).mono
      (.of_subset (found_subset_readNode (fun _ h => h) hsrc))
  · exact (admits_of_stored hc (Access.touches_self (j + k)) hdst hst).mono
      (.of_subset (found_subset_readNode (Access.touches_self (i + k)) hsrc))

end

theorem numbers_of_tables (ht : Tables p body g) (h : Accounts p body g x) {kind escape}
    (ha : allocation? p body x = some (kind, escape)) (hd : kind.Describes shape) :
    g.Numbers x shape := by
  obtain ⟨n, hn⟩ := h.alloc _ ha
  obtain ⟨kind', escape', ha', halloc, hmem⟩ := ht.alloc x n hn
  rw [ha] at ha'
  cases ha'
  refine ⟨n, hn, ?_, hmem, ?_⟩
  · rw [ht.size]
    exact (Array.getElem?_eq_some_iff.1 halloc).1
  · rwa [shapeOf, alloc, Array.getD_eq_getD_getElem?, halloc]

/-- The constraints of an instruction say all that matters about it. -/
theorem Solved.conforms (hg : g.Solved p body) (h : Accounts p body g x) {op : Op}
    (hop : body.op? x = some op) : g.Conforms p body x op := by
  have sat : ∀ c ∈ constraintsOf p body x, g.Satisfied g.facts c :=
    fun c hc => hg.closed.satisfied c (h.constraints c hc)
  have seeded : ∀ s, seed? body x = some s → ∀ n ∈ s, n ∈ g.ptsOf x := h.seed
  have copied : body.isRef x = true → ∀ y, .copy x y ∈ constraintsOf p body x →
      (g.ptsOf y).Sub (g.ptsOf x) := by
    intro href y hc
    obtain ⟨t, hx⟩ := h.ref href
    rw [ptsOf, ptsOf, ptsOf_eq hx]
    exact .of_subset (sat _ hc t hx)
  have elem : ∀ index, ∀ shape i, body.ElemAt index shape i →
      (Access.elem (body.constNat? index)).Touches p shape i := fun _ _ _ h => h.touches
  cases op
  case new c =>
    obtain ⟨escape, ha⟩ : ∃ escape, allocation? p body x = some (.inst c, escape) :=
      ⟨_, by rw [allocation?, hop]⟩
    exact numbers_of_tables hg.read.tables h ha rfl
  case newArray elem len =>
    have ha : allocation? p body x = some (.array elem (body.constNat? len), .none) := by
      rw [allocation?, hop]
    exact fun k hk => numbers_of_tables hg.read.tables h ha
      ⟨rfl, fun j hj => (hk.eq_of_constNat? hj).symm⟩
  case param | loadGlobal | exception | call =>
    exact fun href => seeded (.singleton .phantom) (by simp [seed?, hop, href]) _ (by simp)
  case phi inputs =>
    exact fun href e he => copied href _ (by
      simp only [constraintsOf, hop, href, if_true, mem_map]
      exact ⟨e, he, rfl⟩)
  case checkCast obj _ => exact fun href => copied href _ (by simp [constraintsOf, hop])
  case loadField obj f =>
    exact fun href => loads_of_satisfied (fun _ _ h => h) (h.ref href)
      (sat _ (by simp [constraintsOf, hop, href]))
  case loadElem array index =>
    exact fun href => loads_of_satisfied (elem index) (h.ref href)
      (sat _ (by simp [constraintsOf, hop, href]))
  case storeField obj f value =>
    exact fun href => stores_of_satisfied hg.closed (fun _ _ h => h)
      (sat _ (by simp [constraintsOf, hop, href]))
  case storeElem array index value =>
    exact fun href => stores_of_satisfied hg.closed (elem index)
      (sat _ (by simp [constraintsOf, hop, href]))
  case arrayFill array value =>
    exact fun href => stores_of_satisfied hg.closed (fun _ _ h => h)
      (sat _ (by simp [constraintsOf, hop, href]))
  case arrayCopy src srcPos dst dstPos len =>
    obtain ⟨range, hc, hrange⟩ := constraintsOf_arrayCopy p body hop
    exact copies_of_satisfied hrange (sat _ (by simp [hc])) hg.closed
  case storeGlobal gl value =>
    exact fun href => sat (.sink value .global) (by simp [constraintsOf, hop, href])
  all_goals trivial

theorem Solved.sinks (hg : g.Solved p body) : g.Sinks p body := by
  intro b hb x hx c hop i arg harg href
  have sat : ∀ e, .sink arg e ∈ callSinks p body c → g.Satisfied g.facts (.sink arg e) := by
    intro e he
    refine hg.closed.satisfied _ ((hg.read.insts b hb x hx).constraints _ ?_)
    rwa [constraintsOf, hop]
  have hmem : (arg, i) ∈ c.args.zipIdx := mem_zipIdx_iff_getElem?.2 harg
  cases heff : (p.callee c.callee).argEffect i with
  | escapes => exact sat .global (mem_filterMap.2 ⟨_, hmem, by simp [href, heff]⟩)
  | borrows =>
    have hsat := sat .arg (mem_filterMap.2 ⟨_, hmem, by simp [href, heff]⟩)
    exact fun k hk hlt => Escape.none_lt_of_not_lt (hsat k hk hlt) (by decide)

theorem Solved.upholds (hg : g.Solved p body) : g.Upholds p body where
  insts b hb x hx _ hop := hg.conforms (hg.read.insts b hb x hx) hop
  terms b hb _ hx := hg.closed.satisfied _ (hg.read.terms b hb _ hx)

end Graph

end EscapeAnalysis
