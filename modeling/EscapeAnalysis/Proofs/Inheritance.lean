import EscapeAnalysis.Program
import EscapeAnalysis.Proofs.Tables

/-!
# Inheritance

A class is declared after its parent and so stands in a later slot. The way up from a class
therefore ends before as many steps as there are classes (`mem_chain_iff`). A declaration leaves the
classes and fields alone that there are (`Program.Grows`), and what it fixes between a class and its
parent (`Program.Row`) holds, one step after the other, between a class and all its ancestors.
-/

namespace EscapeAnalysis

open List SlotTable
open Relation (ReflTransGen)

/-- A chain along which the rank falls shows all that it leads to, if it may be that long. -/
theorem mem_chain_iff {α : Type} {next : α → Option α} (rank : α → Nat)
    (hrank : ∀ a b, next a = some b → rank b < rank a) {n a b}
    (hn : ∀ b, next a = some b → rank a ≤ n) :
    b ∈ chain next n a ↔ ReflTransGen (fun a b => next a = some b) a b := by
  induction n generalizing a with
  | zero =>
    have hnone : ∀ c, next a ≠ some c := fun c hc => by
      have := hrank a c hc
      have := hn c hc
      omega
    rw [chain, mem_singleton, ReflTransGen.cases_head_iff]
    simp [hnone, eq_comm]
  | succ n ih =>
    rw [chain, ReflTransGen.cases_head_iff]
    cases ha : next a with
    | none => simp [eq_comm]
    | some c =>
      have hc : ∀ d, next c = some d → rank c ≤ n := fun _ _ => by
        have := hrank a c ha
        have := hn c ha
        omega
      simp [ih hc, eq_comm]

/-- What a class is declared with. -/
structure ClassSpec where
  name : String
  parent : Option ClassId
  fields : List (String × Ty)
  flags : Flags := {}

def Flags.Within (a b : Flags) : Prop :=
  (a.finalizer = true → b.finalizer = true) ∧ (a.thread = true → b.thread = true)

namespace Program

variable {p p' : Program} {l : List (ClassId × ClassSpec)} {b c d : ClassId} {s : ClassSpec}
  {own : List FieldId} {f : FieldId} {name : String} {i : Nat}

/-- The program that declarations lead to, with the class that each of them made, newest first. A
parent is one of the classes that there are. -/
inductive Declares : Program → List (ClassId × ClassSpec) → Prop
  | nil : Declares {} []
  | cons {p p' : Program} {l c} (s : ClassSpec) : Declares p l →
      (∀ b, s.parent = some b → p.classes.contains b = true) →
      p.addClass s.name s.parent s.fields s.flags = (c, p') → Declares p' ((c, s) :: l)

/-- The search for `sup` from a class upwards, with its answer. -/
inductive Search (p : Program) (sup : ClassId) : ClassId → Bool → Prop
  | found : Search p sup sup true
  | up {c decl b r} : c ≠ sup → p.classes.get? c = some decl → decl.parent = some b →
      Search p sup b r → Search p sup c r
  | top {c decl} : c ≠ sup → p.classes.get? c = some decl → decl.parent = none →
      Search p sup c false

def inherited (p : Program) (s : ClassSpec) : List FieldId := (s.parent.map p.layout).getD []

/-- Field `f` was made for the declaration at place `i` of class `d`, which has this name. -/
def Makes (p : Program) (l : List (ClassId × ClassSpec)) (name : String) (d : ClassId) (i : Nat)
    (f : FieldId) : Prop :=
  ∃ s ty, (d, s) ∈ l ∧ s.fields[i]? = some (name, ty) ∧
    (p.layout d)[(p.inherited s).length + i]? = some f ∧ p.fields.get? f = some ⟨name, ty, d⟩

/-- What a name means in class `c`: its last declaration in the most derived class that has one, and
nothing if neither `c` nor an ancestor declares it. -/
def Means (p : Program) (l : List (ClassId × ClassSpec)) (c : ClassId) (name : String) :
    Option FieldId → Prop
  | some f => ∃ d i, p.Makes l name d i f ∧ p.isSubclass c d = true ∧
      ∀ e j g, p.Makes l name e j g → p.isSubclass c e = true →
        p.isSubclass d e = true ∧ (e = d → j ≤ i)
  | none => ∀ e j g, p.Makes l name e j g → ¬ p.isSubclass c e = true

/-- Class `c` as its declaration made it, with the fields of its own. -/
structure Row (p : Program) (c : ClassId) (s : ClassSpec) (own : List FieldId) : Prop where
  cls : p.classes.get? c = some ⟨s.name, s.parent, p.inherited s ++ own,
    s.flags.union ((s.parent.map fun b => (p.cls b).flags).getD {})⟩
  nodup : own.Nodup
  fields : own.map p.fields.get? = s.fields.map fun e => some ⟨e.1, e.2, c⟩
  parent : ∀ b, s.parent = some b → p.classes.contains b = true ∧ b.index < c.index

/-- The tables of classes and fields as the declarations have filled them. -/
structure Table (p : Program) (l : List (ClassId × ClassSpec)) : Prop where
  classes : p.classes.WellFormed
  free : p.classes.free = []
  fields : p.fields.WellFormed
  listed : ∀ c, p.classes.contains c = true → c ∈ l.map Prod.fst
  row : ∀ c s, (c, s) ∈ l → ∃ own, p.Row c s own

section Declaring

theorem addFields_spec (holder : ClassId) (fs : List (String × Ty)) (hp : p.fields.WellFormed) :
    (p.addFields holder fs).2.classes = p.classes ∧ (p.addFields holder fs).2.fields.WellFormed ∧
    (p.addFields holder fs).1.Nodup ∧
    (∀ f ∈ (p.addFields holder fs).1, p.fields.get? f = none) ∧
    (∀ f ∉ (p.addFields holder fs).1,
      (p.addFields holder fs).2.fields.get? f = p.fields.get? f) ∧
    (p.addFields holder fs).1.map (p.addFields holder fs).2.fields.get? =
      fs.map fun e => some ⟨e.1, e.2, holder⟩ := by
  induction fs generalizing p with
  | nil => simp [addFields, hp]
  | cons e fs ih =>
    have hget := get?_insert hp (⟨e.1, e.2, holder⟩ : FieldDecl)
    obtain ⟨hclasses, hwf, hnodup, hfresh, hsame, hmap⟩ :=
      @ih { p with fields := (p.fields.insert ⟨e.1, e.2, holder⟩).2 } (hp.insert _)
    simp only [addFields] at *
    have hkey := fun h => hfresh (p.fields.insert ⟨e.1, e.2, holder⟩).1 h
    simp only [hget, if_true, reduceCtorEq, imp_false] at hkey
    refine ⟨hclasses, hwf, nodup_cons.2 ⟨hkey, hnodup⟩, ?_, fun f hf => ?_, ?_⟩
    · rw [forall_mem_cons]
      refine ⟨get?_insert_fst hp _, fun f hf => ?_⟩
      have := hfresh f hf
      rw [hget] at this
      split at this
      · cases this
      · exact this
    · rw [mem_cons, not_or] at hf
      rw [hsame f hf.2, hget, if_neg hf.1]
    · rw [map_cons, map_cons, hmap, hsame _ hkey, hget, if_pos rfl]

structure Grows (p p' : Program) : Prop where
  cls : ∀ c, p.classes.contains c = true → p'.classes.get? c = p.classes.get? c
  field : ∀ f decl, p.fields.get? f = some decl → p'.fields.get? f = some decl

/-- What a declaration takes over from its parent stays what it was. -/
theorem Grows.map_parent {β : Type} (hg : p.Grows p') (g : ClassDecl → β)
    (hs : ∀ b, s.parent = some b → p.classes.contains b = true) :
    (s.parent.map fun b => g (p'.cls b)) = s.parent.map fun b => g (p.cls b) := by
  cases hb : s.parent with
  | none => rfl
  | some b => rw [Option.map_some, Program.cls, hg.cls b (hs b hb), Option.map_some, Program.cls]

theorem Grows.inherited (hg : p.Grows p')
    (hs : ∀ b, s.parent = some b → p.classes.contains b = true) :
    p'.inherited s = p.inherited s :=
  congrArg (·.getD []) (hg.map_parent ClassDecl.layout hs)

theorem Grows.row (hg : p.Grows p') (hr : p.Row c s own) : p'.Row c s own := by
  have hs := fun b hb => (hr.parent b hb).1
  refine ⟨?_, hr.nodup, ?_, fun b hb => ⟨?_, (hr.parent b hb).2⟩⟩
  · rw [hg.cls c (by simp [SlotTable.contains, hr.cls]), hr.cls, hg.inherited hs, hg.map_parent _ hs]
  · rw [← hr.fields]
    refine map_congr_left fun f hf => ?_
    obtain ⟨e, -, he⟩ := mem_map.1 (hr.fields ▸ mem_map_of_mem hf)
    rw [← he, hg.field f _ he.symm]
  · rw [SlotTable.contains, hg.cls b (hs b hb)]
    exact hs b hb

section Class

variable (h : p.Table l) (hc : p.addClass s.name s.parent s.fields s.flags = (c, p'))
include h hc

/-- One declaration: a class in a new slot, with new fields behind the inherited ones. -/
theorem Table.addClass_spec :
    p'.classes.WellFormed ∧ p'.classes.free = [] ∧ p'.fields.WellFormed ∧ p.Grows p' ∧
    c.index = p.classes.slots.size ∧ ∃ own : List FieldId, own.Nodup ∧
      own.map p'.fields.get? = s.fields.map (fun e => some ⟨e.1, e.2, c⟩) ∧
      ∀ k, p'.classes.get? k = if k = c then some ⟨s.name, s.parent, p.inherited s ++ own,
        s.flags.union ((s.parent.map fun b => (p.cls b).flags).getD {})⟩ else p.classes.get? k := by
  let decl : ClassDecl := ⟨s.name, s.parent, [],
    s.flags.union ((s.parent.map fun b => (p.cls b).flags).getD {})⟩
  obtain rfl : (p.classes.insert decl).1 = c := congrArg Prod.fst hc
  let q : Program := { p with classes := (p.classes.insert decl).2 }
  obtain ⟨hclasses, hwf, hnodup, hfresh, hsame, hmap⟩ :=
    q.addFields_spec (p.classes.insert decl).1 s.fields h.fields
  have hcls : p'.classes = (p.classes.insert decl).2.modify (p.classes.insert decl).1 ({ · with
      layout := p.inherited s ++ (q.addFields (p.classes.insert decl).1 s.fields).1 }) :=
    (congrArg (·.2.classes) hc).symm.trans (congrArg (SlotTable.modify · _ _) hclasses)
  have hfields : (q.addFields (p.classes.insert decl).1 s.fields).2.fields = p'.fields :=
    congrArg (·.2.fields) hc
  rw [hfields] at hwf hsame hmap
  have hfree : (p.classes.insert decl).1.index = p.classes.slots.size ∧
      (p.classes.insert decl).2.free = [] := by simp [SlotTable.insert, h.free]
  refine ⟨hcls ▸ (h.classes.insert _).modify .., hcls ▸ hfree.2, hwf, ⟨?_, ?_⟩, hfree.1, _, hnodup,
    hmap, fun k => ?_⟩
  · intro c hc
    have hne : c ≠ (p.classes.insert decl).1 := by
      rintro rfl
      simp [SlotTable.contains, get?_insert_fst h.classes decl] at hc
    rw [hcls, get?_modify, if_neg hne, get?_insert h.classes, if_neg hne]
  · intro f d hf
    exact (hsame f fun hmem => by cases hf.symm.trans (hfresh f hmem)).trans hf
  · rw [hcls, get?_modify, get?_insert h.classes]
    split <;> rfl

theorem Table.addClass (hs : ∀ b, s.parent = some b → p.classes.contains b = true) :
    p'.Table ((c, s) :: l) := by
  obtain ⟨hclasses, hfree, hfields, hg, hindex, own, hnodup, hown, hget⟩ := h.addClass_spec hc
  have hlt : ∀ b, p.classes.contains b = true → b.index < c.index := fun b hb => by
    obtain ⟨decl, hb⟩ := Option.isSome_iff_exists.1 hb
    exact hindex ▸ (Array.getElem?_eq_some_iff.1 (get?_eq_some_iff.1 hb)).1
  refine ⟨hclasses, hfree, hfields, fun k hk => ?_, fun k t hmem => ?_⟩
  · rw [map_cons, mem_cons]
    rw [SlotTable.contains, hget] at hk
    split at hk
    · exact .inl ‹_›
    · exact .inr (h.listed k hk)
  · rcases mem_cons.1 hmem with he | hmem
    · obtain ⟨rfl, rfl⟩ := Prod.mk.inj he
      refine ⟨own, ?_, hnodup, hown, fun b hb => ⟨?_, hlt b (hs b hb)⟩⟩
      · rw [hget, if_pos rfl, hg.inherited hs, hg.map_parent _ hs]
      · rw [SlotTable.contains, hg.cls b (hs b hb)]
        exact hs b hb
    · exact (h.row k t hmem).imp fun own => hg.row

end Class

theorem Declares.table (h : p.Declares l) : p.Table l := by
  induction h with
  | nil => exact ⟨.empty, rfl, .empty, by simp [SlotTable.contains, SlotTable.get?], by simp⟩
  | cons s _ hs hc ih => exact ih.addClass hc hs

end Declaring

namespace Row

variable (hr : p.Row c s own)
include hr

theorem cls_eq : p.cls c = ⟨s.name, s.parent, p.inherited s ++ own,
    s.flags.union ((s.parent.map fun b => (p.cls b).flags).getD {})⟩ := by
  rw [Program.cls, hr.cls, Option.getD_some]

theorem layout_eq : p.layout c = p.inherited s ++ own := by
  rw [Program.layout, hr.cls_eq]

theorem layout_of_parent (hb : s.parent = some b) : p.layout c = p.layout b ++ own := by
  simp [hr.layout_eq, inherited, hb]

theorem flags_of_parent (hb : s.parent = some b) : (p.cls b).flags.Within (p.cls c).flags := by
  simp +contextual [hr.cls_eq, hb, Flags.Within, Flags.union]

/-- The declaration at a place makes the field that is there among the class's own. -/
theorem get?_own (i : Nat) :
    (own[i]?).map p.fields.get? = (s.fields[i]?).map fun e => some ⟨e.1, e.2, c⟩ := by
  rw [← List.getElem?_map, hr.fields, List.getElem?_map]

theorem makes_of_own (hmem : (c, s) ∈ l) (hf : own[i]? = some f) :
    ∃ name ty, s.fields[i]? = some (name, ty) ∧ p.fields.get? f = some ⟨name, ty, c⟩ ∧
      p.Makes l name c i f := by
  have hi := hr.get?_own i
  rw [hf, Option.map_some] at hi
  obtain ⟨⟨name, ty⟩, he, hget⟩ := Option.map_eq_some_iff.1 hi.symm
  refine ⟨name, ty, he, hget.symm, s, ty, hmem, he, ?_, hget.symm⟩
  rw [hr.layout_eq, List.getElem?_append_right (by omega), Nat.add_sub_cancel_left, hf]

theorem field?_eq (name : String) : p.field? c name =
    (own.reverse.find? fun f => ((p.fields.get? f).map FieldDecl.name) == some name).or
      (s.parent.bind (p.field? · name)) := by
  rw [field?, hr.layout_eq, reverse_append, List.find?_append, inherited]
  cases s.parent <;> rfl

end Row

namespace Table

variable (h : p.Table l)
include h

theorem exists_row (hc : c ∈ l.map Prod.fst) : ∃ s own, (c, s) ∈ l ∧ p.Row c s own := by
  obtain ⟨⟨_, s⟩, hmem, rfl⟩ := mem_map.1 hc
  exact ⟨s, (h.row _ s hmem).imp fun own hr => ⟨hmem, hr⟩⟩

theorem exists_row_of_parent (hb : (p.cls c).parent = some b) :
    ∃ s own, (c, s) ∈ l ∧ p.Row c s own ∧ s.parent = some b := by
  have hc : p.classes.contains c = true := by
    by_contra hnone
    rw [SlotTable.contains, Bool.not_eq_true, Option.isSome_eq_false_iff] at hnone
    simp [Program.cls, Option.isNone_iff_eq_none.1 hnone, default] at hb
    cases hb
  obtain ⟨s, own, hmem, hr⟩ := h.exists_row (h.listed c hc)
  exact ⟨s, own, hmem, hr, (congrArg ClassDecl.parent hr.cls_eq).symm.trans hb⟩

theorem isSubclass_iff : p.isSubclass c d = true ↔
    ReflTransGen (fun c b => (p.cls c).parent = some b) c d := by
  rw [isSubclass, contains_iff_mem]
  refine mem_chain_iff Key.index (fun c b hb => ?_) fun b hb => ?_
  · obtain ⟨s, own, -, hr, hs⟩ := h.exists_row_of_parent hb
    exact (hr.parent b hs).2
  · obtain ⟨s, own, -, hr, hs⟩ := h.exists_row_of_parent hb
    have := (Array.getElem?_eq_some_iff.1 (get?_eq_some_iff.1 hr.cls)).1
    omega

theorem parent_of_isSubclass (hr : p.Row c s own) (hsub : p.isSubclass c d = true) (hne : c ≠ d) :
    ∃ b, s.parent = some b ∧ p.isSubclass b d = true := by
  obtain rfl | ⟨b, hb, hsub⟩ := (h.isSubclass_iff.1 hsub).cases_head
  · exact absurd rfl hne
  · exact ⟨b, (congrArg ClassDecl.parent hr.cls_eq).symm.trans hb, h.isSubclass_iff.2 hsub⟩

theorem isSubclass_of_parent (hr : p.Row c s own) (hb : s.parent = some b)
    (hsub : p.isSubclass b d = true) : p.isSubclass c d = true :=
  h.isSubclass_iff.2 (.head ((congrArg ClassDecl.parent hr.cls_eq).trans hb)
    (h.isSubclass_iff.1 hsub))

/-- What a class has in common with its parent it has in common with all its ancestors. -/
theorem of_isSubclass {R : ClassId → ClassId → Prop} (refl : ∀ c, R c c)
    (trans : ∀ c b d, R c b → R b d → R c d)
    (step : ∀ c s own b, p.Row c s own → s.parent = some b → R c b)
    (hsub : p.isSubclass c d = true) : R c d := by
  rw [h.isSubclass_iff] at hsub
  induction hsub with
  | refl => exact refl c
  | tail _ hb ih =>
    obtain ⟨s, own, -, hr, hs⟩ := h.exists_row_of_parent hb
    exact trans _ _ _ ih (step _ s own _ hr hs)

section

variable (hsub : p.isSubclass c d = true)
include hsub

theorem eq_or_index_lt : c = d ∨ d.index < c.index := by
  refine h.of_isSubclass (R := fun c d => c = d ∨ d.index < c.index) (fun _ => .inl rfl) ?_ ?_ hsub
  · rintro c b d (rfl | hb) (rfl | hd)
    · exact .inl rfl
    · exact .inr hd
    · exact .inr hb
    · exact .inr (Nat.lt_trans hd hb)
  · exact fun c s own b hr hb => .inr (hr.parent b hb).2

theorem layout_prefix : p.layout d <+: p.layout c :=
  h.of_isSubclass (R := fun c d => p.layout d <+: p.layout c) (fun _ => prefix_refl _)
    (fun _ _ _ hc hd => hd.trans hc)
    (fun _ _ own _ hr hb => hr.layout_of_parent hb ▸ prefix_append _ own) hsub

theorem flags_within : (p.cls d).flags.Within (p.cls c).flags :=
  h.of_isSubclass (R := fun c d => (p.cls d).flags.Within (p.cls c).flags) (fun _ => ⟨id, id⟩)
    (fun _ _ _ hc hd => ⟨hc.1 ∘ hd.1, hc.2 ∘ hd.2⟩) (fun _ _ _ _ hr hb => hr.flags_of_parent hb) hsub

theorem fieldIndex?_eq (hf : f ∈ p.layout d) : p.fieldIndex? c f = p.fieldIndex? d f := by
  obtain ⟨rest, hrest⟩ := h.layout_prefix hsub
  have hsome : ((p.layout d).findIdx? (· == f)).isSome = true := by simpa using hf
  rw [fieldIndex?, ← hrest, List.findIdx?_append, Option.or_of_isSome hsome, fieldIndex?]

end

theorem isPartialOrder : IsPartialOrder ClassId fun c d => p.isSubclass c d = true where
  refl c := h.isSubclass_iff.2 .refl
  trans c b d hcb hbd := h.isSubclass_iff.2 ((h.isSubclass_iff.1 hcb).trans (h.isSubclass_iff.1 hbd))
  antisymm c d hcd hdc := by
    rcases h.eq_or_index_lt hcd with he | hlt
    · exact he
    · exact (h.eq_or_index_lt hdc).elim Eq.symm fun hgt => absurd hgt (by omega)

/-- A statement about all classes follows the declarations: parents come first. -/
theorem induction {P : ClassId → Prop}
    (step : ∀ c s own, (c, s) ∈ l → p.Row c s own → (∀ b, s.parent = some b → P b) → P c)
    (hc : c ∈ l.map Prod.fst) : P c := by
  generalize hn : c.index = n
  induction n using Nat.strongRecOn generalizing c with
  | ind n ih =>
    obtain ⟨s, own, hmem, hr⟩ := h.exists_row hc
    refine step c s own hmem hr fun b hb => ?_
    obtain ⟨hb, hlt⟩ := hr.parent b hb
    exact ih b.index (hn ▸ hlt) (h.listed b hb) rfl

theorem search (sup : ClassId) (hc : c ∈ l.map Prod.fst) : p.Search sup c (p.isSubclass c sup) := by
  refine h.induction (P := fun c => p.Search sup c (p.isSubclass c sup)) ?_ hc
  intro c s own _ hr ih
  by_cases hne : c = sup
  · subst hne
    rw [h.isPartialOrder.refl c]
    exact .found
  cases hb : s.parent with
  | none =>
    have hfalse : p.isSubclass c sup = false := by
      by_contra hsub
      obtain ⟨b, hs, -⟩ := h.parent_of_isSubclass hr (by simpa using hsub) hne
      simp [hb] at hs
    exact hfalse ▸ .top hne hr.cls hb
  | some b =>
    have hsame : p.isSubclass c sup = p.isSubclass b sup := by
      rw [Bool.eq_iff_iff]
      refine ⟨fun hsub => ?_, h.isSubclass_of_parent hr hb⟩
      obtain ⟨b', hs, hsub⟩ := h.parent_of_isSubclass hr hsub hne
      obtain rfl : b = b' := Option.mem_unique hb hs
      exact hsub
    exact hsame ▸ .up hne hr.cls hb (ih b hb)

theorem held (hc : c ∈ l.map Prod.fst) (hf : f ∈ p.layout c) :
    ∃ decl, p.fields.get? f = some decl ∧ p.isSubclass c decl.holder = true := by
  refine h.induction (P := fun c => ∀ f ∈ p.layout c, ∃ decl, p.fields.get? f = some decl ∧
    p.isSubclass c decl.holder = true) ?_ hc f hf
  intro c s own hmem hr ih f hf
  rw [hr.layout_eq, mem_append] at hf
  rcases hf with hf | hf
  · cases hb : s.parent with
    | none => simp [inherited, hb] at hf
    | some b =>
      obtain ⟨decl, hget, hsub⟩ := ih b hb f (by simpa [inherited, hb] using hf)
      exact ⟨decl, hget, h.isSubclass_of_parent hr hb hsub⟩
  · obtain ⟨i, hi⟩ := List.getElem?_of_mem hf
    obtain ⟨name, ty, -, hget, -⟩ := hr.makes_of_own hmem hi
    exact ⟨_, hget, h.isPartialOrder.refl c⟩

theorem nodup_layout (hc : c ∈ l.map Prod.fst) : (p.layout c).Nodup := by
  refine h.induction (P := fun c => (p.layout c).Nodup) ?_ hc
  intro c s own hmem hr ih
  cases hb : s.parent with
  | none =>
    rw [hr.layout_eq, inherited, hb]
    exact hr.nodup
  | some b =>
    rw [hr.layout_of_parent hb]
    refine (ih b hb).append hr.nodup fun f hf hown => ?_
    obtain ⟨hlive, hlt⟩ := hr.parent b hb
    obtain ⟨decl, hget, hsub⟩ := h.held (h.listed b hlive) hf
    obtain ⟨i, hi⟩ := List.getElem?_of_mem hown
    obtain ⟨name, ty, -, hget', -⟩ := hr.makes_of_own hmem hi
    rw [Option.mem_unique hget hget'] at hsub
    rcases h.eq_or_index_lt hsub with he | hgt
    · exact absurd hlt (by simp [he])
    · exact absurd hlt (by simp at hgt; omega)

theorem own_of_makes (hr : p.Row c s own) (hm : p.Makes l name c i f) : own[i]? = some f := by
  obtain ⟨t, ty, hmem, -, hf, -⟩ := hm
  obtain ⟨own', hr'⟩ := h.row c t hmem
  have hparent : t.parent = s.parent :=
    congrArg ClassDecl.parent (hr'.cls_eq.symm.trans hr.cls_eq)
  rw [hr.layout_eq, inherited, inherited, hparent, List.getElem?_append_right (by omega),
    Nat.add_sub_cancel_left] at hf
  exact hf

section Naming

variable {name : String} (hr : p.Row c s own)
include hr

theorem not_makes_of_find? (hfind : own.reverse.find?
    (fun f => ((p.fields.get? f).map FieldDecl.name) == some name) = none) :
    ¬ p.Makes l name c i f := by
  intro hm
  have hf := mem_of_getElem? (h.own_of_makes hr hm)
  obtain ⟨_, _, _, _, _, hget⟩ := hm
  exact List.find?_eq_none.1 hfind f (mem_reverse.2 hf) (by simp [hget])

/-- The last of a class's own fields with a name hides the others. -/
theorem means_own (hmem : (c, s) ∈ l) (hfind : own.reverse.find?
    (fun f => ((p.fields.get? f).map FieldDecl.name) == some name) = some f) :
    p.Means l c name (some f) := by
  obtain ⟨hf, as, bs, happend, has⟩ := List.find?_eq_some_iff_append.1 hfind
  obtain rfl : own = bs.reverse ++ f :: as.reverse := by simpa using congrArg List.reverse happend
  have hi : (bs.reverse ++ f :: as.reverse)[bs.length]? = some f := by simp
  obtain ⟨name', ty, -, hget, hmakes⟩ := hr.makes_of_own hmem hi
  obtain rfl : name' = name := by simpa [hget] using hf
  refine ⟨c, bs.length, hmakes, h.isPartialOrder.refl c, fun e j g hm hsub => ⟨hsub, ?_⟩⟩
  rintro rfl
  by_contra hlt
  obtain ⟨k, rfl⟩ : ∃ k, j = bs.length + (k + 1) := ⟨j - bs.length - 1, by omega⟩
  have hg := h.own_of_makes hr hm
  rw [List.getElem?_append_right (by simp), length_reverse, Nat.add_sub_cancel_left,
    List.getElem?_cons_succ] at hg
  obtain ⟨_, _, _, _, _, hget⟩ := hm
  simpa [hget] using has g (mem_reverse.1 (mem_of_getElem? hg))

/-- A name that a class does not declare means what it means to the parent. -/
theorem means_parent (hown : ∀ i f, ¬ p.Makes l name c i f) (hb : s.parent = some b) {found}
    (hmeans : p.Means l b name found) : p.Means l c name found := by
  have hup : ∀ e j g, p.Makes l name e j g → p.isSubclass c e = true →
      p.isSubclass b e = true := fun e j g hm hsub => by
    obtain ⟨b', hs, hsub⟩ := h.parent_of_isSubclass hr hsub fun he => hown j g (he ▸ hm)
    exact Option.mem_unique hb hs ▸ hsub
  cases found with
  | none => exact fun e j g hm hsub => hmeans e j g hm (hup e j g hm hsub)
  | some f =>
    obtain ⟨d, i, hd, hsub, hmax⟩ := hmeans
    exact ⟨d, i, hd, h.isSubclass_of_parent hr hb hsub, fun e j g hm hsub =>
      hmax e j g hm (hup e j g hm hsub)⟩

end Naming

theorem means (name : String) (hc : c ∈ l.map Prod.fst) : p.Means l c name (p.field? c name) := by
  refine h.induction (P := fun c => p.Means l c name (p.field? c name)) ?_ hc
  intro c s own hmem hr ih
  rw [hr.field?_eq]
  cases hfind : own.reverse.find? _ with
  | some f => exact h.means_own hr hmem hfind
  | none =>
    have hown : ∀ i f, ¬ p.Makes l name c i f := fun i f => h.not_makes_of_find? hr hfind
    cases hb : s.parent with
    | some b => exact h.means_parent hr hown hb (ih b hb)
    | none =>
      intro e j g hm hsub
      obtain ⟨b, hs, -⟩ := h.parent_of_isSubclass hr hsub fun he => hown j g (he ▸ hm)
      simp [hb] at hs

end Table

/-- What all parts of the program rely on about classes and their fields. -/
structure Consistent (p : Program) (l : List (ClassId × ClassSpec)) : Prop where
  /-- Asking whether a class derives from another comes to its answer. -/
  ends : ∀ c ∈ l.map Prod.fst, ∀ sup, p.Search sup c (p.isSubclass c sup)
  order : IsPartialOrder ClassId fun c d => p.isSubclass c d = true
  layout : ∀ c d, p.isSubclass c d = true → p.layout d <+: p.layout c
  flags : ∀ c d, p.isSubclass c d = true → (p.cls d).flags.Within (p.cls c).flags
  /-- A field has the same slot in all instances that have it. -/
  index : ∀ c d, p.isSubclass c d = true → ∀ f ∈ p.layout d,
    p.fieldIndex? c f = p.fieldIndex? d f
  nodup : ∀ c ∈ l.map Prod.fst, (p.layout c).Nodup
  held : ∀ c ∈ l.map Prod.fst, ∀ f ∈ p.layout c, ∃ decl, p.fields.get? f = some decl ∧
    p.isSubclass c decl.holder = true
  made : ∀ c s i name ty, (c, s) ∈ l → s.fields[i]? = some (name, ty) → ∃ f, p.Makes l name c i f
  named : ∀ c ∈ l.map Prod.fst, ∀ name, p.Means l c name (p.field? c name)

theorem consistent_of_declares (h : p.Declares l) : p.Consistent l where
  ends c hc sup := h.table.search sup hc
  order := h.table.isPartialOrder
  layout c d := h.table.layout_prefix
  flags c d := h.table.flags_within
  index c d hsub f := h.table.fieldIndex?_eq hsub
  nodup c := h.table.nodup_layout
  held c hc f := h.table.held hc
  made c s i name ty hmem hi := by
    obtain ⟨own, hr⟩ := h.table.row c s hmem
    have hown := hr.get?_own i
    rw [hi] at hown
    obtain ⟨f, hf, -⟩ := Option.map_eq_some_iff.1 hown
    obtain ⟨name', ty', hi', -, hmakes⟩ := hr.makes_of_own hmem hf
    obtain rfl : name = name' := congrArg Prod.fst (Option.mem_unique hi hi')
    exact ⟨f, hmakes⟩
  named c hc name := h.table.means name hc

/-- The middle one of three classes declares a name of the first anew, and that twice. -/
theorem consistent_of_declares_tile : ∃ (p : Program) (l : _), p.Declares l ∧ l.length = 3 ∧
    (p.cls ⟨2, 1⟩).flags.finalizer = true ∧ p.layout ⟨0, 1⟩ <+: p.layout ⟨2, 1⟩ ∧
    p.field? ⟨2, 1⟩ "id" = some ⟨3, 1⟩ ∧ p.Means l ⟨2, 1⟩ "id" (some ⟨3, 1⟩) := by
  have h₁ := Declares.nil.cons ⟨"Shape", none, [("id", .int), ("tag", .ref)], ⟨true, false⟩⟩
    (by simp) rfl
  have h₂ := h₁.cons ⟨"Square", some ⟨0, 1⟩, [("id", .int), ("id", .long)], {}⟩
    (by rintro _ ⟨⟩; rfl) rfl
  have h₃ := h₂.cons ⟨"Tile", some ⟨1, 1⟩, [], {}⟩ (by rintro _ ⟨⟩; rfl) rfl
  have hc := consistent_of_declares h₃
  exact ⟨_, _, h₃, rfl, (hc.flags ⟨2, 1⟩ ⟨0, 1⟩ rfl).1 rfl, hc.layout _ _ rfl, rfl,
    hc.named ⟨2, 1⟩ (by simp; decide) "id"⟩

end Program

end EscapeAnalysis
