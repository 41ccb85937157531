import EscapeAnalysis.Proofs.Heaps

/-!
# Isomorphisms of heaps

Two values in two heaps are equivalent exactly if some one-to-one relation between objects relates
them, under which related objects look alike (`Heap.equiv_iff`). The comparison never has a choice,
so a pair that does not fit refutes every such relation (`Heap.agree_iff`).

Exits are compared value by value. One relation for all values is there exactly if the values are
equivalent one by one and what is shared between them is shared alike (`Exit.equiv_deopt_exact`).
-/

namespace EscapeAnalysis

open List

variable {α β : Type}

/-- Each has at most one partner, on either side. -/
def OneToOne {α β : Type} (R : α → β → Prop) : Prop :=
  ∀ a b a' b', R a b → R a' b' → (a = a' ↔ b = b')

theorem OneToOne.flip {R : α → β → Prop} (h : OneToOne R) : OneToOne fun b a => R a b :=
  fun b a b' a' hab hab' => (h a b a' b' hab hab').symm

theorem OneToOne.comp {γ : Type} {R : α → β → Prop} {S : β → γ → Prop} (hR : OneToOne R)
    (hS : OneToOne S) : OneToOne fun a c => ∃ b, R a b ∧ S b c := by
  rintro a c a' c' ⟨b, hab, hbc⟩ ⟨b', hab', hbc'⟩
  exact (hR a b a' b' hab hab').trans (hS b c b' c' hbc hbc')

theorem OneToOne.mono {R S : α → β → Prop} (h : OneToOne S) (hRS : ∀ a b, R a b → S a b) :
    OneToOne R :=
  fun a b a' b' hab hab' => h a b a' b' (hRS a b hab) (hRS a' b' hab')

theorem OneToOne.cons {pairs} (h : OneToOne fun a b => (a, b) ∈ pairs) {a : α} {b : β}
    (hab : ∀ a' b', (a', b') ∈ pairs → a' ≠ a ∧ b' ≠ b) :
    OneToOne fun a' b' => (a', b') ∈ (a, b) :: pairs := by
  intro a1 b1 a2 b2 h1 h2
  rcases mem_cons.1 h1 with h1 | h1 <;> rcases mem_cons.1 h2 with h2 | h2
  · cases h1
    cases h2
    simp
  · cases h1
    exact iff_of_false (hab a2 b2 h2).1.symm (hab a2 b2 h2).2.symm
  · cases h2
    exact iff_of_false (hab a1 b1 h1).1 (hab a1 b1 h1).2
  · exact h a1 b1 a2 b2 h1 h2

variable {R S : ObjRef → ObjRef → Prop} {a b : ObjRef} {v w : Value}

/-- Values match if they are references to related objects, or the same value that is not a
reference. -/
def Value.Match (R : ObjRef → ObjRef → Prop) : Value → Value → Prop
  | .ref a, .ref b => R a b
  | v, w => v = w

namespace Value.Match

theorem of_ref_left (h : Match R (.ref a) w) : ∃ b, w = .ref b ∧ R a b := by
  cases w with
  | ref b => exact ⟨b, rfl, h⟩
  | _ => cases h

theorem mono (h : Match R v w) (hS : ∀ a b, v = .ref a → w = .ref b → R a b → S a b) :
    Match S v w := by
  cases v with
  | ref a =>
    obtain ⟨b, rfl, hab⟩ := h.of_ref_left
    exact hS a b rfl rfl hab
  | _ => cases w <;> exact h

theorem eq (h : Match R v w) (hno : ∀ a b, v = .ref a → w = .ref b → False) : v = w := by
  cases v with
  | ref a =>
    obtain ⟨b, rfl, -⟩ := h.of_ref_left
    exact (hno a b rfl rfl).elim
  | _ => cases w <;> exact h

theorem refl (hno : ∀ a b, v = .ref a → v = .ref b → False) : Match R v v := by
  cases v with
  | ref a => exact (hno a a rfl rfl).elim
  | _ => rfl

theorem flip (h : Match R v w) : Match (fun b a => R a b) w v := by
  cases v with
  | ref a =>
    obtain ⟨b, rfl, hab⟩ := h.of_ref_left
    exact hab
  | _ => cases w <;> exact Eq.symm h

theorem comp {u} (h : Match R u v) (h' : Match S v w) :
    Match (fun a c => ∃ b, R a b ∧ S b c) u w := by
  cases u with
  | ref a =>
    obtain ⟨b, rfl, hab⟩ := h.of_ref_left
    obtain ⟨c, rfl, hbc⟩ := h'.of_ref_left
    exact ⟨b, hab, hbc⟩
  | _ =>
    cases v <;> cases h
    cases w <;> exact h'

end Value.Match

/-- Objects look alike if only their references differ, and these are related slot by slot. -/
structure Object.Alike (R : ObjRef → ObjRef → Prop) (x y : Object) : Prop where
  shape : x.shape = y.shape
  locks : x.locks = y.locks
  size : x.fields.size = y.fields.size
  fields : ∀ (i : Nat) v w, x.fields[i]? = some v → y.fields[i]? = some w → v.Match R w

namespace Object.Alike

variable {x y z : Object}

theorem flip (h : Alike R x y) : Alike (fun b a => R a b) y x :=
  ⟨h.shape.symm, h.locks.symm, h.size.symm, fun i v w hv hw => (h.fields i w v hw hv).flip⟩

theorem comp (h : Alike R x y) (h' : Alike S y z) : Alike (fun a c => ∃ b, R a b ∧ S b c) x z := by
  refine ⟨h.shape.trans h'.shape, h.locks.trans h'.locks, h.size.trans h'.size,
    fun i u w hu hw => ?_⟩
  have hi : i < y.fields.size := h.size ▸ (Array.getElem?_eq_some_iff.1 hu).1
  have hy := Array.getElem?_eq_getElem hi
  exact (h.fields i u _ hu hy).comp (h'.fields i _ w hy hw)

theorem iff_zip : Alike R x y ↔ (x.shape = y.shape ∧ x.locks = y.locks ∧
    x.fields.size = y.fields.size) ∧
      ∀ e ∈ x.fields.toList.zip y.fields.toList, e.1.Match R e.2 := by
  constructor
  · rintro ⟨hshape, hlocks, hsize, hfields⟩
    refine ⟨⟨hshape, hlocks, hsize⟩, fun e he => ?_⟩
    obtain ⟨i, hi⟩ := mem_iff_getElem?.1 he
    rw [List.getElem?_zip_eq_some] at hi
    exact hfields i e.1 e.2 (by simpa using hi.1) (by simpa using hi.2)
  · rintro ⟨⟨hshape, hlocks, hsize⟩, hfields⟩
    refine ⟨hshape, hlocks, hsize, fun i v w hv hw => hfields (v, w) ?_⟩
    refine mem_iff_getElem?.2 ⟨i, ?_⟩
    rw [List.getElem?_zip_eq_some]
    exact ⟨by simpa using hv, by simpa using hw⟩

end Object.Alike

namespace Heap

variable {h h' h'' : Heap}

def Paired (h h' : Heap) (R : ObjRef → ObjRef → Prop) (a b : ObjRef) : Prop :=
  ∃ x y, h.get? a = some x ∧ h'.get? b = some y ∧ x.Alike R y

/-- A one-to-one relation between the objects of two heaps under which related objects look
alike. -/
structure Iso (h h' : Heap) (R : ObjRef → ObjRef → Prop) : Prop where
  oneToOne : OneToOne R
  paired : ∀ a b, R a b → h.Paired h' R a b

theorem Iso.flip (hR : h.Iso h' R) : h'.Iso h fun b a => R a b := by
  refine ⟨hR.oneToOne.flip, fun b a hab => ?_⟩
  obtain ⟨x, y, hx, hy, halike⟩ := hR.paired a b hab
  exact ⟨y, x, hy, hx, halike.flip⟩

theorem Iso.comp (hR : h.Iso h' R) (hS : h'.Iso h'' S) :
    h.Iso h'' fun a c => ∃ b, R a b ∧ S b c := by
  refine ⟨hR.oneToOne.comp hS.oneToOne, ?_⟩
  rintro a c ⟨b, hab, hbc⟩
  obtain ⟨x, y, hx, hy, hxy⟩ := hR.paired a b hab
  obtain ⟨y', z, hy', hz, hyz⟩ := hS.paired b c hbc
  obtain rfl := Option.mem_unique hy hy'
  exact ⟨x, z, hx, hz, hxy.comp hyz⟩

/-- A one-to-one relation that has the given pairs, and under which all other related objects look
alike. -/
structure IsoBeyond (h h' : Heap) (pairs : List (ObjRef × ObjRef))
    (R : ObjRef → ObjRef → Prop) : Prop where
  oneToOne : OneToOne R
  has : ∀ a b, (a, b) ∈ pairs → R a b
  paired : ∀ a b, R a b → (a, b) ∈ pairs ∨ h.Paired h' R a b

theorem isoBeyond_nil : h.IsoBeyond h' [] R ↔ h.Iso h' R :=
  ⟨fun hR => ⟨hR.oneToOne, fun a b hab => (hR.paired a b hab).resolve_left (by simp)⟩,
    fun hR => ⟨hR.oneToOne, by simp, fun a b hab => .inr (hR.paired a b hab)⟩⟩

theorem IsoBeyond.of_cons {pairs} (hR : h.IsoBeyond h' ((a, b) :: pairs) R)
    (hab : h.Paired h' R a b) : h.IsoBeyond h' pairs R := by
  refine ⟨hR.oneToOne, fun a' b' h' => hR.has a' b' (.tail _ h'),
    fun a' b' h' => ?_⟩
  rcases hR.paired a' b' h' with hmem | hpaired
  · rcases mem_cons.1 hmem with heq | hmem
    · cases heq
      exact .inr hab
    · exact .inl hmem
  · exact .inr hpaired

theorem IsoBeyond.cons {pairs} (hR : h.IsoBeyond h' pairs R) (hab : R a b) :
    h.IsoBeyond h' ((a, b) :: pairs) R := by
  refine ⟨hR.oneToOne, fun a' b' hmem => ?_, fun a' b' h' => ?_⟩
  · rcases mem_cons.1 hmem with heq | hmem
    · cases heq
      exact hab
    · exact hR.has a' b' hmem
  · exact (hR.paired a' b' h').imp (.tail _) id

/-- The comparison succeeds exactly if some relation has the pairs matched so far and matches all
that is still to be compared. -/
theorem agree_iff (todo : List (Value × Value)) (pairs : List (ObjRef × ObjRef))
    (hpairs : OneToOne fun a b => (a, b) ∈ pairs) : agree h h' todo pairs = true ↔
      ∃ R, h.IsoBeyond h' pairs R ∧ ∀ e ∈ todo, e.1.Match R e.2 := by
  fun_induction agree h h' todo pairs with
  | case1 pairs =>
    exact iff_of_true rfl ⟨fun a b => (a, b) ∈ pairs, ⟨hpairs, fun _ _ => id, fun _ _ => .inl⟩,
      by simp⟩
  | case2 a b rest pairs hmem ih =>
    rw [ih hpairs]
    refine exists_congr fun R => and_congr_right fun hR => ?_
    simp [Value.Match, hR.has a b hmem]
  | case3 a b rest pairs hmem hused =>
    refine iff_of_false (by simp) ?_
    rintro ⟨R, hR, htodo⟩
    have hab : R a b := htodo (.ref a, .ref b) (by simp)
    rcases hused with hused | hused
    · obtain ⟨⟨a', b'⟩, he, rfl⟩ := mem_map.1 hused
      exact hmem ((hR.oneToOne _ _ _ _ hab (hR.has _ _ he)).1 rfl ▸ he)
    · obtain ⟨⟨a', b'⟩, he, rfl⟩ := mem_map.1 hused
      exact hmem ((hR.oneToOne _ _ _ _ hab (hR.has _ _ he)).2 rfl ▸ he)
  | case4 a b rest pairs hmem hused x y hx hy hsame ih =>
    rw [ih (hpairs.cons fun a' b' he => ?_)]
    · constructor
      · rintro ⟨R, hR, htodo⟩
        have halike : x.Alike R y := Object.Alike.iff_zip.2
          ⟨hsame, fun e he => htodo e (mem_append_left _ he)⟩
        refine ⟨R, hR.of_cons ⟨x, y, hx, hy, halike⟩, fun e he => ?_⟩
        rcases mem_cons.1 he with rfl | he
        · exact hR.has a b (.head _)
        · exact htodo e (mem_append_right _ he)
      · rintro ⟨R, hR, htodo⟩
        have hab : R a b := htodo (.ref a, .ref b) (.head _)
        obtain ⟨x', y', hx', hy', halike⟩ := (hR.paired a b hab).resolve_left hmem
        obtain rfl := Option.mem_unique hx hx'
        obtain rfl := Option.mem_unique hy hy'
        refine ⟨R, hR.cons hab, fun e he => ?_⟩
        rcases mem_append.1 he with he | he
        · exact (Object.Alike.iff_zip.1 halike).2 e he
        · exact htodo e (.tail _ he)
    · rw [not_or] at hused
      exact ⟨fun e => hused.1 (mem_map.2 ⟨_, he, e⟩),
        fun e => hused.2 (mem_map.2 ⟨_, he, e⟩)⟩
  | case5 a b rest pairs hmem hused x y hx hy hdiffer =>
    refine iff_of_false (by simp) ?_
    rintro ⟨R, hR, htodo⟩
    have hab : R a b := htodo (.ref a, .ref b) (.head _)
    obtain ⟨x', y', hx', hy', halike⟩ := (hR.paired a b hab).resolve_left hmem
    obtain rfl := Option.mem_unique hx hx'
    obtain rfl := Option.mem_unique hy hy'
    exact hdiffer (Object.Alike.iff_zip.1 halike).1
  | case6 a b rest pairs hmem hused hnone =>
    refine iff_of_false (by simp) ?_
    rintro ⟨R, hR, htodo⟩
    have hab : R a b := htodo (.ref a, .ref b) (.head _)
    obtain ⟨x, y, hx, hy, -⟩ := (hR.paired a b hab).resolve_left hmem
    exact hnone x y hx hy
  | case7 v rest pairs hv ih =>
    rw [ih hpairs]
    refine exists_congr fun R => and_congr_right fun _ => ?_
    simp [Value.Match.refl hv]
  | case8 v w rest pairs hv hvw =>
    refine iff_of_false (by simp) ?_
    rintro ⟨R, -, htodo⟩
    exact hvw ((htodo (v, w) (.head _)).eq hv)

theorem agree_nil_iff (todo : List (Value × Value)) : agree h h' todo [] = true ↔
    ∃ R, h.Iso h' R ∧ ∀ e ∈ todo, e.1.Match R e.2 := by
  rw [agree_iff todo [] fun _ _ _ _ hab => by cases hab]
  simp only [isoBeyond_nil]

theorem equiv_iff : h.equiv v h' w = true ↔ ∃ R, h.Iso h' R ∧ v.Match R w := by
  rw [equiv, agree_nil_iff]
  simp

theorem equiv_symm (he : h.equiv v h' w = true) : h'.equiv w h v = true := by
  obtain ⟨R, hR, hvw⟩ := equiv_iff.1 he
  exact equiv_iff.2 ⟨_, hR.flip, hvw.flip⟩

theorem equiv_trans {u} (he : h.equiv u h' v = true) (he' : h'.equiv v h'' w = true) :
    h.equiv u h'' w = true := by
  obtain ⟨R, hR, huv⟩ := equiv_iff.1 he
  obtain ⟨S, hS, hvw⟩ := equiv_iff.1 he'
  exact equiv_iff.2 ⟨_, hR.comp hS, huv.comp hvw⟩

theorem equiv_of_closed {P : ObjRef → Prop} (hP : ∀ o, P o → ∃ x, h.get? o = some x ∧
    h'.get? o = some x ∧ ∀ o', .ref o' ∈ x.fields → P o') (hv : ∀ o, v = .ref o → P o) :
    h.equiv v h' v = true := by
  have hmatch : ∀ w : Value, (∀ o, w = .ref o → P o) → w.Match (fun a b => a = b ∧ P a) w := by
    intro w hw
    cases w with
    | ref o => exact ⟨rfl, hw o rfl⟩
    | _ => rfl
  refine equiv_iff.2 ⟨fun a b => a = b ∧ P a, ⟨?_, ?_⟩, hmatch v hv⟩
  · rintro a b a' b' ⟨rfl, -⟩ ⟨rfl, -⟩
    rfl
  · rintro a b ⟨rfl, ha⟩
    obtain ⟨x, hx, hx', hfields⟩ := hP a ha
    refine ⟨x, x, hx, hx', rfl, rfl, rfl, fun i u w hu hw => ?_⟩
    obtain rfl := Option.mem_unique hu hw
    exact hmatch u fun o ho => hfields o (ho ▸ Array.mem_of_getElem? hu)

/-- A value is equivalent to itself unless it leads to a reference that designates nothing. -/
theorem equiv_self_iff : h.equiv v h v = true ↔
    ∀ o, h.Reach (fun o => v = .ref o) o → h.Live o := by
  constructor
  · intro he o ho
    obtain ⟨R, hR, hv⟩ := equiv_iff.1 he
    -- the relation takes every object that is reached to itself
    have hself : R o o := by
      refine ho.subset (P := fun o => R o o) ?_ fun o x o' hoo hx hmem => ?_
      · rintro o rfl
        exact hv
      · obtain ⟨y, z, hy, hz, halike⟩ := hR.paired o o hoo
        obtain rfl := Option.mem_unique hx hy
        obtain rfl := Option.mem_unique hx hz
        obtain ⟨i, hi⟩ := Array.mem_iff_getElem?.1 hmem
        exact halike.fields i _ _ hi hi
    obtain ⟨x, -, hx, -⟩ := hR.paired o o hself
    exact ⟨x, hx⟩
  · intro hlive
    refine equiv_of_closed (P := h.Reach fun o => v = .ref o) (fun o ho => ?_) fun o ho => .root ho
    obtain ⟨x, hx⟩ := hlive o ho
    exact ⟨x, hx, hx, fun o' ho' => ho.field hx ho'⟩

/-- The comparison decides whether an isomorphism relates the values. So it is symmetric and
transitive, and a value is equivalent to itself exactly if it leads to objects only. -/
theorem equiv_exact :
    (∀ h v h' w, equiv h v h' w = true ↔ ∃ R, h.Iso h' R ∧ v.Match R w) ∧
    (∀ h v h' w, equiv h v h' w = equiv h' w h v) ∧
    (∀ h u h' v h'' w, equiv h u h' v = true → equiv h' v h'' w = true →
      equiv h u h'' w = true) ∧
    ∀ h v, equiv h v h v = true ↔ ∀ o, h.Reach (fun o => v = .ref o) o → h.Live o :=
  ⟨fun _ _ _ _ => equiv_iff, fun _ _ _ _ => Bool.eq_iff_iff.2 ⟨equiv_symm, equiv_symm⟩,
    fun _ _ _ _ _ _ => equiv_trans, fun _ _ => equiv_self_iff⟩

/-- The objects that are found at the same place: at two ends of one pair of values, or in one slot
of two objects found at the same place. -/
inductive Joined (h h' : Heap) (roots : List (Value × Value)) : ObjRef → ObjRef → Prop
  | root {a b : ObjRef} : (.ref a, .ref b) ∈ roots → Joined h h' roots a b
  | field {a b a' b' : ObjRef} {x y : Object} {i : Nat} : Joined h h' roots a b →
      h.get? a = some x → h'.get? b = some y → x.fields[i]? = some (.ref a') →
      y.fields[i]? = some (.ref b') → Joined h h' roots a' b'

section Joined

variable {roots : List (Value × Value)}

/-- An isomorphism that relates a pair of values relates all that is found from it at the same
place. -/
theorem Iso.of_joined (hR : h.Iso h' R) (hroots : ∀ e ∈ roots, e.1.Match R e.2)
    (hj : h.Joined h' roots a b) : R a b := by
  induction hj with
  | root hmem => exact hroots _ hmem
  | field _ hx hy hi hj ih =>
    obtain ⟨x', y', hx', hy', halike⟩ := hR.paired _ _ ih
    obtain rfl := Option.mem_unique hx hx'
    obtain rfl := Option.mem_unique hy hy'
    exact halike.fields _ _ _ hi hj

theorem Joined.exists_root (hj : h.Joined h' roots a b) : ∃ e ∈ roots, h.Joined h' [e] a b := by
  induction hj with
  | root hmem => exact ⟨_, hmem, .root (.head _)⟩
  | field _ hx hy hi hj ih =>
    obtain ⟨e, he, hj'⟩ := ih
    exact ⟨e, he, hj'.field hx hy hi hj⟩

theorem paired_joined (hroots : ∀ e ∈ roots, h.equiv e.1 h' e.2 = true)
    (hj : h.Joined h' roots a b) : h.Paired h' (h.Joined h' roots) a b := by
  obtain ⟨e, he, hj'⟩ := hj.exists_root
  obtain ⟨R, hR, hmatch⟩ := equiv_iff.1 (hroots e he)
  obtain ⟨x, y, hx, hy, halike⟩ := hR.paired a b (hR.of_joined (by simpa using hmatch) hj')
  refine ⟨x, y, hx, hy, halike.shape, halike.locks, halike.size, fun i v w hv hw => ?_⟩
  refine (halike.fields i v w hv hw).mono ?_
  rintro a' b' rfl rfl -
  exact hj.field hx hy hv hw

/-- One isomorphism relates all pairs of values exactly if each pair is equivalent and what is
shared is shared alike. -/
theorem exists_iso_iff : (∃ R, h.Iso h' R ∧ ∀ e ∈ roots, e.1.Match R e.2) ↔
    (∀ e ∈ roots, h.equiv e.1 h' e.2 = true) ∧ OneToOne (h.Joined h' roots) := by
  constructor
  · rintro ⟨R, hR, hroots⟩
    exact ⟨fun e he => equiv_iff.2 ⟨R, hR, hroots e he⟩,
      hR.oneToOne.mono fun a b => hR.of_joined hroots⟩
  · rintro ⟨hequiv, hone⟩
    refine ⟨h.Joined h' roots, ⟨hone, fun a b => paired_joined hequiv⟩, fun e he => ?_⟩
    obtain ⟨R, hR, hmatch⟩ := equiv_iff.1 (hequiv e he)
    refine hmatch.mono fun a b ha hb _ => .root ?_
    rw [← ha, ← hb]
    exact he

end Joined

theorem equivAll_iff {vs ws} : h.equivAll vs h' ws = true ↔
    vs.length = ws.length ∧ ∀ e ∈ vs.zip ws, h.equiv e.1 h' e.2 = true := by
  simp [equivAll]

end Heap

namespace DeoptState

/-- The pairs of values that two states have in the same place. -/
def pairs (s s' : DeoptState) : List (Value × Value) :=
  s.locals.zip s'.locals ++ s.monitors.zip s'.monitors

/-- Two states of one safepoint whose values match in pairs. -/
structure Match (R : ObjRef → ObjRef → Prop) (s s' : DeoptState) : Prop where
  safepoint : s.safepoint = s'.safepoint
  locals : List.Forall₂ (Value.Match R) s.locals s'.locals
  monitors : List.Forall₂ (Value.Match R) s.monitors s'.monitors

theorem match_iff {s s'} : Match R s s' ↔ (s.safepoint = s'.safepoint ∧
    s.locals.length = s'.locals.length ∧ s.monitors.length = s'.monitors.length) ∧
      ∀ e ∈ s.pairs s', e.1.Match R e.2 := by
  simp only [pairs, forall_mem_append, Prod.forall]
  constructor
  · rintro ⟨hs, hl, hm⟩
    rw [forall₂_iff_zip] at hl hm
    exact ⟨⟨hs, hl.1, hm.1⟩, fun v w => hl.2, fun v w => hm.2⟩
  · rintro ⟨⟨hs, hl, hm⟩, hl', hm'⟩
    exact ⟨hs, forall₂_iff_zip.2 ⟨hl, fun h => hl' _ _ h⟩,
      forall₂_iff_zip.2 ⟨hm, fun h => hm' _ _ h⟩⟩

end DeoptState

theorem Exit.equiv_deopt_iff {s s'} :
    Exit.equiv h (.deopt s) h' (.deopt s') = true ↔ (s.safepoint = s'.safepoint ∧
      s.locals.length = s'.locals.length ∧ s.monitors.length = s'.monitors.length) ∧
        ∀ e ∈ s.pairs s', h.equiv e.1 h' e.2 = true := by
  simp only [Exit.equiv, Bool.and_eq_true, beq_iff_eq, Heap.equivAll_iff, DeoptState.pairs,
    forall_mem_append]
  tauto

/-- States of one safepoint are compared value by value. So they may pass although no isomorphism
relates them, and one does exactly if, besides, what their values share they share alike. -/
theorem Exit.equiv_deopt_exact (h h' : Heap) (s s' : DeoptState) :
    (Exit.equiv h (.deopt s) h' (.deopt s') = true ↔ s.safepoint = s'.safepoint ∧
      List.Forall₂ (fun v w => ∃ R, h.Iso h' R ∧ v.Match R w) s.locals s'.locals ∧
      List.Forall₂ (fun v w => ∃ R, h.Iso h' R ∧ v.Match R w) s.monitors s'.monitors) ∧
    ((∃ R, h.Iso h' R ∧ s.Match R s') ↔
      Exit.equiv h (.deopt s) h' (.deopt s') = true ∧
        OneToOne (h.Joined h' (s.pairs s'))) := by
  constructor
  · simp only [Exit.equiv, Bool.and_eq_true, beq_iff_eq, Heap.equivAll_iff, forall₂_iff_zip,
      Heap.equiv_iff, Prod.forall, and_assoc]
  · simp only [DeoptState.match_iff, Exit.equiv_deopt_iff, and_assoc, ← Heap.exists_iso_iff]
    constructor
    · rintro ⟨R, hR, hs, hl, hm, hpairs⟩
      exact ⟨hs, hl, hm, R, hR, hpairs⟩
    · rintro ⟨hs, hl, hm, R, hR, hpairs⟩
      exact ⟨R, hR, hs, hl, hm, hpairs⟩

/-- One object in two places passes for two objects that look alike. -/
theorem Exit.equiv_deopt_shared_copied : ∃ (h h' : Heap) (s s' : DeoptState),
    Exit.equiv h (.deopt s) h' (.deopt s') = true ∧ ¬∃ R, h.Iso h' R ∧ s.Match R s' := by
  let one := Heap.alloc {} {} (.array .int 0)
  let two := one.2.alloc {} (.array .int 0)
  refine ⟨one.2, two.2, ⟨⟨0, 0⟩, [.ref one.1, .ref one.1], []⟩,
    ⟨⟨0, 0⟩, [.ref one.1, .ref two.1], []⟩, ?_, ?_⟩
  · decide +kernel
  · rintro ⟨R, hR, hs⟩
    obtain ⟨hfirst, hsecond⟩ : R one.1 one.1 ∧ R one.1 two.1 := by
      simpa [Value.Match] using hs.locals
    exact absurd ((hR.oneToOne _ _ _ _ hfirst hsecond).1 rfl) (by decide)

end EscapeAnalysis
