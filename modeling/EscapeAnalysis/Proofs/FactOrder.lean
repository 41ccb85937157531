import EscapeAnalysis.Proofs.Propagation

/-!
# The order of facts

Facts in the form of a graph (`Graph.Fits`) are known by the single entries they have
(`Graph.Fits.eq_of_le`). Whatever a constraint adds to facts below closed facts `S` stays below `S`,
and a constraint that reports growth has added an entry (`Graph.Advance`).
-/

namespace EscapeAnalysis

open List SideTable NodeSet

namespace Key

variable {f : Family} {a b c : Key f}

theorem le_trans (h : a.le b = true) (h' : b.le c = true) : a.le c = true := by
  simp only [le, Bool.or_eq_true, Bool.and_eq_true, decide_eq_true_eq, beq_iff_eq] at *
  omega

theorem le_antisymm (h : a.le b = true) (h' : b.le a = true) : a = b := by
  simp only [le, Bool.or_eq_true, Bool.and_eq_true, decide_eq_true_eq, beq_iff_eq] at *
  cases a
  cases b
  simp only [Key.mk.injEq] at *
  omega

theorem le_total (a b : Key f) : a.le b = true ∨ b.le a = true := by
  simp only [le, Bool.or_eq_true, Bool.and_eq_true, decide_eq_true_eq, beq_iff_eq]
  omega

end Key

namespace Cell

variable {a b c : Cell}

theorem le_trans (h : a.le b = true) (h' : b.le c = true) : a.le c = true := by
  cases a <;> cases b <;> cases c <;> simp_all only [le, decide_eq_true_eq, Bool.false_eq_true]
  · exact Key.le_trans h h'
  · omega

theorem le_antisymm (h : a.le b = true) (h' : b.le a = true) : a = b := by
  cases a <;> cases b <;> simp_all only [le, decide_eq_true_eq, Bool.false_eq_true]
  · rw [Key.le_antisymm h h']
  · rw [Nat.le_antisymm h h']

theorem le_total (a b : Cell) : a.le b = true ∨ b.le a = true := by
  cases a <;> cases b <;> simp only [le, decide_eq_true_eq, Bool.false_eq_true, or_true, true_or]
  · exact Key.le_total _ _
  · exact Nat.le_total _ _

end Cell

namespace Cells

variable {cells cells' : Cells} {c d : Cell} {s : NodeSet} {n : Node} {e : Cell × NodeSet}

/-- The cells rise, and each may hold something. -/
structure Rising (cells : Cells) : Prop where
  pairwise : cells.Pairwise fun a b => b.1.le a.1 = false
  nonempty : ∀ e ∈ cells, e.2 ≠ ∅

theorem Rising.nil : Rising [] := ⟨.nil, by simp⟩

theorem Rising.tail (h : Rising (e :: cells)) : Rising cells :=
  ⟨(pairwise_cons.1 h.pairwise).2, fun e' he => h.nonempty e' (.tail _ he)⟩

theorem get_eq_empty (h : ∀ e ∈ cells, e.1 ≠ c) : get cells c = ∅ := by
  refine NodeSet.ext fun n => ⟨fun hn => ?_, fun hn => absurd hn (not_mem_empty n)⟩
  obtain ⟨s, hs, -⟩ := exists_mem_of_mem_get hn
  exact absurd rfl (h _ hs)

theorem Rising.get_eq (h : Rising cells) (hs : (c, s) ∈ cells) : cells.get c = s := by
  induction cells with
  | nil => simp at hs
  | cons e cells ih =>
    rw [get_cons]
    rcases mem_cons.1 hs with rfl | hs
    · exact if_pos rfl
    · have hle := (pairwise_cons.1 h.pairwise).1 _ hs
      have hne : c ≠ e.1 := by
        rintro rfl
        rw [Bool.eq_false_iff] at hle
        exact hle ((Cell.le_total e.1 e.1).elim id id)
      rw [if_neg hne, ih h.tail hs]

theorem Rising.mem_iff (h : Rising cells) : (c, s) ∈ cells ↔ cells.get c = s ∧ s ≠ ∅ := by
  refine ⟨fun hs => ⟨h.get_eq hs, h.nonempty _ hs⟩, fun ⟨hget, hne⟩ => ?_⟩
  rw [get] at hget
  rcases hl : cells.lookup c with _ | t
  · rw [hl] at hget
    exact absurd hget.symm hne
  · rw [hl] at hget
    cases hget
    obtain ⟨l1, l2, e, -⟩ := lookup_eq_some_iff.1 hl
    simp [e]

theorem Rising.ext (h : Rising cells) (h' : Rising cells')
    (hget : ∀ c, cells.get c = cells'.get c) : cells = cells' := by
  have hnodup : ∀ {cells : Cells}, Rising cells → cells.Nodup := fun h =>
    h.pairwise.imp fun {a b} hlt hab => by
      rw [hab] at hlt
      exact absurd hlt (by simpa using (Cell.le_total b.1 b.1).elim id id)
  refine List.Perm.eq_of_pairwise (fun a b _ _ hab hba => ?_) h.pairwise h'.pairwise
    ((perm_ext_iff_of_nodup (hnodup h) (hnodup h')).2 fun ⟨c, s⟩ => ?_)
  · rcases Cell.le_total a.1 b.1 with hle | hle
    · rw [hle] at hba
      cases hba
    · rw [hle] at hab
      cases hab
  · rw [h.mem_iff, h'.mem_iff, hget]

theorem mem_add : ∀ {cells : Cells}, e ∈ add c s cells →
    e ∈ cells ∨ e.1 = c ∧ ∀ n ∈ s, n ∈ e.2
  | [], h => by
    simp only [add, List.mem_singleton] at h
    subst h
    exact .inr ⟨rfl, fun _ hn => hn⟩
  | (d, t) :: rest, h => by
    rw [add] at h
    split at h
    · rename_i hd
      rcases mem_cons.1 h with rfl | h
      · exact .inr ⟨hd, fun n hn => mem_union.2 (.inr hn)⟩
      · exact .inl (.tail _ h)
    · split at h
      · rcases mem_cons.1 h with rfl | h
        · exact .inr ⟨rfl, fun _ hn => hn⟩
        · exact .inl h
      · rcases mem_cons.1 h with rfl | h
        · exact .inl (.head _)
        · exact (mem_add h).imp_left (.tail _)

theorem Rising.add (hs : n ∈ s) : ∀ {cells : Cells}, Rising cells → Rising (add c s cells)
  | [], _ => ⟨pairwise_singleton _ _, by
      intro e he
      simp only [Cells.add, List.mem_singleton] at he
      subst he
      exact fun h => not_mem_empty n (h ▸ hs)⟩
  | (d, t) :: rest, h => by
    have hpw := pairwise_cons.1 h.pairwise
    refine ⟨?_, fun e he hempty => ?_⟩
    · rw [Cells.add]
      split
      · exact pairwise_cons.2 hpw
      · rename_i hdc
        split
        · -- The new cell goes in front: it is less than `d`, and `d` less than the rest.
          rename_i hcd
          refine pairwise_cons.2 ⟨fun e he => Bool.eq_false_iff.2 fun hle => ?_, h.pairwise⟩
          rcases mem_cons.1 he with rfl | he
          · exact hdc (Cell.le_antisymm hle hcd)
          · exact absurd (Cell.le_trans hle hcd) (Bool.eq_false_iff.1 (hpw.1 e he))
        · rename_i hcd
          refine pairwise_cons.2 ⟨fun e he => ?_, (Rising.add hs h.tail).pairwise⟩
          rcases mem_add he with he | ⟨rfl, -⟩
          · exact hpw.1 e he
          · exact Bool.eq_false_iff.2 hcd
    · rcases mem_add he with he | ⟨-, he⟩
      · exact h.nonempty e he hempty
      · exact not_mem_empty n (hempty ▸ he n hs)

theorem Rising.get_add (d : Cell) : ∀ {cells : Cells}, Rising cells →
    (Cells.add c s cells).get d = if d = c then cells.get c ∪ s else cells.get d
  | [], _ => by
    have hempty : ∀ c, get [] c = ∅ := fun c => get_eq_empty (by simp)
    rw [Cells.add, get_cons, hempty, hempty]
    split
    · exact NodeSet.ext fun n => by simp
    · rfl
  | (e, t) :: rest, h => by
    rw [Cells.add]
    split
    · rename_i hec
      subst hec
      simp only [get_cons, if_true]
      split <;> rfl
    · rename_i hec
      split
      · rename_i hce
        have hc : get ((e, t) :: rest) c = ∅ := by
          refine get_eq_empty fun x hx hxc => ?_
          rcases mem_cons.1 hx with rfl | hx
          · exact hec hxc
          · have := (pairwise_cons.1 h.pairwise).1 x hx
            rw [hxc, hce] at this
            cases this
        rw [get_cons, hc]
        split
        · exact NodeSet.ext fun n => by simp
        · rfl
      · rw [get_cons, Rising.get_add d h.tail, get_cons, get_cons]
        by_cases hde : d = e
        · subst hde
          simp [hec]
        · rw [if_neg hde, if_neg hde, if_neg (Ne.symm hec)]

end Cells

namespace Access

variable {access : Access} {shape : AllocShape} {limit : Nat} {cells cells' : Cells} {n : Node}

theorem exists_mem_of_mem_read (h : n ∈ access.read shape limit cells) : ∃ e ∈ cells, n ∈ e.2 := by
  have hall : n ∈ Cells.all (cells.filter fun e => e.1.isElem) → ∃ e ∈ cells, n ∈ e.2 := by
    rw [Cells.mem_all]
    exact fun ⟨e, he, hn⟩ => ⟨e, (mem_filter.1 he).1, hn⟩
  rcases access with f | (_ | i) | _
  · obtain ⟨s, hs, hn⟩ := Cells.exists_mem_of_mem_get h
    exact ⟨_, hs, hn⟩
  · exact hall h
  · rw [read, mem_foldl_union] at h
    obtain ⟨c, -, hn⟩ := h.resolve_left (not_mem_empty n)
    obtain ⟨s, hs, hn⟩ := Cells.exists_mem_of_mem_get hn
    exact ⟨_, hs, hn⟩
  · exact hall h

theorem read_mono (hr : cells.Rising) (hle : ∀ c, ∀ m ∈ cells.get c, m ∈ cells'.get c)
    (h : n ∈ access.read shape limit cells) : n ∈ access.read shape limit cells' := by
  have hall : n ∈ Cells.all (cells.filter fun e => e.1.isElem) →
      n ∈ Cells.all (cells'.filter fun e => e.1.isElem) := by
    rw [Cells.mem_all, Cells.mem_all]
    rintro ⟨⟨c, s⟩, he, hn⟩
    obtain ⟨he, hc⟩ := mem_filter.1 he
    obtain ⟨s', hs', hn'⟩ := Cells.exists_mem_of_mem_get (hle c n (hr.get_eq he ▸ hn))
    exact ⟨(c, s'), mem_filter.2 ⟨hs', hc⟩, hn'⟩
  rcases access with f | (_ | i) | _
  · exact hle _ n h
  · exact hall h
  · rw [read, mem_foldl_union] at h ⊢
    exact h.imp_right fun ⟨c, hc, hn⟩ => ⟨c, hc, hle c n hn⟩
  · exact hall h

end Access

/-- The node is one of a graph with `size` allocations. -/
def Node.Known (size : Nat) : Node → Prop
  | .alloc k => k < size
  | _ => True

namespace Facts

inductive Entry where
  | target (x : InstId) (n : Node)
  | content (k : Nat) (c : Cell) (n : Node)
  | escape (k : Nat) (e : Escape)

def Has (f : Facts) : Entry → Prop
  | .target x n => n ∈ f.ptsOf x
  | .content k c n => n ∈ (f.cellsOf k).get c
  | .escape k e => Escape.none < e ∧ ¬ f.escapeOf k < e

instance (f : Facts) : (e : Entry) → Decidable (f.Has e)
  | .target x n => inferInstanceAs (Decidable (n ∈ f.ptsOf x))
  | .content k c n => inferInstanceAs (Decidable (n ∈ (f.cellsOf k).get c))
  | .escape k e => inferInstanceAs (Decidable (Escape.none < e ∧ ¬ f.escapeOf k < e))

/-- Facts about at least the same references and allocations that have at least the same entries. -/
structure Le (f f' : Facts) : Prop where
  contains : ∀ x, f.pts.contains x = true → f'.pts.contains x = true
  size : f.escapes.size ≤ f'.escapes.size
  has : ∀ e, f.Has e → f'.Has e

instance : LE Facts := ⟨Le⟩

variable {f f' f'' S : Facts} {x : InstId} {n : Node} {k : Nat}

theorem le_refl (f : Facts) : f ≤ f := ⟨fun _ h => h, Nat.le_refl _, fun _ h => h⟩

theorem le_trans (h : f ≤ f') (h' : f' ≤ f'') : f ≤ f'' :=
  ⟨fun x hx => h'.contains x (h.contains x hx), Nat.le_trans h.size h'.size,
    fun e he => h'.has e (h.has e he)⟩

theorem mem_ptsOf : n ∈ f.ptsOf x ↔ ∃ t, f.pts.get? x = some t ∧ n ∈ t := by
  rw [ptsOf]
  rcases f.pts.get? x with _ | t <;> simp

theorem Le.pts (h : f ≤ S) (hn : n ∈ f.ptsOf x) : n ∈ S.ptsOf x := h.has (.target x n) hn

theorem Le.cells {c} (h : f ≤ S) (hn : n ∈ (f.cellsOf k).get c) : n ∈ (S.cellsOf k).get c :=
  h.has (.content k c n) hn

theorem Le.escapes (h : f ≤ S) (k : Nat) : ¬ S.escapeOf k < f.escapeOf k := by
  by_cases hk : Escape.none < f.escapeOf k
  · exact (h.has (.escape k (f.escapeOf k)) ⟨hk, Nat.lt_irrefl _⟩).2
  · intro hlt
    exact hk (Nat.lt_of_le_of_lt (Nat.zero_le _) hlt)

theorem Le.escaping (h : f ≤ S) (hk : Escape.none < f.escapeOf k) : Escape.none < S.escapeOf k :=
  Escape.none_lt_of_not_lt (h.escapes k) hk

theorem escapeOf_eq_none (h : f.escapes.size ≤ k) : f.escapeOf k = .none := by
  rw [escapeOf, Array.getD_eq_getD_getElem?, Array.getElem?_eq_none h]
  rfl

theorem escapeOf_setIfInBounds (hk : k < f.escapes.size) (escape : Escape) (j : Nat) :
    ({ f with escapes := f.escapes.setIfInBounds k escape } : Facts).escapeOf j =
      if j = k then escape else f.escapeOf j := by
  simp only [escapeOf, Array.getD_eq_getD_getElem?, Array.getElem?_setIfInBounds]
  by_cases hj : j = k
  · subst hj
    simp [hk]
  · rw [if_neg (Ne.symm hj), if_neg hj]

theorem cellsOf_eq_nil (h : f.cells.size ≤ k) : f.cellsOf k = [] := by
  rw [cellsOf, Array.getD_eq_getD_getElem?, Array.getElem?_eq_none h]
  rfl

end Facts

namespace Graph

/-- Facts in the form of a graph: about its references and allocations, with its nodes only. -/
structure Fits (g : Graph) (f : Facts) : Prop where
  versions : f.pts.versions = g.facts.pts.versions
  null : f.pts.contains .null = false
  escapes : f.escapes.size = g.allocs.size
  cells : f.cells.size = g.allocs.size
  rising : ∀ k, (f.cellsOf k).Rising
  targets : ∀ x, ∀ n ∈ f.ptsOf x, n.Known g.allocs.size
  contents : ∀ k c, ∀ n ∈ (f.cellsOf k).get c, n.Known g.allocs.size

variable {g : Graph} {S f f' : Facts}
variable {n : Node} {s : NodeSet} {access : Access}

theorem Fits.congr {g' : Graph} (h : g.Fits f) (ha : g'.allocs = g.allocs)
    (hv : g'.facts.pts.versions = g.facts.pts.versions) : g'.Fits f := by
  refine ⟨h.versions.trans hv.symm, h.null, ?_, ?_, h.rising, ?_, ?_⟩ <;> rw [ha]
  · exact h.escapes
  · exact h.cells
  · exact h.targets
  · exact h.contents

theorem Fits.eq_of_le (h : g.Fits f) (h' : g.Fits f') (hle : f ≤ f') (hge : f' ≤ f) : f = f' := by
  have hpts : f.pts = f'.pts := by
    refine ext_of_versions (h.versions.trans h'.versions.symm) fun x => ?_
    have hcontains := contains_congr (h.versions.trans h'.versions.symm) x
    have hset : f.ptsOf x = f'.ptsOf x := NodeSet.ext fun n => ⟨hle.pts, hge.pts⟩
    simp only [Facts.ptsOf] at hset
    simp only [SideTable.contains] at hcontains
    rcases hx : f.pts.get? x with _ | t <;> rcases hx' : f'.pts.get? x with _ | t' <;>
      simp_all
  have hesc : f.escapes = f'.escapes := by
    refine Array.ext (h.escapes.trans h'.escapes.symm) fun k hk hk' => ?_
    have h1 := Nat.not_lt.1 (hle.escapes k)
    have h2 := Nat.not_lt.1 (hge.escapes k)
    have heq : f.escapeOf k = f'.escapeOf k := by
      revert h1 h2
      cases f.escapeOf k <;> cases f'.escapeOf k <;> simp [Escape.rank]
    simpa [Facts.escapeOf, hk, hk'] using heq
  have hcells : f.cells = f'.cells := by
    refine Array.ext (h.cells.trans h'.cells.symm) fun k hk hk' => ?_
    have heq := (h.rising k).ext (h'.rising k) fun c =>
      NodeSet.ext fun n => ⟨hle.cells, hge.cells⟩
    simpa [Facts.cellsOf, hk, hk'] using heq
  cases f
  cases f'
  simp_all

/-- Facts in the form of the graph that lie below `S`. -/
structure Below (g : Graph) (S f : Facts) : Prop where
  fits : g.Fits f
  le : f ≤ S

/-- What a step makes of facts `f` below `S`: more facts below `S`, with a new entry if it reports
growth. -/
structure Advance (g : Graph) (S f : Facts) (r : Growth) : Prop where
  below : g.Below S r.1
  above : f ≤ r.1
  new : r.2 = true → ∃ e, r.1.Has e ∧ ¬ f.Has e

namespace Advance

variable {r : Growth}

theorem refl (h : g.Below S f) : g.Advance S f (f, false) :=
  ⟨h, Facts.le_refl f, fun h => Bool.noConfusion h⟩

theorem trans {r'} (h : g.Advance S f r) (h' : g.Advance S r.1 r') :
    g.Advance S f (r'.1, r.2 || r'.2) := by
  refine ⟨h'.below, Facts.le_trans h.above h'.above, fun hgrew => ?_⟩
  rcases Bool.or_eq_true_iff.1 hgrew with hr | hr
  · obtain ⟨e, he, hne⟩ := h.new hr
    exact ⟨e, h'.above.has e he, hne⟩
  · obtain ⟨e, he, hne⟩ := h'.new hr
    exact ⟨e, he, fun hf => hne (h.above.has e hf)⟩

theorem growEach {β : Type} {step} {l : List β}
    (hstep : ∀ b ∈ l, ∀ f, g.Below S f → g.Advance S f (step f b)) (h : g.Below S f) :
    g.Advance S f (growEach step l f) :=
  foldlRecOn l _ (refl h) fun acc hacc b hb => hacc.trans (hstep b hb acc.1 hacc.below)

theorem eq_false (h : g.Advance f f r) : r.2 = false := by
  refine Bool.eq_false_iff.2 fun hr => ?_
  obtain ⟨e, he, hne⟩ := h.new hr
  exact hne (h.below.le.has e he)

end Advance

theorem Fits.known_of_mem_readNode (h : g.Fits f) {b} (hn : n ∈ g.readNode access f b) :
    n.Known g.allocs.size := by
  rcases b with _ | _ | k
  · rw [readNode, NodeSet.mem_singleton] at hn
    subst hn
    trivial
  · exact absurd hn (not_mem_empty n)
  · have hread : n ∈ access.read (g.shapeOf k) g.elemLimit (f.cellsOf k) →
        n.Known g.allocs.size := by
      intro hn
      obtain ⟨⟨c, s⟩, hs, hn⟩ := Access.exists_mem_of_mem_read hn
      exact h.contents k c n ((h.rising k).get_eq hs ▸ hn)
    simp only [readNode] at hn
    split at hn
    · rcases mem_insert.1 hn with hn | rfl
      · exact hread hn
      · trivial
    · exact hread hn

theorem Stored.subset {s'} (h : g.Stored S access s' n) (hs : ∀ m ∈ s, m ∈ s') :
    g.Stored S access s n := by
  rcases n with _ | _ | k
  · exact fun j hj => h j (hs _ hj)
  · trivial
  · exact fun c hc m hm => h c hc m (hs m hm)

section

variable (h : g.Below S f)
include h

theorem raise_advance {escape}
    (hS : ∀ k, n = .alloc k → k < S.escapes.size → ¬ S.escapeOf k < escape) :
    g.Advance S f (raise escape f n) := by
  rcases raise_cases escape f n with ⟨hr, -⟩ | ⟨k, rfl, hlt, hk, hr⟩ <;> rw [hr]
  · exact .refl h
  · have hget := Facts.escapeOf_setIfInBounds hk escape
    have hup : ∀ j e, ¬ f.escapeOf j < e →
        ¬ ({ f with escapes := f.escapes.setIfInBounds k escape } : Facts).escapeOf j < e := by
      intro j e hj
      rw [hget]
      split
      · subst j
        exact fun h => hj (Nat.lt_trans hlt h)
      · exact hj
    have hno : Escape.none < escape := Nat.lt_of_le_of_lt (Nat.zero_le _) hlt
    refine ⟨⟨⟨h.fits.versions, h.fits.null, by simpa using h.fits.escapes, h.fits.cells,
      h.fits.rising, h.fits.targets, h.fits.contents⟩, ⟨h.le.contains, by simpa using h.le.size,
      fun e he => ?_⟩⟩, ⟨fun _ hx => hx, by simp, fun e he => ?_⟩,
      fun _ => ⟨.escape k escape, ⟨hno, ?_⟩, fun hf => hf.2 hlt⟩⟩
    · rcases e with ⟨x, m⟩ | ⟨j, c, m⟩ | ⟨j, e⟩
      · exact h.le.has (.target x m) he
      · exact h.le.has (.content j c m) he
      · obtain ⟨hne, hlt'⟩ := he
        rw [hget] at hlt'
        refine ⟨hne, ?_⟩
        split at hlt'
        · subst j
          have := hS k rfl (Nat.lt_of_lt_of_le hk h.le.size)
          rw [Escape.not_lt_iff] at *
          omega
        · exact (h.le.has (.escape j e) ⟨hne, hlt'⟩).2
    · rcases e with _ | _ | ⟨j, e⟩
      · exact he
      · exact he
      · exact ⟨he.1, hup j e he.2⟩
    · rw [hget, if_pos rfl]
      exact Nat.lt_irrefl _

theorem addTo_advance {x} (hs : ∀ n ∈ s, n.Known g.allocs.size)
    (hS : ∀ t, S.pts.get? x = some t → ∀ n ∈ s, n ∈ t) : g.Advance S f (addTo f x s) := by
  rcases addTo_cases f x s with ⟨hr, -⟩ | ⟨t, hx, ⟨n, hn, hnt⟩, hr⟩ <;> rw [hr]
  · exact .refl h
  · have hc : f.pts.contains x = true := contains_iff.2 ⟨t, hx⟩
    have hnull : x ≠ .null := by
      rintro rfl
      rw [h.fits.null] at hc
      cases hc
    have hget := get?_insert_of_contains hnull hc (t ∪ s)
    have hv := versions_insert_of_contains hc (t ∪ s)
    have hmem : ∀ y n, n ∈ ({ f with pts := f.pts.insert x (t ∪ s) } : Facts).ptsOf y ↔
        n ∈ f.ptsOf y ∨ y = x ∧ n ∈ s := by
      intro y n
      simp only [Facts.ptsOf, hget]
      by_cases hy : y = x
      · subst hy
        simp [hx]
      · simp [hy]
    refine ⟨⟨⟨hv.trans h.fits.versions, ?_, h.fits.escapes, h.fits.cells, h.fits.rising,
      fun y m hm => ?_, h.fits.contents⟩, ⟨fun y hy => ?_, h.le.size, fun e he => ?_⟩⟩,
      ⟨fun y hy => ?_, Nat.le_refl _, fun e he => ?_⟩,
      fun _ => ⟨.target x n, (hmem x n).2 (.inr ⟨rfl, hn⟩), fun hf => ?_⟩⟩
    · exact (contains_congr hv _).trans h.fits.null
    · rcases (hmem y m).1 hm with hm | ⟨-, hm⟩
      · exact h.fits.targets y m hm
      · exact hs m hm
    · exact h.le.contains y ((contains_congr hv y).symm.trans hy)
    · rcases e with ⟨y, m⟩ | ⟨j, c, m⟩ | ⟨j, e⟩
      · rcases (hmem y m).1 he with hm | ⟨rfl, hm⟩
        · exact h.le.pts hm
        · obtain ⟨t', ht'⟩ := contains_iff.1 (h.le.contains y hc)
          exact Facts.mem_ptsOf.2 ⟨t', ht', hS t' ht' m hm⟩
      · exact h.le.has (.content j c m) he
      · exact h.le.has (.escape j e) he
    · exact (contains_congr hv y).trans hy
    · rcases e with ⟨y, m⟩ | _ | _
      · exact (hmem y m).2 (.inl he)
      · exact he
      · exact he
    · obtain ⟨t', ht', hm⟩ := Facts.mem_ptsOf.1 hf
      rw [hx] at ht'
      cases ht'
      exact hnt hm

theorem addToCell_advance {k c} (hk : k < g.allocs.size)
    (hs : ∀ n ∈ s, n.Known g.allocs.size) (hS : ∀ n ∈ s, n ∈ (S.cellsOf k).get c) :
    g.Advance S f (addToCell k s f c) := by
  rcases addToCell_cases k s f c with ⟨hr, -⟩ | ⟨⟨n, hn, hnc⟩, hr⟩ <;> rw [hr]
  · exact .refl h
  · have hcells : ∀ j, ({ f with cells := f.cells.modify k (Cells.add c s) } : Facts).cellsOf j =
        if j = k then Cells.add c s (f.cellsOf k) else f.cellsOf j := by
      intro j
      simp only [Facts.cellsOf, Array.getD_eq_getD_getElem?, Array.getElem?_modify]
      by_cases hj : j = k
      · subst hj
        simp [h.fits.cells, hk]
      · rw [if_neg (Ne.symm hj), if_neg hj]
    have hmem : ∀ j d m, m ∈ (({ f with cells := f.cells.modify k (Cells.add c s) } :
        Facts).cellsOf j).get d ↔ m ∈ (f.cellsOf j).get d ∨ (j = k ∧ d = c) ∧ m ∈ s := by
      intro j d m
      rw [hcells]
      by_cases hj : j = k
      · subst hj
        rw [if_pos rfl, (h.fits.rising j).get_add]
        by_cases hd : d = c
        · subst hd
          simp
        · simp [hd]
      · simp [hj]
    refine ⟨⟨⟨h.fits.versions, h.fits.null, h.fits.escapes, by simpa using h.fits.cells,
      fun j => ?_, h.fits.targets, fun j d m hm => ?_⟩, ⟨h.le.contains, h.le.size,
      fun e he => ?_⟩⟩, ⟨fun _ hx => hx, Nat.le_refl _, fun e he => ?_⟩,
      fun _ => ⟨.content k c n, (hmem k c n).2 (.inr ⟨⟨rfl, rfl⟩, hn⟩), hnc⟩⟩
    · rw [hcells]
      split
      · exact (h.fits.rising k).add hn
      · exact h.fits.rising j
    · rcases (hmem j d m).1 hm with hm | ⟨-, hm⟩
      · exact h.fits.contents j d m hm
      · exact hs m hm
    · rcases e with ⟨x, m⟩ | ⟨j, d, m⟩ | ⟨j, e⟩
      · exact h.le.has (.target x m) he
      · rcases (hmem j d m).1 he with hm | ⟨⟨rfl, rfl⟩, hm⟩
        · exact h.le.cells hm
        · exact hS m hm
      · exact h.le.has (.escape j e) he
    · rcases e with _ | ⟨j, d, m⟩ | _
      · exact he
      · exact (hmem j d m).2 (.inl he)
      · exact he

theorem readNode_mono {b} (hn : n ∈ g.readNode access f b) :
    n ∈ g.readNode access S b := by
  rcases b with _ | _ | k
  · exact hn
  · exact hn
  · have hread : n ∈ access.read (g.shapeOf k) g.elemLimit (f.cellsOf k) →
        n ∈ access.read (g.shapeOf k) g.elemLimit (S.cellsOf k) :=
      Access.read_mono (h.fits.rising k) fun c m hm => h.le.cells hm
    simp only [readNode] at hn ⊢
    split at hn
    · rename_i hesc
      rw [if_pos (h.le.escaping hesc)]
      exact mem_insert.2 ((mem_insert.1 hn).imp_left hread)
    · split
      · exact mem_insert.2 (.inl (hread hn))
      · exact hread hn

theorem writeNode_advance (hn : n.Known g.allocs.size) (hs : ∀ m ∈ s, m.Known g.allocs.size)
    (hS : g.Stored S access s n) : g.Advance S f (g.writeNode access s f n) := by
  rcases n with _ | _ | k
  · refine Advance.growEach (fun b hb f hf => raise_advance hf fun j hj => ?_) h
    subst hj
    exact hS j (mem_toList.1 hb)
  · exact .refl h
  · rw [writeNode_alloc]
    split
    · exact .refl h
    · exact Advance.growEach (fun c hc f hf => addToCell_advance hf hn hs (hS c hc)) h

theorem copyNode_advance {range} {src dst : Node} (hdst : dst.Known g.allocs.size)
    (hS : g.Copied S range src dst) : g.Advance S f (g.copyNode range src f dst) := by
  -- What is read is known and can be read from `S` too, so `S` lets it be stored.
  have hwrite : ∀ {read write : Access} {f : Facts}, g.Below S f →
      g.Stored S write (g.readNode read S src) dst →
      g.Advance S f (g.writeNode write (g.readNode read f src) f dst) := fun hf hst =>
    writeNode_advance hf hdst (fun m hm => hf.fits.known_of_mem_readNode hm)
      (hst.subset fun m hm => readNode_mono hf hm)
  rw [copyNode_eq]
  unfold Copied at hS
  rcases range with _ | ⟨srcPos, dstPos, len⟩
  · exact hwrite h hS
  · rcases hd : g.copyTracked? dst with _ | len'
    · rw [hd] at hS
      exact hwrite h hS
    · rw [hd] at hS
      exact Advance.growEach (fun k hk f hf => hwrite hf (hS k (mem_range.1 hk))) h

/-- A constraint that `S` satisfies adds nothing beyond `S`. -/
theorem apply_advance {c : Constraint} (hS : g.Satisfied S c) :
    g.Advance S f (g.apply f c) := by
  rcases c with ⟨dst, src⟩ | ⟨dst, base, access⟩ | ⟨base, access, value⟩ | ⟨src, dst, range⟩ |
    ⟨value, escape⟩
  · exact addTo_advance h (h.fits.targets src) fun t ht n hn => hS t ht n (h.le.pts hn)
  · have hfound : ∀ n,
        n ∈ (f.ptsOf base).toList.foldl (fun s n => s ∪ g.readNode access f n) ∅ →
          ∃ b ∈ f.ptsOf base, n ∈ g.readNode access f b := by
      intro n hn
      rw [mem_foldl_union] at hn
      obtain ⟨b, hb, hn⟩ := hn.resolve_left (not_mem_empty n)
      exact ⟨b, mem_toList.1 hb, hn⟩
    refine addTo_advance h (fun n hn => ?_) fun t ht n hn => ?_
    · obtain ⟨b, -, hn⟩ := hfound n hn
      exact h.fits.known_of_mem_readNode hn
    · obtain ⟨b, hb, hn⟩ := hfound n hn
      exact hS t ht b (h.le.pts hb) n (readNode_mono h hn)
  · show g.Advance S f (growEach (g.writeNode access (f.ptsOf value)) (f.ptsOf base).toList f)
    refine Advance.growEach (fun b hb f' hf' => ?_) h
    have hb := mem_toList.1 hb
    exact writeNode_advance hf' (h.fits.targets base b hb) (h.fits.targets value)
      ((hS b (h.le.pts hb)).subset fun m hm => h.le.pts hm)
  · show g.Advance S f (growEach (g.copyFrom dst range) (f.ptsOf src).toList f)
    refine Advance.growEach (fun s hs f' hf' => Advance.growEach (fun d hd f'' hf'' => ?_) hf') h
    have hd := mem_toList.1 hd
    exact copyNode_advance hf'' (hf'.fits.targets dst d hd)
      (hS s (h.le.pts (mem_toList.1 hs)) d (hf'.le.pts hd))
  · refine Advance.growEach (fun b hb f' hf' => raise_advance hf' fun k hk => ?_) h
    subst hk
    exact hS k (h.le.pts (mem_toList.1 hb))

theorem pass_advance (hS : g.Closed S) : g.Advance S f (g.pass f) := by
  rw [pass_eq]
  exact Advance.growEach (fun c hc f hf => apply_advance hf (hS.satisfied c hc)) h

end

end Graph

end EscapeAnalysis
