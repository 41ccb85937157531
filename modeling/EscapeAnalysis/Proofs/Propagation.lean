import EscapeAnalysis.PointsTo.Propagate
import EscapeAnalysis.Proofs.Metering
import EscapeAnalysis.Proofs.Tables

/-!
# Propagated facts are closed

Everything that changes facts on the way to the fixpoint does so in three ways, so what these keep
holds of the result (`Facts.Kept`). A step that reports no growth leaves the facts as they are
(`Graph.Still`), so the facts that propagation stops at satisfy every constraint at once
(`Graph.Closed`).
-/

namespace EscapeAnalysis

open List NodeSet

namespace BitSet

theorem mem_toList {s : BitSet} {n} : n ∈ s.toList ↔ n ∈ s := by
  simp only [toList, mem_filter, mem_range, decide_eq_true_eq]
  refine ⟨fun h => h.2, fun h => ⟨?_, h⟩⟩
  have hle := Nat.ge_two_pow_of_testBit (mem_def.1 h)
  have hne : s.bits ≠ 0 := by
    intro h0
    rw [h0] at hle
    exact absurd hle (Nat.not_le.2 (Nat.two_pow_pos n))
  exact Nat.lt_succ_of_le ((Nat.le_log2 hne).2 hle)

end BitSet

namespace Node

@[simp] theorem rank_ofRank (r : Nat) : (ofRank r).rank = r := by
  rcases r with _ | _ | r <;> rfl

end Node

namespace NodeSet

variable {s t : NodeSet} {m n : Node}

theorem mem_def : n ∈ s ↔ n.rank ∈ s.ranks := Iff.rfl

@[simp] theorem not_mem_empty (n : Node) : ¬ n ∈ (∅ : NodeSet) :=
  BitSet.not_mem_empty n.rank

@[simp] theorem mem_union : n ∈ s ∪ t ↔ n ∈ s ∨ n ∈ t := BitSet.mem_union

@[simp] theorem mem_singleton : n ∈ singleton m ↔ n = m := by
  simp only [mem_def, singleton, BitSet.mem_singleton]
  exact ⟨Node.rank_injective, fun h => h ▸ rfl⟩

@[simp] theorem mem_insert : n ∈ s.insert m ↔ n ∈ s ∨ n = m := by
  simp [insert]

theorem mem_toList : n ∈ s.toList ↔ n ∈ s := by
  simp only [toList, mem_map, BitSet.mem_toList, mem_def]
  constructor
  · rintro ⟨r, hr, rfl⟩
    rwa [Node.rank_ofRank]
  · exact fun h => ⟨n.rank, h, Node.ofRank_rank n⟩

theorem mem_allocs {k} : k ∈ s.allocs ↔ .alloc k ∈ s := by
  simp only [allocs, mem_filterMap, mem_toList]
  constructor
  · rintro ⟨n, hn, he⟩
    cases n <;> cases he
    exact hn
  · exact fun h => ⟨_, h, rfl⟩

theorem ext (h : ∀ n, n ∈ s ↔ n ∈ t) : s = t := by
  cases s
  cases t
  refine congrArg NodeSet.mk (BitSet.ext fun r => ?_)
  have := h (.ofRank r)
  rwa [mem_def, mem_def, Node.rank_ofRank] at this

theorem union_eq_left_iff : s ∪ t = s ↔ ∀ n ∈ t, n ∈ s := by
  constructor
  · intro h n hn
    rw [← h]
    exact mem_union.2 (.inr hn)
  · intro h
    refine ext fun n => ?_
    rw [mem_union]
    exact ⟨fun hn => hn.elim id (h n), .inl⟩

theorem isEmpty_iff : s.isEmpty = true ↔ s = ∅ := by simp [isEmpty]

theorem mem_foldl_union {β : Type} (f : β → NodeSet) :
    ∀ (l : List β) (s : NodeSet), n ∈ l.foldl (fun s b => s ∪ f b) s ↔ n ∈ s ∨ ∃ b ∈ l, n ∈ f b
  | [], s => by simp
  | b :: l, s => by
    rw [foldl_cons, mem_foldl_union f l, mem_union]
    simp [or_assoc]

theorem mem_ofList {l} : n ∈ ofList l ↔ n ∈ l := by
  refine (mem_foldl_union singleton l ∅).trans ?_
  simp

theorem disjoint_eq_false : s.disjoint t = false ↔ ∃ n, n ∈ s ∧ n ∈ t := by
  constructor
  · intro h
    refine Classical.byContradiction fun hno => ?_
    have hempty : s.ranks ∩ t.ranks = ∅ := by
      refine BitSet.ext fun r => ⟨fun hr => ?_, fun hr => absurd hr (BitSet.not_mem_empty r)⟩
      rw [← Node.rank_ofRank r, BitSet.mem_inter] at hr
      exact absurd ⟨_, hr⟩ hno
    simp [disjoint, BitSet.disjoint, hempty] at h
  · rintro ⟨n, hs, ht⟩
    refine Bool.eq_false_iff.2 fun hd => ?_
    have hmem : n.rank ∈ s.ranks ∩ t.ranks := BitSet.mem_inter.2 ⟨hs, ht⟩
    rw [eq_of_beq hd] at hmem
    exact BitSet.not_mem_empty _ hmem

end NodeSet

namespace Cells

variable {cells : Cells} {c : Cell} {n : Node}

theorem get_cons (e : Cell × NodeSet) (cells : Cells) (c : Cell) :
    get (e :: cells) c = if c = e.1 then e.2 else get cells c := by
  obtain ⟨d, t⟩ := e
  rw [get, lookup_cons]
  by_cases h : c = d
  · simp [h]
  · rw [if_neg h, beq_false_of_ne h]
    rfl

theorem mem_all : n ∈ cells.all ↔ ∃ e ∈ cells, n ∈ e.2 := by
  have : cells.all = cells.foldl (fun s e => s ∪ e.2) ∅ := rfl
  rw [this, mem_foldl_union]
  simp

theorem exists_mem_of_mem_get (h : n ∈ cells.get c) : ∃ s, (c, s) ∈ cells ∧ n ∈ s := by
  rw [get] at h
  rcases hl : cells.lookup c with _ | s
  · rw [hl] at h
    exact absurd h (not_mem_empty n)
  · rw [hl] at h
    exact ⟨s, lookup_eq_some_iff.1 hl |>.elim fun l1 ⟨l2, e, _⟩ => by simp [e], h⟩

end Cells

namespace Escape

variable {a : Escape}

theorem not_lt_iff {b} : ¬ a < b ↔ b.rank ≤ a.rank := Nat.not_lt

theorem none_lt_iff : Escape.none < a ↔ a ≠ .none := by cases a <;> decide

theorem none_lt_of_not_lt {b} (h : ¬ a < b) (hb : Escape.none < b) : Escape.none < a :=
  Nat.lt_of_lt_of_le hb (not_lt_iff.1 h)

end Escape

namespace Graph

def growEach {β : Type} (step : Facts → β → Growth) (l : List β) (f : Facts) : Growth :=
  l.foldl (fun acc b => ((step acc.1 b).1, acc.2 || (step acc.1 b).2)) (f, false)

theorem raise_cases (escape : Escape) (f : Facts) (n : Node) :
    (raise escape f n = (f, false) ∧
      ∀ k, n = .alloc k → k < f.escapes.size → ¬ f.escapeOf k < escape) ∨
    ∃ k, n = .alloc k ∧ f.escapeOf k < escape ∧ k < f.escapes.size ∧
      raise escape f n = ({ f with escapes := f.escapes.setIfInBounds k escape }, true) := by
  rcases n with _ | _ | k
  · exact .inl ⟨rfl, fun _ h => nomatch h⟩
  · exact .inl ⟨rfl, fun _ h => nomatch h⟩
  · by_cases h : f.escapeOf k < escape ∧ k < f.escapes.size
    · exact .inr ⟨k, rfl, h.1, h.2, if_pos h⟩
    · refine .inl ⟨if_neg h, ?_⟩
      rintro _ ⟨⟩ hk hlt
      exact h ⟨hlt, hk⟩

theorem addTo_cases (f : Facts) (x : InstId) (s : NodeSet) :
    (addTo f x s = (f, false) ∧ ∀ t, f.pts.get? x = some t → ∀ n ∈ s, n ∈ t) ∨
    ∃ t, f.pts.get? x = some t ∧ (∃ n ∈ s, n ∉ t) ∧
      addTo f x s = ({ f with pts := f.pts.insert x (t ∪ s) }, true) := by
  rw [addTo]
  rcases hx : f.pts.get? x with _ | t
  · exact .inl ⟨rfl, fun _ h => nomatch h⟩
  · by_cases h : t ∪ s = t
    · refine .inl ⟨if_pos h, ?_⟩
      rintro _ ⟨⟩
      exact union_eq_left_iff.1 h
    · exact .inr ⟨t, rfl, by simpa [union_eq_left_iff] using h, if_neg h⟩

theorem addToCell_cases (n : Nat) (s : NodeSet) (f : Facts) (c : Cell) :
    (addToCell n s f c = (f, false) ∧ ∀ k ∈ s, k ∈ (f.cellsOf n).get c) ∨
    (∃ k ∈ s, k ∉ (f.cellsOf n).get c) ∧
      addToCell n s f c = ({ f with cells := f.cells.modify n (Cells.add c s) }, true) := by
  rw [addToCell]
  by_cases h : (f.cellsOf n).get c ∪ s = (f.cellsOf n).get c
  · exact .inl ⟨if_pos h, union_eq_left_iff.1 h⟩
  · exact .inr ⟨by simpa [union_eq_left_iff] using h, if_neg h⟩

variable (g : Graph)
variable {f f' : Facts} {b b' : Budget}

theorem pass_eq (f : Facts) : g.pass f = growEach g.apply g.constraints f := rfl

theorem writeNode_alloc (access : Access) (s : NodeSet) (f : Facts) (n : Nat) :
    g.writeNode access s f (.alloc n) = if s.isEmpty then (f, false)
      else growEach (addToCell n s) (access.written (g.shapeOf n) g.elemLimit) f := rfl

/-- Whether elements are copied one by one into the node: the length of the target if so. -/
def copyTracked? : Node → Option Nat
  | .alloc n => g.trackedLen? n
  | _ => none

theorem copyNode_eq (range : Option (Nat × Nat × Nat)) (src dst : Node) (f : Facts) :
    g.copyNode range src f dst =
      match range, g.copyTracked? dst with
      | some (srcPos, dstPos, len), some _ =>
        growEach (fun f k => g.writeNode (.elem (some (dstPos + k)))
          (g.readNode (.elem (some (srcPos + k))) f src) f dst) (List.range len) f
      | _, _ => g.writeNode (.elem none) (g.readNode .allElems f src) f dst := by
  rcases range with _ | ⟨srcPos, dstPos, len⟩ <;> cases dst <;> rfl

def copyFrom (dst : InstId) (range : Option (Nat × Nat × Nat)) (f : Facts) (s : Node) : Growth :=
  growEach (g.copyNode range s) (f.ptsOf dst).toList f

/-- The nodes that the cells of an allocation may hold, cell by cell. -/
def heldNodes (f : Facts) (n : Nat) : List Node := (f.cellsOf n).flatMap fun e => e.2.toList

def promoteStep (acc : Facts × List Nat × Bool) (target : Node) : Facts × List Nat × Bool :=
  let grown := raise .global acc.1 target
  (grown.1, if grown.2 then target.alloc?.toList ++ acc.2.1 else acc.2.1, acc.2.2 || grown.2)

/-- Apart from the pending allocations, promoting raises each of the nodes that are held. -/
theorem growth_promote (n : Nat) (pending : List Nat) (f : Facts) :
    ((promote n pending f).1, (promote n pending f).2.2) =
      growEach (raise .global) (heldNodes f n) f :=
  (foldl_hom (fun a => (a.1, a.2.2)) fun acc target =>
    (rfl : _ = (fun a : Facts × List Nat × Bool => (a.1, a.2.2)) (promoteStep acc target))).symm

theorem mem_promote {n k pending} (h : k ∈ pending) : k ∈ (promote n pending f).2.1 := by
  refine foldlRecOn (motive := fun acc : Facts × List Nat × Bool => k ∈ acc.2.1)
    (heldNodes f n) promoteStep h fun acc h t _ => ?_
  simp only [promoteStep]
  split
  · exact mem_append_right _ h
  · exact h

/-- What one round of propagating pointers comes to. -/
theorem eq_of_yields_round {grew : Bool} {r : Growth ⊕ Growth} (h : Metered.Yields (do
      Metered.ticks g.constraints.length
      let (f, more) := g.pass f
      pure (if more then .inl (f, true) else .inr (f, grew))) b r b') :
    (if (g.pass f).2 then .inl ((g.pass f).1, true) else .inr ((g.pass f).1, grew)) = r := by
  rw [Metered.yields_bind] at h
  obtain ⟨_, _, -, h⟩ := h
  exact (Metered.yields_pure.1 h).1

/-- What one round of closing the escape states comes to. -/
theorem eq_of_yields_closing {pending : List Nat} {grew : Bool}
    {r : (Facts × List Nat × Bool) ⊕ Growth} (h : Metered.Yields (match pending with
      | [] => pure (.inr (f, grew))
      | n :: pending => do
        Metered.tick
        let (f, pending, more) := promote n pending f
        pure (.inl (f, pending, grew || more))) b r b') :
    (match pending with
      | [] => .inr (f, grew)
      | n :: pending => .inl ((promote n pending f).1, (promote n pending f).2.1,
          grew || (promote n pending f).2.2)) = r := by
  rcases pending with _ | ⟨n, pending⟩
  · exact (Metered.yields_pure.1 h).1
  · rw [Metered.yields_bind] at h
    obtain ⟨_, _, -, h⟩ := h
    exact (Metered.yields_pure.1 h).1

variable {g}

theorem propagateFacts_induction {limit} {Q : Facts → Bool → Growth → Prop}
    (again : ∀ {f f1 f2 grew more ch r b b1 b2},
      Metered.Yields (g.propagatePointers f) b (f1, grew) b1 →
      Metered.Yields (closeEscape f1) b1 (f2, more) b2 → (grew || more) = true → Q f2 true r →
      Q f ch r)
    (done : ∀ {f f1 f2 ch b b1 b2}, Metered.Yields (g.propagatePointers f) b (f1, false) b1 →
      Metered.Yields (closeEscape f1) b1 (f2, false) b2 → Q f ch (f2, ch)) :
    ∀ {n f ch r b b'}, Metered.Yields (g.propagateFacts limit n f ch) b r b' → Q f ch r
  | 0, _, _, _, _, _, h => absurd h Metered.not_yields_throw
  | n + 1, f, ch, r, b, b', h => by
    rw [propagateFacts, Metered.yields_bind] at h
    obtain ⟨⟨f1, grew⟩, b1, hp, h⟩ := h
    simp only at h
    rw [Metered.yields_bind] at h
    obtain ⟨⟨f2, more⟩, b2, he, h⟩ := h
    simp only at h
    split at h
    · exact again hp he (by assumption) (propagateFacts_induction again done h)
    · rename_i hgrew
      obtain ⟨rfl, rfl⟩ := Bool.or_eq_false_iff.1 (Bool.eq_false_iff.2 hgrew)
      rw [Metered.yields_pure] at h
      exact h.1 ▸ done hp he

end Graph

/-- A relation between facts and what becomes of them that the three ways of changing facts have,
and that passes from step to step. -/
structure Facts.Kept (R : Facts → Growth → Prop) : Prop where
  refl : ∀ f, R f (f, false)
  trans : ∀ {f r r'}, R f r → R r.1 r' → R f (r'.1, r.2 || r'.2)
  raise : ∀ {f : Facts} {k : Nat} {escape : Escape}, f.escapeOf k < escape → k < f.escapes.size →
    R f ({ f with escapes := f.escapes.setIfInBounds k escape }, true)
  addTo : ∀ {f : Facts} {x : InstId} {t : NodeSet} (s : NodeSet), f.pts.get? x = some t →
    R f ({ f with pts := f.pts.insert x (t ∪ s) }, true)
  addToCell : ∀ (f : Facts) (n : Nat) (c : Cell) (s : NodeSet),
    R f ({ f with cells := f.cells.modify n (Cells.add c s) }, true)

namespace Facts.Kept

variable {R : Facts → Growth → Prop} (hk : Facts.Kept R) (g : Graph)
variable {f : Facts} {r : Growth} {b b' : Budget}
include hk

theorem growEach {β : Type} {step} (hs : ∀ f b, R f (step f b)) (l : List β) (f : Facts) :
    R f (Graph.growEach step l f) :=
  foldlRecOn l _ (hk.refl f) fun acc h b _ => hk.trans h (hs acc.1 b)

theorem of_raise (escape : Escape) (f : Facts) (n : Node) : R f (Graph.raise escape f n) := by
  rcases Graph.raise_cases escape f n with ⟨h, -⟩ | ⟨k, -, hlt, hsize, h⟩ <;> rw [h]
  · exact hk.refl f
  · exact hk.raise hlt hsize

theorem of_addTo (f : Facts) (x : InstId) (s : NodeSet) : R f (Graph.addTo f x s) := by
  rcases Graph.addTo_cases f x s with ⟨h, -⟩ | ⟨t, hx, -, h⟩ <;> rw [h]
  · exact hk.refl f
  · exact hk.addTo s hx

theorem of_addToCell (n : Nat) (s : NodeSet) (f : Facts) (c : Cell) :
    R f (Graph.addToCell n s f c) := by
  rcases Graph.addToCell_cases n s f c with ⟨h, -⟩ | ⟨-, h⟩ <;> rw [h]
  · exact hk.refl f
  · exact hk.addToCell f n c s

theorem writeNode (access : Access) (s : NodeSet) (f : Facts) (n : Node) :
    R f (g.writeNode access s f n) := by
  rcases n with _ | _ | n
  · exact hk.growEach (hk.of_raise .global) _ f
  · exact hk.refl f
  · rw [Graph.writeNode_alloc]
    split
    · exact hk.refl f
    · exact hk.growEach (hk.of_addToCell n s) _ f

theorem copyNode (range : Option (Nat × Nat × Nat)) (src : Node) (f : Facts) (dst : Node) :
    R f (g.copyNode range src f dst) := by
  rw [Graph.copyNode_eq]
  split
  · exact hk.growEach (fun f k => hk.writeNode g _ _ f dst) _ f
  · exact hk.writeNode g _ _ f dst

theorem copyFrom (dst : InstId) (range : Option (Nat × Nat × Nat)) (f : Facts) (s : Node) :
    R f (g.copyFrom dst range f s) :=
  hk.growEach (hk.copyNode g range s) _ f

theorem apply (f : Facts) (c : Constraint) : R f (g.apply f c) := by
  rcases c with ⟨dst, src⟩ | ⟨dst, base, access⟩ | ⟨base, access, value⟩ | ⟨src, dst, range⟩ |
    ⟨value, escape⟩
  · exact hk.of_addTo f dst _
  · exact hk.of_addTo f dst _
  · exact hk.growEach (hk.writeNode g access _) _ f
  · exact hk.growEach (hk.copyFrom g dst range) _ f
  · exact hk.growEach (hk.of_raise escape) _ f

theorem promote (n : Nat) (pending : List Nat) (f : Facts) :
    R f ((Graph.promote n pending f).1, (Graph.promote n pending f).2.2) := by
  rw [Graph.growth_promote]
  exact hk.growEach (hk.of_raise .global) _ f

theorem propagatePointers (h : Metered.Yields (g.propagatePointers f) b r b') : R f r := by
  refine Metered.Yields.iterate (P := R f) (Q := R f) ?_ ?_ (hk.refl f) h
  all_goals
    rintro ⟨f1, grew1⟩ b1 ⟨f2, grew2⟩ b2 hinv hstep
    have hpass := hk.trans hinv (hk.growEach (hk.apply g) g.constraints f1)
    have hres := Graph.eq_of_yields_round g hstep
    rw [← Graph.pass_eq] at hpass
    split at hres <;> rename_i hmore <;> cases hres
    simpa [hmore] using hpass

theorem closeEscape (h : Metered.Yields (Graph.closeEscape f) b r b') : R f r := by
  refine Metered.Yields.iterate (P := fun a : Facts × List Nat × Bool => R f (a.1, a.2.2))
    (Q := R f) ?_ ?_ (hk.refl f) h
  all_goals
    rintro ⟨f1, pending, grew⟩ b1 r b2 hinv hstep
    have hres := Graph.eq_of_yields_closing hstep
    rcases pending with _ | ⟨n, pending⟩ <;> cases hres
  · exact hk.trans hinv (hk.promote n pending f1)
  · exact hinv

theorem propagateFacts {limit n} {ch : Bool}
    (h : Metered.Yields (g.propagateFacts limit n f ch) b r b') : ∃ grew, R f (r.1, grew) := by
  refine Graph.propagateFacts_induction (Q := fun f _ r => ∃ grew, R f (r.1, grew)) ?_ ?_ h
  · intro f f1 f2 _ _ _ r _ _ _ hp he _ ih
    obtain ⟨more, ih⟩ := ih
    have hround := hk.trans (hk.propagatePointers g hp) (hk.closeEscape he)
    have hall := hk.trans hround ih
    exact ⟨_, hall⟩
  · intro f f1 f2 _ _ _ _ hp he
    have hround := hk.trans (hk.propagatePointers g hp) (hk.closeEscape he)
    exact ⟨_, hround⟩

end Facts.Kept

namespace Graph

variable {β : Type} {s : NodeSet}

/-- A step that reports no growth changes nothing. -/
def Still {β : Type} (step : Facts → β → Growth) : Prop :=
  ∀ f b, (step f b).2 = false → (step f b).1 = f

theorem kept_still : Facts.Kept fun f r => r.2 = false → r.1 = f where
  refl _ _ := rfl
  trans h h' hr := by
    obtain ⟨h1, h2⟩ := Bool.or_eq_false_iff.1 hr
    exact (h' h2).trans (h h1)
  raise _ _ h := Bool.noConfusion h
  addTo _ _ h := Bool.noConfusion h
  addToCell _ _ _ _ h := Bool.noConfusion h

theorem foldl_still {step} (hs : Still step) :
    ∀ (l : List β) (acc : Growth),
      (l.foldl (fun acc b => ((step acc.1 b).1, acc.2 || (step acc.1 b).2)) acc).2 = false →
        acc.2 = false ∧ ∀ b ∈ l, (step acc.1 b).2 = false
  | [], acc, h => ⟨h, by simp⟩
  | b :: l, acc, h => by
    obtain ⟨h1, h2⟩ := foldl_still hs l _ h
    simp only [Bool.or_eq_false_iff] at h1
    simp only [hs acc.1 b h1.2] at h2
    exact ⟨h1.1, forall_mem_cons.2 ⟨h1.2, h2⟩⟩

theorem growEach_still {step} (hs : Still step) {l : List β} {f} (h : (growEach step l f).2 = false)
    : ∀ b ∈ l, (step f b).2 = false :=
  (foldl_still hs l (f, false) h).2

variable (g : Graph)
variable {f f' : Facts} {b b' : Budget}

theorem raise_eq_false {escape n} (h : (raise escape f (.alloc n)).2 = false)
    (hn : n < f.escapes.size) : ¬ f.escapeOf n < escape := by
  rcases raise_cases escape f (.alloc n) with ⟨-, hno⟩ | ⟨_, -, -, -, hr⟩
  · exact hno n rfl hn
  · rw [hr] at h
    cases h

theorem addTo_eq_false {x t} (hx : f.pts.get? x = some t) (h : (addTo f x s).2 = false) :
    ∀ n ∈ s, n ∈ t := by
  rcases addTo_cases f x s with ⟨-, hall⟩ | ⟨_, -, -, hr⟩
  · exact hall t hx
  · rw [hr] at h
    cases h

theorem addToCell_eq_false {n c} (h : (addToCell n s f c).2 = false) :
    ∀ k ∈ s, k ∈ (f.cellsOf n).get c := by
  rcases addToCell_cases n s f c with ⟨-, hall⟩ | ⟨-, hr⟩
  · exact hall
  · rw [hr] at h
    cases h

/-- The facts let `s` be stored through a node. -/
def Stored (f : Facts) (access : Access) (s : NodeSet) : Node → Prop
  | .null => True
  | .phantom => ∀ k, .alloc k ∈ s → k < f.escapes.size → ¬ f.escapeOf k < .global
  | .alloc n => ∀ c ∈ access.written (g.shapeOf n) g.elemLimit, ∀ k ∈ s, k ∈ (f.cellsOf n).get c

theorem stored_of_writeNode {access} {n : Node} (h : (g.writeNode access s f n).2 = false) :
    g.Stored f access s n := by
  rcases n with _ | _ | n
  · intro k hk hlt
    exact raise_eq_false (growEach_still (kept_still.of_raise .global) h (.alloc k)
      (mem_toList.2 hk)) hlt
  · trivial
  · rw [writeNode_alloc] at h
    intro c hc k hk
    split at h
    · rename_i he
      rw [isEmpty_iff.1 he] at hk
      exact absurd hk (not_mem_empty k)
    · exact addToCell_eq_false (growEach_still (kept_still.of_addToCell n s) h c hc) k hk

/-- The facts let elements be copied from one node to another. -/
def Copied (f : Facts) (range : Option (Nat × Nat × Nat)) (src dst : Node) : Prop :=
  match range, g.copyTracked? dst with
  | some (srcPos, dstPos, len), some _ => ∀ k, k < len →
    g.Stored f (.elem (some (dstPos + k))) (g.readNode (.elem (some (srcPos + k))) f src) dst
  | _, _ => g.Stored f (.elem none) (g.readNode .allElems f src) dst

theorem copied_of_copyNode {range} {src dst : Node} (h : (g.copyNode range src f dst).2 = false) :
    g.Copied f range src dst := by
  rw [copyNode_eq] at h
  unfold Copied
  rcases range with _ | ⟨srcPos, dstPos, len⟩
  · exact stored_of_writeNode g h
  · rcases hd : g.copyTracked? dst with _ | len'
    · rw [hd] at h
      exact stored_of_writeNode g h
    · rw [hd] at h
      exact fun k hk => stored_of_writeNode g (growEach_still
        (fun f k => kept_still.writeNode g _ _ f dst) h k (mem_range.2 hk))

def Satisfied (f : Facts) : Constraint → Prop
  | .copy dst src => ∀ t, f.pts.get? dst = some t → ∀ n ∈ f.ptsOf src, n ∈ t
  | .load dst base access => ∀ t, f.pts.get? dst = some t → ∀ b ∈ f.ptsOf base,
    ∀ n ∈ g.readNode access f b, n ∈ t
  | .store base access value => ∀ b ∈ f.ptsOf base, g.Stored f access (f.ptsOf value) b
  | .copyElems src dst range => ∀ s ∈ f.ptsOf src, ∀ d ∈ f.ptsOf dst, g.Copied f range s d
  | .sink value escape => ∀ k, .alloc k ∈ f.ptsOf value → k < f.escapes.size →
    ¬ f.escapeOf k < escape

theorem satisfied_of_apply {c : Constraint} (h : (g.apply f c).2 = false) : g.Satisfied f c := by
  rcases c with ⟨dst, src⟩ | ⟨dst, base, access⟩ | ⟨base, access, value⟩ | ⟨src, dst, range⟩ |
    ⟨value, escape⟩
  · intro t ht n hn
    exact addTo_eq_false ht h n hn
  · intro t ht b hb n hn
    refine addTo_eq_false ht h n ?_
    rw [mem_foldl_union]
    exact .inr ⟨b, mem_toList.2 hb, hn⟩
  · intro b hb
    exact stored_of_writeNode g (growEach_still (kept_still.writeNode g access _) h b
      (mem_toList.2 hb))
  · intro s hs d hd
    have hrow := growEach_still (kept_still.copyFrom g dst range) h s (mem_toList.2 hs)
    exact copied_of_copyNode g (growEach_still (kept_still.copyNode g range s) hrow d
      (mem_toList.2 hd))
  · intro k hk hlt
    exact raise_eq_false (growEach_still (kept_still.of_raise escape) h (.alloc k)
      (mem_toList.2 hk)) hlt

/-- Facts that satisfy every constraint and let everything held by an escaping allocation
escape. -/
structure Closed (f : Facts) : Prop where
  satisfied : ∀ c ∈ g.constraints, g.Satisfied f c
  escapes : ∀ n, Escape.none < f.escapeOf n → ∀ c k, .alloc k ∈ (f.cellsOf n).get c →
    k < f.escapes.size → ¬ f.escapeOf k < .global

theorem satisfied_of_propagatePointers {grew : Bool}
    (h : Metered.Yields (g.propagatePointers f) b (f', grew) b') :
    ∀ c ∈ g.constraints, g.Satisfied f' c := by
  refine Metered.Yields.iterate (P := fun _ => True)
    (Q := fun r => ∀ c ∈ g.constraints, g.Satisfied r.1 c) (fun _ _ _ _ _ _ => trivial) ?_ trivial h
  rintro ⟨f1, grew1⟩ b1 ⟨f2, grew2⟩ b2 - hstep
  have hdone := eq_of_yields_round g hstep
  split at hdone <;> cases hdone
  rename_i hmore
  rw [Bool.not_eq_true, pass_eq] at hmore
  rw [pass_eq, kept_still.growEach (kept_still.apply g) _ _ hmore]
  exact fun c hc => satisfied_of_apply g (growEach_still (kept_still.apply g) hmore c hc)

/-- Closing the escape states without growth: what escaping allocations hold escapes already. -/
theorem raised_of_closeEscape (h : Metered.Yields (closeEscape f) b (f', false) b') {n : Nat}
    (hn : Escape.none < f.escapeOf n) : ∀ t ∈ heldNodes f n, (raise .global f t).2 = false := by
  -- An escaping allocation is still pending or all it holds was found to escape.
  refine Metered.Yields.iterate
    (P := fun a : Facts × List Nat × Bool => a.2.2 = false → a.1 = f ∧
      (n ∈ a.2.1 ∨ ∀ t ∈ heldNodes f n, (raise .global f t).2 = false))
    (Q := fun r : Growth => r.2 = false → ∀ t ∈ heldNodes f n, (raise .global f t).2 = false)
    ?_ ?_ ?_ h rfl
  · rintro ⟨f1, pending, grew⟩ b1 a' b2 hinv hstep
    have hres := eq_of_yields_closing hstep
    rcases pending with _ | ⟨m, pending⟩ <;> cases hres
    intro hfalse
    obtain ⟨hgrew, hmore⟩ := Bool.or_eq_false_iff.1 hfalse
    obtain ⟨hf, hpend⟩ := hinv hgrew
    subst hf
    refine ⟨kept_still.promote m pending f1 hmore, ?_⟩
    rcases hpend with hm | hall
    · rcases mem_cons.1 hm with rfl | hm
      · refine .inr (growEach_still (kept_still.of_raise .global) ?_)
        rw [← growth_promote n pending]
        exact hmore
      · exact .inl (mem_promote hm)
    · exact .inr hall
  · rintro ⟨f1, pending, grew⟩ b1 r b2 hinv hstep
    have hres := eq_of_yields_closing hstep
    rcases pending with _ | ⟨m, pending⟩ <;> cases hres
    exact fun hfalse => (hinv hfalse).2.resolve_left (by simp)
  · refine fun _ => ⟨rfl, .inl ?_⟩
    simp only [mem_reverse, mem_filter, mem_range, decide_eq_true_eq]
    refine ⟨?_, hn⟩
    rcases Nat.lt_or_ge n f.escapes.size with hlt | hge
    · exact hlt
    · simp only [Facts.escapeOf, Array.getD_eq_getD_getElem?, Array.getElem?_eq_none hge,
        Option.getD_none] at hn
      exact absurd hn (by decide)

theorem closed_of_propagateFacts {limit n} {ch : Bool} {r}
    (h : Metered.Yields (g.propagateFacts limit n f ch) b r b') : g.Closed r.1 := by
  refine propagateFacts_induction (Q := fun _ _ r => g.Closed r.1) (fun _ _ _ ih => ih) ?_ h
  intro f f1 f2 _ _ _ _ hp he
  obtain rfl := kept_still.closeEscape he rfl
  refine ⟨satisfied_of_propagatePointers g hp, fun n hn c k hk hlt => ?_⟩
  obtain ⟨s, hs, hks⟩ := Cells.exists_mem_of_mem_get hk
  exact raise_eq_false (raised_of_closeEscape he hn (.alloc k) (mem_flatMap.2
    ⟨(c, s), hs, mem_toList.2 hks⟩)) hlt

theorem of_propagate {g g' : Graph} {settings changed}
    (h : Metered.Yields (g.propagate settings) b (g', changed) b') :
    ∃ f, g' = { g with facts := f } ∧ Metered.Yields (g.propagateFacts settings.graphIterLimit
      settings.graphIterLimit g.facts false) b (f, changed) b' := by
  rw [propagate, Metered.yields_bind] at h
  obtain ⟨⟨f, ch⟩, b1, hf, h⟩ := h
  obtain ⟨heq, rfl⟩ := Metered.yields_pure.1 h
  cases heq
  exact ⟨f, rfl, hf⟩

/-- What holds of the empty graph and is kept by every reachable instruction and every terminator
holds of the graph of a body. -/
theorem ofBody_induction {p body} {P : Graph → Prop} (settings : Settings)
    (start : P { elemLimit := settings.arraySizeLimit })
    (inst : ∀ g, ∀ b ∈ body.flow.order.blocks, ∀ x ∈ (body.block b).insts, P g →
      P (addInst p body g x)) (term : ∀ g t, P g → P (g.addTerm t)) : P (ofBody p body settings) :=
  foldlRecOn _ _ start fun _ hg b hb =>
    term _ _ (foldlRecOn _ _ hg fun g hg x hx => inst g b hb x hx hg)

end Graph

end EscapeAnalysis
