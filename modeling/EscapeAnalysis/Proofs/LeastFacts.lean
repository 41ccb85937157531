import EscapeAnalysis.Proofs.FactOrder
import EscapeAnalysis.Proofs.PointsTo

/-!
# Propagation ends at the least closed facts

Propagation never leaves what closed facts above the starting ones allow, and it stops at closed
facts, so these are the least ones (`Graph.Least`). The facts that have every entry there is are
closed (`Graph.top`). So only finitely many entries can be added, and each pass over the constraints
that goes on adds one.
-/

namespace EscapeAnalysis

open List SideTable

namespace Metered

theorem Ends.mono {α : Type} {x m n} {Q : α → Prop} (h : Ends x m Q) (hmn : m ≤ n) :
    Ends x n Q where
  sound := h.sound
  ends b hb := by
    obtain ⟨a, b', ha, hl, hs⟩ := h.ends b (by omega)
    exact ⟨a, b', ha, hl, by omega⟩

end Metered

namespace Facts

variable {f : Facts} {e : Entry}

def entries (f : Facts) : List Entry :=
  (f.pts.toList.flatMap fun e => e.2.toList.map (.target e.1)) ++
  ((List.range f.cells.size).flatMap fun k =>
    (f.cellsOf k).flatMap fun e => e.2.toList.map (.content k e.1)) ++
  (List.range f.escapes.size).flatMap fun k => [.escape k .arg, .escape k .global]

theorem mem_entries (h : f.Has e) : e ∈ f.entries := by
  rcases e with ⟨x, n⟩ | ⟨k, c, n⟩ | ⟨k, e⟩
  · obtain ⟨t, ht, hn⟩ := mem_ptsOf.1 h
    refine mem_append_left _ (mem_append_left _ (mem_flatMap.2 ⟨(x, t), ?_, ?_⟩))
    · exact mem_toList_iff.2 ht
    · exact mem_map.2 ⟨n, NodeSet.mem_toList.2 hn, rfl⟩
  · obtain ⟨s, hs, hn⟩ := Cells.exists_mem_of_mem_get h
    have hk : k < f.cells.size := by
      refine Nat.lt_of_not_le fun hk => ?_
      rw [cellsOf_eq_nil hk] at hs
      cases hs
    refine mem_append_left _ (mem_append_right _ (mem_flatMap.2
      ⟨k, mem_range.2 hk, mem_flatMap.2 ⟨(c, s), hs, ?_⟩⟩))
    exact mem_map.2 ⟨n, NodeSet.mem_toList.2 hn, rfl⟩
  · obtain ⟨hne, hge⟩ := h
    have hk : k < f.escapes.size := by
      refine Nat.lt_of_not_le fun hk => hge ?_
      rwa [escapeOf_eq_none hk]
    refine mem_append_right _ (mem_flatMap.2 ⟨k, mem_range.2 hk, ?_⟩)
    cases e
    · exact absurd hne (by decide)
    · simp
    · simp

/-- How many entries of a list are still missing. -/
def room (l : List Entry) (f : Facts) : Nat := l.countP fun e => !decide (f.Has e)

theorem room_lt {l f'} (h : f ≤ f') (he : e ∈ l) (hnew : f'.Has e) (hold : ¬ f.Has e) :
    f'.room l < f.room l := by
  have hle : ∀ l : List Entry, f'.room l ≤ f.room l := fun l =>
    countP_mono_left fun e _ hmiss => by
      simp only [Bool.not_eq_true', decide_eq_false_iff_not] at hmiss ⊢
      exact fun hf => hmiss (h.has e hf)
  obtain ⟨l1, l2, rfl⟩ := append_of_mem he
  have h1 := hle l1
  have h2 := hle l2
  simp only [room, countP_append, countP_cons, hnew, hold, decide_true, decide_false,
    Bool.not_true, Bool.not_false, if_true, Bool.false_eq_true, if_false] at h1 h2 ⊢
  omega

/-- How many allocations do not escape everywhere. -/
def hidden (f : Facts) : Nat := f.escapes.countP (· != .global)

theorem hidden_raise {n} (h : (Graph.raise .global f n).2 = true) :
    (Graph.raise .global f n).1.hidden + 1 = f.hidden := by
  rcases Graph.raise_cases .global f n with ⟨hr, -⟩ | ⟨k, -, hlt, hk, hr⟩ <;> rw [hr] at h ⊢
  · cases h
  · have hne : (f.escapes[k] != .global) = true := by
      have hget : f.escapeOf k = f.escapes[k] := by simp [escapeOf, hk]
      rw [hget] at hlt
      refine bne_iff_ne.2 fun heq => ?_
      rw [heq] at hlt
      exact absurd hlt (by decide)
    have hpos : 0 < f.escapes.countP (· != .global) :=
      Array.countP_pos_iff.2 ⟨f.escapes[k], Array.getElem_mem hk, hne⟩
    simp only [hidden, Array.setIfInBounds, hk, dif_pos, Array.countP_set hk, hne, if_true,
      bne_self_eq_false, Bool.false_eq_true, if_false]
    omega

end Facts

namespace Graph

variable {g : Graph} {S f f' : Facts} {shape : AllocShape} {b b' : Budget} {settings : Settings}
variable {k : Nat} {n : Node} {access : Access} {c : Cell}

/-- Promoting what an escaping allocation holds: every allocation that is listed escapes, and each
one listed anew was hidden before. -/
theorem promote_advance {n} (pending : List Nat) (h : g.Below S f) (hS : g.Closed S)
    (hn : Escape.none < f.escapeOf n) (hpend : ∀ k ∈ pending, Escape.none < f.escapeOf k) :
    g.Advance S f ((promote n pending f).1, (promote n pending f).2.2) ∧
      (∀ k ∈ (promote n pending f).2.1, Escape.none < (promote n pending f).1.escapeOf k) ∧
      (promote n pending f).2.1.length + (promote n pending f).1.hidden =
        pending.length + f.hidden := by
  refine foldlRecOn (motive := fun acc : Facts × List Nat × Bool =>
    g.Advance S f (acc.1, acc.2.2) ∧ (∀ k ∈ acc.2.1, Escape.none < acc.1.escapeOf k) ∧
      acc.2.1.length + acc.1.hidden = pending.length + f.hidden)
    (heldNodes f n) promoteStep ⟨.refl h, hpend, rfl⟩ ?_
  rintro ⟨f1, pending1, grew⟩ ⟨h1, h2, h3⟩ t ht
  have hadv : g.Advance S f1 (raise .global f1 t) := by
    refine raise_advance h1.below fun k hk => ?_
    subst hk
    obtain ⟨⟨c, s⟩, hs, hmem⟩ := mem_flatMap.1 ht
    refine hS.escapes n (h.le.escaping hn) c k (h.le.cells ?_)
    rw [(h.fits.rising n).get_eq hs]
    exact NodeSet.mem_toList.1 hmem
  refine ⟨h1.trans hadv, ?_⟩
  have hhidden := Facts.hidden_raise (f := f1) (n := t)
  simp only at h3
  rcases raise_cases .global f1 t with ⟨hr, -⟩ | ⟨k, rfl, -, hk, hr⟩
  · simp only [promoteStep, hr, Bool.false_eq_true, if_false]
    exact ⟨h2, h3⟩
  · rw [hr] at hadv hhidden
    simp only [promoteStep, hr, if_true, Node.alloc?, Option.toList_some, cons_append,
      nil_append, forall_mem_cons, length_cons]
    refine ⟨⟨?_, fun j hj => hadv.above.escaping (h2 j hj)⟩, ?_⟩
    · rw [Facts.escapeOf_setIfInBounds hk, if_pos rfl]
      decide
    · have := hhidden rfl
      dsimp only at this
      omega

theorem propagatePointers_ends (h : g.Below S f) (hS : g.Closed S) :
    Metered.Ends (g.propagatePointers f) ((S.entries.length + 1) * (g.constraints.length + 1))
      (g.Advance S f) := by
  rw [propagatePointers]
  -- A round that goes on has added one of the entries of `S`.
  refine (Metered.Ends.iterate (P := fun a => g.Advance S f a)
    (μ := fun a => a.1.room S.entries) (n := g.constraints.length) (R := g.Advance S f)
    (fun a hadv => ?_) (Advance.refl h)).mono (Nat.mul_le_mul_right _ ?_)
  · obtain ⟨f1, grew⟩ := a
    refine Metered.Ends.bind (n := 0) (Metered.Ends.ticks _) fun _ _ => ?_
    have hpass := pass_advance hadv.below hS
    rcases hp : g.pass f1 with ⟨f2, more⟩
    rw [hp] at hpass
    rcases more with _ | _
    · refine Metered.Ends.pure ?_
      simpa using hadv.trans hpass
    · refine Metered.Ends.pure ?_
      obtain ⟨e, he, hne⟩ := hpass.new rfl
      exact ⟨by simpa using hadv.trans hpass,
        Facts.room_lt hpass.above (Facts.mem_entries (hpass.below.le.has e he)) he hne⟩
  · exact Nat.succ_le_succ countP_le_length

theorem closeEscape_ends (h : g.Below S f) (hS : g.Closed S) :
    Metered.Ends (closeEscape f) ((2 * g.allocs.size + 1) * 2) (g.Advance S f) := by
  rw [closeEscape]
  -- Each round takes one allocation off the list, and lists only those no longer hidden.
  refine (Metered.Ends.iterate
    (P := fun a : Facts × List Nat × Bool => g.Advance S f (a.1, a.2.2) ∧
      ∀ k ∈ a.2.1, Escape.none < a.1.escapeOf k)
    (μ := fun a => a.2.1.length + a.1.hidden) (n := 1) (R := g.Advance S f)
    (fun a ha => ?_) ⟨Advance.refl h, fun k hk => ?_⟩).mono (Nat.mul_le_mul_right _ ?_)
  · obtain ⟨f1, pending, grew⟩ := a
    obtain ⟨hadv, hpend⟩ := ha
    rcases pending with _ | ⟨n, pending⟩
    · exact Metered.Ends.pure hadv
    · refine Metered.Ends.bind (n := 0) (Metered.Ends.charge 1) fun _ _ => ?_
      obtain ⟨hprom, hpend', hμ⟩ := promote_advance pending hadv.below hS
        (hpend n (.head _)) fun k hk => hpend k (.tail _ hk)
      rcases hp : promote n pending f1 with ⟨f2, pending2, more⟩
      rw [hp] at hprom hpend' hμ
      refine Metered.Ends.pure ⟨⟨hadv.trans hprom, hpend'⟩, ?_⟩
      simp only [length_cons] at hμ ⊢
      omega
  · simp only [mem_reverse, mem_filter, decide_eq_true_eq] at hk
    exact hk.2
  · have h1 := length_filter_le (fun n => decide (Escape.none < f.escapeOf n))
      (List.range f.escapes.size)
    have h2 : f.hidden ≤ f.escapes.size := Array.countP_le_size
    simp only [length_range, h.fits.escapes, length_reverse] at h1 h2 ⊢
    omega

/-- The cells that some write may change. -/
def cellsWritten (g : Graph) : List Cell :=
  .anyElem :: (List.range g.elemLimit).map .elem ++ g.constraints.filterMap fun
    | .store _ (.field f) _ => some (.field f)
    | _ => none

theorem mem_cellsWritten_of_elem (ha : ∀ f, access ≠ .field f)
    (hc : c ∈ access.written shape g.elemLimit) : c ∈ g.cellsWritten := by
  have hlen : ∀ len, shape.trackedLen? g.elemLimit = some len → len ≤ g.elemLimit := by
    intro len hlen
    rcases shape with _ | ⟨_, _ | len'⟩
    · cases hlen
    · cases hlen
    · rw [AllocShape.trackedLen?] at hlen
      split at hlen
      · cases hlen
        assumption
      · cases hlen
  have hany : Cell.anyElem ∈ g.cellsWritten := mem_append_left _ (.head _)
  have helem : ∀ i, i < g.elemLimit → Cell.elem i ∈ g.cellsWritten := fun i hi =>
    mem_append_left _ (.tail _ (mem_map.2 ⟨i, mem_range.2 hi, rfl⟩))
  rcases access with f | (_ | i) | _
  · exact absurd rfl (ha f)
  · rw [Access.written, mem_singleton] at hc
    exact hc ▸ hany
  · rw [Access.written] at hc
    split at hc
    · rename_i len hl
      split at hc
      · rw [mem_singleton] at hc
        exact hc ▸ helem i (Nat.lt_of_lt_of_le (by assumption) (hlen len hl))
      · rw [mem_singleton] at hc
        exact hc ▸ hany
    · rw [mem_singleton] at hc
      exact hc ▸ hany
  · rw [Access.written] at hc
    split at hc
    · rename_i len hl
      obtain ⟨i, hi, rfl⟩ := mem_map.1 hc
      exact helem i (Nat.lt_of_lt_of_le (mem_range.1 hi) (hlen len hl))
    · rw [mem_singleton] at hc
      exact hc ▸ hany

theorem mem_cellsWritten_of_store {base value} (h : .store base access value ∈ g.constraints)
    (hc : c ∈ access.written shape g.elemLimit) : c ∈ g.cellsWritten := by
  by_cases ha : ∃ f, access = .field f
  · obtain ⟨f, rfl⟩ := ha
    rw [Access.written, mem_singleton] at hc
    exact hc ▸ mem_append_right _ (mem_filterMap.2 ⟨_, h, rfl⟩)
  · exact mem_cellsWritten_of_elem (fun f hf => ha ⟨f, hf⟩) hc

def allNodes (size : Nat) : NodeSet := .ofList (.phantom :: .null :: (List.range size).map .alloc)

theorem mem_allNodes {size} : n ∈ allNodes size ↔ n.Known size := by
  rw [allNodes, NodeSet.mem_ofList]
  cases n <;> simp [Node.Known]

/-- The facts with every entry that the graph can get. -/
def top (g : Graph) : Facts where
  pts := g.facts.pts.fill (allNodes g.allocs.size)
  escapes := .replicate g.allocs.size .global
  cells := .replicate g.allocs.size (g.cellsWritten.map fun c => (c, allNodes g.allocs.size))

theorem escapeOf_top (hk : k < g.allocs.size) : g.top.escapeOf k = .global := by
  simp [top, Facts.escapeOf, hk]

theorem cellsOf_top (hk : k < g.allocs.size) :
    g.top.cellsOf k = g.cellsWritten.map fun c => (c, allNodes g.allocs.size) := by
  simp [top, Facts.cellsOf, hk]

theorem mem_cellsOf_top (hk : k < g.allocs.size) (hc : c ∈ g.cellsWritten)
    (hn : n.Known g.allocs.size) : n ∈ (g.top.cellsOf k).get c := by
  have hget : ∀ l : List Cell, c ∈ l →
      Cells.get (l.map fun c => (c, allNodes g.allocs.size)) c = allNodes g.allocs.size := by
    intro l hl
    induction l with
    | nil => simp at hl
    | cons d l ih =>
      rw [map_cons, Cells.get_cons]
      split
      · rfl
      · rename_i hd
        exact ih ((mem_cons.1 hl).resolve_left hd)
  rw [cellsOf_top hk, hget _ hc]
  exact mem_allNodes.2 hn

theorem known_of_mem_ptsOf_top {x} (h : n ∈ g.top.ptsOf x) : n.Known g.allocs.size := by
  obtain ⟨t, ht, hn⟩ := Facts.mem_ptsOf.1 h
  simp only [top, get?_fill] at ht
  split at ht
  · cases ht
    exact mem_allNodes.1 hn
  · cases ht

theorem known_of_mem_readNode_top {b} (h : n ∈ g.readNode access g.top b) :
    n.Known g.allocs.size := by
  rcases b with _ | _ | k
  · rw [readNode, NodeSet.mem_singleton] at h
    subst h
    trivial
  · exact absurd h (NodeSet.not_mem_empty n)
  · have hread : n ∈ access.read (g.shapeOf k) g.elemLimit (g.top.cellsOf k) →
        n.Known g.allocs.size := by
      intro hn
      obtain ⟨e, he, hn⟩ := Access.exists_mem_of_mem_read hn
      rcases Nat.lt_or_ge k g.allocs.size with hk | hk
      · rw [cellsOf_top hk] at he
        obtain ⟨c, -, rfl⟩ := mem_map.1 he
        exact mem_allNodes.1 hn
      · rw [Facts.cellsOf_eq_nil (by simpa [top] using hk)] at he
        cases he
    simp only [readNode] at h
    split at h
    · rcases NodeSet.mem_insert.1 h with h | rfl
      · exact hread h
      · trivial
    · exact hread h

/-- Nothing can be added to the facts with every entry. -/
theorem closed_top (g : Graph) : g.Closed g.top := by
  have hesc : ∀ {k : Nat} {escape : Escape}, k < g.top.escapes.size →
      ¬ g.top.escapeOf k < escape := by
    intro k escape hk
    rw [escapeOf_top (by simpa [top] using hk)]
    cases escape <;> decide
  have hpts : ∀ {x : InstId} {t : NodeSet}, g.top.pts.get? x = some t →
      t = allNodes g.allocs.size := by
    intro x t ht
    simp only [top, get?_fill] at ht
    split at ht
    · cases ht
      rfl
    · cases ht
  have hstored : ∀ {access : Access} {s : NodeSet} {n : Node}, n.Known g.allocs.size →
      (∀ m ∈ s, m.Known g.allocs.size) →
      (∀ shape, ∀ c ∈ access.written shape g.elemLimit, c ∈ g.cellsWritten) →
      g.Stored g.top access s n := by
    intro access s n hn hs hc
    rcases n with _ | _ | k
    · exact fun j _ hj => hesc hj
    · trivial
    · exact fun c hcw m hm => mem_cellsOf_top hn (hc _ c hcw) (hs m hm)
  refine ⟨fun c hc => ?_, fun n _ c k _ hk => hesc hk⟩
  rcases c with ⟨dst, src⟩ | ⟨dst, base, access⟩ | ⟨base, access, value⟩ | ⟨src, dst, range⟩ |
    ⟨value, escape⟩
  · intro t ht n hn
    rw [hpts ht]
    exact mem_allNodes.2 (known_of_mem_ptsOf_top hn)
  · intro t ht b _ n hn
    rw [hpts ht]
    exact mem_allNodes.2 (known_of_mem_readNode_top hn)
  · exact fun b hb => hstored (known_of_mem_ptsOf_top hb) (fun m hm => known_of_mem_ptsOf_top hm)
      fun shape c hcw => mem_cellsWritten_of_store hc hcw
  · intro s _ d hd
    have hcopy : ∀ {read : Access} {i : Option Nat},
        g.Stored g.top (.elem i) (g.readNode read g.top s) d := fun {read i} =>
      hstored (known_of_mem_ptsOf_top hd) (fun m hm => known_of_mem_readNode_top hm)
        fun shape c hcw => mem_cellsWritten_of_elem (by simp) hcw
    unfold Copied
    split
    · exact fun k _ => hcopy
    · exact hcopy
  · exact fun k _ hk => hesc hk

/-- What the code read so far has put into the facts. -/
structure Built (g : Graph) : Prop where
  null : g.facts.pts.contains .null = false
  escapes : g.facts.escapes.size = g.allocs.size
  cells : g.facts.cells.size = g.allocs.size
  blank : ∀ k, g.facts.cellsOf k = []
  targets : ∀ x, ∀ n ∈ g.facts.ptsOf x, n.Known g.allocs.size

namespace Built

variable {s : NodeSet}

theorem below_top (h : g.Built) : g.Below g.top g.facts where
  fits := {
    versions := rfl
    null := h.null
    escapes := h.escapes
    cells := h.cells
    rising := fun k => h.blank k ▸ Cells.Rising.nil
    targets := h.targets
    contents := fun k c n hn => by
      obtain ⟨s, hs, -⟩ := Cells.exists_mem_of_mem_get hn
      rw [h.blank] at hs
      cases hs }
  le := by
    refine ⟨fun x hx => ?_, by simp [top, h.escapes], fun e he => ?_⟩
    · rw [SideTable.contains, top, get?_fill, if_pos hx]
      rfl
    · rcases e with ⟨x, n⟩ | ⟨k, c, n⟩ | ⟨k, e⟩
      · obtain ⟨t, ht, hn⟩ := Facts.mem_ptsOf.1 he
        refine Facts.mem_ptsOf.2 ⟨allNodes g.allocs.size, ?_, mem_allNodes.2 (h.targets x n he)⟩
        rw [top, get?_fill, if_pos (contains_iff.2 ⟨t, ht⟩)]
      · obtain ⟨s, hs, -⟩ := Cells.exists_mem_of_mem_get he
        rw [h.blank] at hs
        cases hs
      · obtain ⟨hne, hge⟩ := he
        have hk : k < g.allocs.size := by
          refine Nat.lt_of_not_le fun hk => hge ?_
          rwa [Facts.escapeOf_eq_none (h.escapes ▸ hk)]
        refine ⟨hne, ?_⟩
        rw [escapeOf_top hk]
        cases e <;> decide

theorem insertPts (h : g.Built) (x : InstId) (hs : ∀ n ∈ s, n.Known g.allocs.size) :
    Built { g with facts := { g.facts with pts := g.facts.pts.insert x s } } where
  null := by
    refine Bool.eq_false_iff.2 fun hc => ?_
    obtain ⟨t, ht⟩ := contains_iff.1 hc
    by_cases hx : x = .null
    · have hsame : g.facts.pts.insert x s = g.facts.pts := by simp [SideTable.insert, hx]
      simp only [hsame] at hc
      rw [h.null] at hc
      cases hc
    · rcases get?_insert_cases _ x s ht with ⟨rfl, -⟩ | ht
      · exact hx rfl
      · have := contains_iff.2 ⟨t, ht⟩
        rw [h.null] at this
        cases this
  escapes := h.escapes
  cells := h.cells
  blank := h.blank
  targets y n hn := by
    obtain ⟨t, ht, hmem⟩ := Facts.mem_ptsOf.1 hn
    rcases get?_insert_cases _ x s ht with ⟨-, rfl⟩ | ht
    · exact hs n hmem
    · exact h.targets y n (Facts.mem_ptsOf.2 ⟨t, ht, hmem⟩)

theorem addPts (h : g.Built) (x : InstId) (hs : ∀ n ∈ s, n.Known g.allocs.size) :
    (g.addPts x s).Built :=
  h.insertPts x fun n hn => (NodeSet.mem_union.1 hn).elim (h.targets x n) (hs n)

theorem addAlloc (h : g.Built) (x : InstId) (shape : AllocShape) (escape : Escape) :
    (g.addAlloc x shape escape).Built := by
  have hpush : Built { g with
      allocs := g.allocs.push { inst := x, shape }
      allocOf := g.allocOf.insert x g.allocs.size
      facts := { g.facts with
        escapes := g.facts.escapes.push escape, cells := g.facts.cells.push [] } } := by
    refine ⟨h.null, by simp [h.escapes], by simp [h.cells], fun k => ?_, fun y n hn => ?_⟩
    · have := h.blank k
      simp only [Facts.cellsOf, Array.getD_eq_getD_getElem?, Array.getElem?_push] at this ⊢
      split
      · rfl
      · exact this
    · have hk := h.targets y n hn
      rcases n with _ | _ | k
      · trivial
      · trivial
      · show k < (g.allocs.push _).size
        rw [Array.size_push]
        exact Nat.lt_succ_of_lt hk
  refine hpush.addPts x (s := .singleton (.alloc g.allocs.size)) fun n hn => ?_
  rw [NodeSet.mem_singleton] at hn
  subst hn
  show g.allocs.size < (g.allocs.push _).size
  simp

variable {p : Program} {body : Body}

theorem known_of_mem_seed {x} (hs : seed? body x = some s) (hn : n ∈ s) (size : Nat) :
    n.Known size := by
  rw [seed?] at hs
  repeat' split at hs
  all_goals cases hs
  all_goals
    rw [NodeSet.mem_singleton] at hn
    subst hn
    trivial

theorem declare (h : g.Built) (x : InstId) : (Graph.declare body g x).Built := by
  rw [Graph.declare]
  split
  · exact h.insertPts x fun n hn => absurd hn (NodeSet.not_mem_empty n)
  · exact h

theorem addInst (h : g.Built) (x : InstId) : (Graph.addInst p body g x).Built := by
  rw [addInst_eq]
  split
  · exact (h.declare x).addAlloc x _ _
  · have hsow : (sow body (Graph.declare body g x) x).Built := by
      rw [sow]
      split
      · rename_i s hs
        exact (h.declare x).addPts x fun n hn => known_of_mem_seed hs hn _
      · exact h.declare x
    exact ⟨hsow.null, hsow.escapes, hsow.cells, hsow.blank, hsow.targets⟩

theorem addTerm (h : g.Built) (t : Terminator) : (g.addTerm t).Built := by
  rw [addTerm_eq]
  exact ⟨h.null, h.escapes, h.cells, h.blank, h.targets⟩

theorem ofBody (p : Program) (body : Body) (settings : Settings) :
    (Graph.ofBody p body settings).Built := by
  refine ofBody_induction settings ⟨rfl, rfl, rfl, fun k => ?_, fun x n hn => ?_⟩
    (fun _ _ _ x _ h => h.addInst x) fun _ t h => h.addTerm t
  · simp [Facts.cellsOf]
  · exact absurd hn (by simp [Facts.ptsOf, SideTable.get?])

end Built

/-- Facts that propagation comes to between two calls of its parts. -/
inductive Reached (g : Graph) : Facts → Prop where
  | start : g.Reached g.facts
  | pointers {f f' : Facts} {grew b b'} (hf : g.Reached f)
      (h : Metered.Yields (g.propagatePointers f) b (f', grew) b') : g.Reached f'
  | escapes {f f' : Facts} {grew b b'} (hf : g.Reached f)
      (h : Metered.Yields (closeEscape f) b (f', grew) b') : g.Reached f'

/-- The least closed facts above those of the graph. -/
structure Least (g : Graph) (f : Facts) : Prop where
  closed : g.Closed f
  above : g.facts ≤ f
  least : ∀ S, g.facts ≤ S → g.Closed S → f ≤ S

theorem below_of_reached (hS : g.Closed S) (h0 : g.Below S g.facts) (h : g.Reached f) :
    g.Below S f := by
  induction h with
  | start => exact h0
  | pointers _ h ih => exact ((propagatePointers_ends ih hS).sound _ _ _ h).below
  | escapes _ h ih => exact ((closeEscape_ends ih hS).sound _ _ _ h).below

theorem propagateFacts_advance (hS : g.Closed S) {limit n ch r} (hf : g.Below S f)
    (h : Metered.Yields (g.propagateFacts limit n f ch) b r b') :
    ∃ grew, g.Advance S f (r.1, grew) ∧ r.2 = (ch || grew) ∧ (grew = false → r.1 = f) := by
  have hround : ∀ {f f1 f2 grew more b b1 b2}, g.Below S f →
      Metered.Yields (g.propagatePointers f) b (f1, grew) b1 →
      Metered.Yields (closeEscape f1) b1 (f2, more) b2 → g.Advance S f (f2, grew || more) := by
    intro f f1 f2 grew more b b1 b2 hf hp he
    have h1 := (propagatePointers_ends hf hS).sound _ _ _ hp
    exact h1.trans ((closeEscape_ends h1.below hS).sound _ _ _ he)
  refine propagateFacts_induction (Q := fun f ch r => g.Below S f → ∃ grew,
    g.Advance S f (r.1, grew) ∧ r.2 = (ch || grew) ∧ (grew = false → r.1 = f)) ?_ ?_ h hf
  · intro f f1 f2 grew more ch r _ _ _ hp he hgrew ih hf
    have h2 := hround hf hp he
    rw [hgrew] at h2
    obtain ⟨again, h3, hch, -⟩ := ih h2.below
    exact ⟨true, by simpa using h2.trans h3, by simp [hch], fun h => Bool.noConfusion h⟩
  · intro f f1 f2 ch _ _ _ hp he hf
    refine ⟨false, hround hf hp he, by simp, fun _ => ?_⟩
    exact (kept_still.closeEscape he rfl).trans (kept_still.propagatePointers g hp rfl)

theorem Built.least_of_propagate (h : g.Built) {g' changed}
    (hy : Metered.Yields (g.propagate settings) b (g', changed) b') :
    ∃ f, g' = { g with facts := f } ∧ g.Least f ∧ g.Fits f ∧ (changed = true ↔ f ≠ g.facts) := by
  obtain ⟨f, rfl, hf⟩ := of_propagate hy
  have htop := h.below_top
  obtain ⟨grew, hadv, hch, hsame⟩ := propagateFacts_advance g.closed_top htop hf
  rw [Bool.false_or] at hch
  subst hch
  refine ⟨f, rfl, ⟨closed_of_propagateFacts g hf, hadv.above, fun S hle hS => ?_⟩,
    hadv.below.fits, fun hgrew heq => ?_, fun hne => ?_⟩
  · obtain ⟨_, hadv', -⟩ := propagateFacts_advance hS ⟨htop.fits, hle⟩ hf
    exact hadv'.below.le
  · obtain ⟨e, he, hno⟩ := hadv.new hgrew
    exact hno (heq ▸ he)
  · rcases changed with _ | _
    · exact absurd (hsame rfl) hne
    · rfl

theorem Closed.of_subset {cs f0} (h : g.Closed S) (hcs : ∀ c ∈ cs, c ∈ g.constraints) :
    Closed { g with constraints := cs, facts := f0 } S :=
  ⟨fun c hc => by cases c <;> exact h.satisfied _ (hcs _ hc), h.escapes⟩

theorem propagate_of_closed (hf : g.Fits g.facts) (hc : g.Closed g.facts)
    (hlimit : 1 ≤ settings.graphIterLimit) :
    ∃ steps, ∀ b : Budget, b.spent + steps ≤ b.limit →
      ∃ b', Metered.Yields (g.propagate settings) b (g, false) b' := by
  have hbelow : g.Below g.facts g.facts := ⟨hf, Facts.le_refl _⟩
  have hp := propagatePointers_ends hbelow hc
  have he := closeEscape_ends hbelow hc
  generalize (g.facts.entries.length + 1) * (g.constraints.length + 1) = m at hp
  generalize (2 * g.allocs.size + 1) * 2 = n at he
  refine ⟨m + n, fun b hb => ?_⟩
  obtain ⟨⟨f1, grew⟩, b1, hy1, hl1, hs1⟩ := hp.ends b (by omega)
  obtain rfl : grew = false := (hp.sound _ _ _ hy1).eq_false
  obtain rfl : f1 = g.facts := kept_still.propagatePointers g hy1 rfl
  obtain ⟨⟨f2, more⟩, b2, hy2, -⟩ := he.ends b1 (by omega)
  obtain rfl : more = false := (he.sound _ _ _ hy2).eq_false
  obtain rfl : f2 = g.facts := kept_still.closeEscape hy2 rfl
  refine ⟨b2, ?_⟩
  obtain ⟨n, hn⟩ := Nat.exists_eq_add_of_le' hlimit
  rw [propagate, Metered.yields_bind]
  refine ⟨(g.facts, false), b2, ?_, Metered.yields_pure.2 ⟨rfl, rfl⟩⟩
  rw [hn, propagateFacts, Metered.yields_bind]
  refine ⟨_, b1, hy1, Metered.yields_bind.2 ⟨_, b2, hy2, ?_⟩⟩
  exact Metered.yields_pure.2 ⟨rfl, rfl⟩

theorem kept_escapes : Facts.Kept fun f r => ∀ n, ¬ r.1.escapeOf n < f.escapeOf n where
  refl _ _ := Nat.lt_irrefl _
  trans h h' n := Nat.not_lt.2 (Nat.le_trans (Nat.not_lt.1 (h n)) (Nat.not_lt.1 (h' n)))
  raise {f k escape} hlt hk n := by
    rw [Facts.escapeOf_setIfInBounds hk]
    split
    · subst n
      exact Nat.lt_asymm hlt
    · exact Nat.lt_irrefl _
  addTo _ _ _ := Nat.lt_irrefl _
  addToCell _ _ _ _ _ := Nat.lt_irrefl _

/-- Propagation computes the least closed facts above those of the code. With enough steps left
every call of its two parts ends, and no application of a constraint and no promotion lowers an
escape state. Whatever propagation answers has the least closed facts and tells whether they are
new. The order of the constraints does not matter, and a further propagation changes nothing. -/
theorem propagate_least (p : Program) (body : Body) (settings : Settings) :
    (∃ steps, ∀ f, (ofBody p body settings).Reached f → ∀ b : Budget, b.spent + steps ≤ b.limit →
      (∃ r b', Metered.Yields ((ofBody p body settings).propagatePointers f) b r b') ∧
      ∃ r b', Metered.Yields (closeEscape f) b r b') ∧
    (∀ (g : Graph) f c n, ¬ (g.apply f c).1.escapeOf n < f.escapeOf n) ∧
    (∀ f k pending n, ¬ (promote k pending f).1.escapeOf n < f.escapeOf n) ∧
    ∀ (settings' : Settings) (b b' : Budget) (g : Graph) (changed : Bool),
      Metered.Yields ((ofBody p body settings).propagate settings') b (g, changed) b' →
      ∃ f, g = { ofBody p body settings with facts := f } ∧ (ofBody p body settings).Least f ∧
        (changed = true ↔ f ≠ (ofBody p body settings).facts) ∧
        (∀ cs, cs.Perm (ofBody p body settings).constraints →
          ∀ (settings₂ : Settings) (b₂ b₂' : Budget) (g₂ : Graph) (changed₂ : Bool),
          Metered.Yields (propagate { ofBody p body settings with constraints := cs } settings₂) b₂
            (g₂, changed₂) b₂' → g₂ = { g with constraints := cs } ∧ changed₂ = changed) ∧
        ∀ settings₂ : Settings, 1 ≤ settings₂.graphIterLimit →
          ∃ steps, ∀ b₂ : Budget, b₂.spent + steps ≤ b₂.limit →
            ∃ b₃, Metered.Yields (g.propagate settings₂) b₂ (g, false) b₃ := by
  have hbuilt := Built.ofBody p body settings
  generalize ofBody p body settings = g₀ at hbuilt
  refine ⟨?ends, fun g f c => kept_escapes.apply g f c,
    fun f k pending => kept_escapes.promote k pending f, fun settings' b b' g changed hy => ?answer⟩
  case ends =>
    refine ⟨max ((g₀.top.entries.length + 1) * (g₀.constraints.length + 1))
      ((2 * g₀.allocs.size + 1) * 2), fun f hf b hb => ?_⟩
    have hbelow := below_of_reached g₀.closed_top hbuilt.below_top hf
    obtain ⟨r₁, b₁, h₁, -⟩ := (propagatePointers_ends hbelow g₀.closed_top).ends b (by omega)
    obtain ⟨r₂, b₂, h₂, -⟩ := (closeEscape_ends hbelow g₀.closed_top).ends b (by omega)
    exact ⟨⟨r₁, b₁, h₁⟩, r₂, b₂, h₂⟩
  case answer =>
    obtain ⟨f, rfl, hleast, hfits, hch⟩ := hbuilt.least_of_propagate hy
    refine ⟨f, rfl, hleast, hch, fun cs hcs settings₂ b₂ b₂' g₂ changed₂ hy₂ => ?_,
      fun settings₂ hlimit => ?_⟩
    · have hbuilt₂ : Built { g₀ with constraints := cs } :=
        ⟨hbuilt.null, hbuilt.escapes, hbuilt.cells, hbuilt.blank, hbuilt.targets⟩
      obtain ⟨f₂, rfl, hleast₂, hfits₂, hch₂⟩ := hbuilt₂.least_of_propagate hy₂
      have hle : f ≤ f₂ := hleast.least f₂ hleast₂.above
        (hleast₂.closed.of_subset fun c hc => hcs.mem_iff.2 hc)
      have hge : f₂ ≤ f := hleast₂.least f hleast.above
        (hleast.closed.of_subset fun c hc => hcs.mem_iff.1 hc)
      obtain rfl : f = f₂ := hfits.eq_of_le (hfits₂.congr rfl rfl) hle hge
      exact ⟨rfl, Bool.eq_iff_iff.2 (hch₂.trans hch.symm)⟩
    · exact propagate_of_closed (g := { g₀ with facts := f }) (hfits.congr rfl hfits.versions)
        (hleast.closed.of_subset fun c hc => hc) hlimit

/-- The node that is linked and passed on escapes in the least facts, so they are new; propagating
them once more changes nothing. -/
theorem propagate_least_linkAndPass :
    ∃ (g : Graph) (f : Facts),
      g = { ofBody Machine.nodes Machine.linkAndPass.body {} with facts := f } ∧
      (ofBody Machine.nodes Machine.linkAndPass.body {}).Least f ∧ f.escapeOf 1 = .global ∧
      f ≠ (ofBody Machine.nodes Machine.linkAndPass.body {}).facts ∧
      ∃ steps, ∀ b : Budget, b.spent + steps ≤ b.limit →
        ∃ b', Metered.Yields (g.propagate {}) b (g, false) b' := by
  obtain ⟨⟨g, changed⟩, b, hy, hesc⟩ := Metered.exists_yields
    (x := (ofBody Machine.nodes Machine.linkAndPass.body {}).propagate {})
    (b := { limit := 30 }) (P := fun r => r.1.escapeOf 1 = .global && r.2)
    (by decide +kernel)
  simp only [Bool.and_eq_true, decide_eq_true_eq] at hesc
  obtain ⟨f, rfl, hleast, hch, -, hagain⟩ :=
    (propagate_least Machine.nodes Machine.linkAndPass.body {}).2.2.2 {} _ b _ _ hy
  exact ⟨_, f, rfl, hleast, hesc.1, hch.1 hesc.2, hagain {} (by decide)⟩

end Graph

end EscapeAnalysis
