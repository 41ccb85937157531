import EscapeAnalysis.Flow.Region
import EscapeAnalysis.Proofs.Checking
import EscapeAnalysis.Proofs.Frontiers

/-!
# Order, regions and paths

In reverse post-order an edge leads on unless it closes a cycle (`Body.order_exact`).

`Body.between` gives exactly the positions on some path from the start of a block to a point
(`Body.between_exact`). The region grows as the point moves on, so what a run has executed since it
last entered the first block is always in the region that ends where the run stands.
-/

namespace EscapeAnalysis

open List

/-- A path, possibly empty, leads from one block to another. -/
inductive Flow.Leads (g : Flow) (a : BlockId) : BlockId → Prop
  | refl : g.Leads a a
  | step {b c} : g.Leads a b → g.Edge b c → g.Leads a c

namespace Flow.Leads

variable {g : Flow} {a b c : BlockId}

theorem trans (hab : g.Leads a b) (hbc : g.Leads b c) : g.Leads a c := by
  induction hbc with
  | refl => exact hab
  | step _ e ih => exact ih.step e

theorem head (h : g.Leads a b) : a = b ∨ ∃ c, g.Edge a c ∧ g.Leads c b := by
  induction h with
  | refl => exact .inl rfl
  | @step b c _ e ih =>
    rcases ih with rfl | ⟨d, ed, hd⟩
    · exact .inr ⟨c, e, .refl⟩
    · exact .inr ⟨d, ed, hd.step e⟩

end Flow.Leads

namespace Body

variable {body : Body} {first last b c s : BlockId} {x : InstId} {i j k : Nat} {stop : Point}

theorem mem_order_of_leads (h : body.flow.Leads b c) (hb : b ∈ body.order) : c ∈ body.order := by
  induction h with
  | refl => exact hb
  | step _ e ih => exact mem_order_of_edge ih e

theorem leads_of_transGen (hc : c ∈ body.flow.blocks)
    (h : Relation.TransGen (fun a b => b ∈ body.flow.succs a) b c) : body.flow.Leads b c := by
  induction h with
  | single e => exact Flow.Leads.refl.step (edge_iff.2 ⟨e, hc⟩)
  | tail _ e ih => exact (ih (mem_flow_blocks_of_succ e)).step (edge_iff.2 ⟨e, hc⟩)

/-- The target of an edge comes later in the order, or leads back to the source. -/
theorem before_or_leads (hb : b ∈ body.order) (e : body.flow.Edge b c) :
    Before b c body.order ∨ body.flow.Leads c b := by
  obtain ⟨hsucc, hlive⟩ := edge_iff.1 e
  refine ((complete_order body).back b hb c hsucc hlive).imp_right fun ⟨_, hback⟩ => ?_
  rcases hback with rfl | hback
  · exact .refl
  · exact leads_of_transGen (mem_flow_blocks_of_succ hsucc) hback

/-- Reverse post-order lists what the entry reaches, the entry first and every other block after
one of its predecessors. An edge that does not lead on in it lies on a cycle, so the order of a
graph without cycles is topological. -/
theorem order_exact (hwf : body.WellFormed) :
    body.flow.order.blocks.Nodup ∧ body.flow.order.blocks.head? = some body.entry ∧
    (∀ b, b ∈ body.flow.order.blocks ↔ body.flow.Reachable b) ∧
    (∀ b i, body.flow.order.index? b = some i ↔ body.flow.order.blocks[i]? = some b) ∧
    (∀ b i, body.flow.order.index? b = some i → b ≠ body.entry →
      ∃ p j, body.flow.Edge p b ∧ body.flow.order.index? p = some j ∧ j < i) ∧
    (∀ u v i j, body.flow.Edge u v → body.flow.order.index? u = some i →
      body.flow.order.index? v = some j → j ≤ i → body.flow.Leads v u) ∧
    ((∀ u v, body.flow.Reachable u → body.flow.Edge u v → ¬ body.flow.Leads v u) →
      ∀ u v i j, body.flow.Edge u v → body.flow.order.index? u = some i →
        body.flow.order.index? v = some j → i < j) := by
  have hlt : ∀ {u v i j}, Before u v body.flow.order.blocks → body.flow.order.index? u = some i →
      body.flow.order.index? v = some j → i < j := by
    intro u v i j huv hi hj
    have := huv.idxOf_lt (nodup_order body)
    rwa [idxOf_order (hwf.index?_eq_some_iff.1 hi), idxOf_order (hwf.index?_eq_some_iff.1 hj)]
      at this
  have hback : ∀ {u v i j}, body.flow.Edge u v → body.flow.order.index? u = some i →
      body.flow.order.index? v = some j → i < j ∨ body.flow.Leads v u := fun e hi hj =>
    (before_or_leads (mem_of_getElem? (hwf.index?_eq_some_iff.1 hi)) e).imp_left
      fun huv => hlt huv hi hj
  refine ⟨nodup_order body, (complete_order body).head, fun b => mem_order_iff,
    fun b i => hwf.index?_eq_some_iff, fun b i hi hne => ?_, fun u v i j e hi hj hle => ?_,
    fun hacyclic u v i j e hi hj => ?_⟩
  · have hb := mem_of_getElem? (hwf.index?_eq_some_iff.1 hi)
    obtain ⟨p, hp, hbefore⟩ := (order_parent hb).resolve_left hne
    obtain ⟨j, hj⟩ := mem_iff_getElem?.1 hbefore.left_mem
    have hj := hwf.index?_eq_some_iff.2 hj
    exact ⟨p, j, edge_iff.2 ⟨hp, hwf.live_of_mem_order hb⟩, hj, hlt hbefore hj hi⟩
  · exact (hback e hi hj).resolve_left (by omega)
  · have hu := mem_order_iff.1 (mem_of_getElem? (hwf.index?_eq_some_iff.1 hi))
    exact (hback e hi hj).resolve_right (hacyclic u v hu e)

theorem order_exact_loopedChoice :
    DomTree.loopedChoice.flow.order.blocks =
      [⟨0, 1⟩, ⟨1, 1⟩, ⟨5, 1⟩, ⟨2, 1⟩, ⟨4, 1⟩, ⟨3, 1⟩, ⟨6, 1⟩] ∧
    DomTree.loopedChoice.flow.Leads ⟨1, 1⟩ ⟨6, 1⟩ := by
  obtain ⟨-, -, -, -, -, hback, -⟩ := order_exact DomTree.wellFormed_loopedChoice
  have e : DomTree.loopedChoice.flow.Edge ⟨6, 1⟩ ⟨1, 1⟩ := edge_iff.2 (by decide)
  exact ⟨by decide +kernel, hback _ _ 6 1 e (by decide +kernel) (by decide +kernel) (by decide)⟩

section Closure

variable (hwf : body.WellFormed)
include hwf

theorem mem_closure_succs (hb : b ∈ body.order) :
    c ∈ Flow.closure body.flow.order body.flow.succs b ↔ body.flow.Leads b c := by
  rw [Flow.closure, mem_filter, hwf.reaches_iff]
  constructor
  · rintro ⟨hc, -⟩
    refine flood_induction _ (fun p s hp hs ho => ?_) _ _ (fun a ha => ?_) c hc
    · exact hp.step (edge_iff.2 ⟨hs, hwf.live_of_mem_order ho⟩)
    · rw [mem_singleton.1 ha]
      exact .refl
  · intro h
    refine ⟨?_, mem_order_of_leads h hb⟩
    obtain ⟨hstart, hnext⟩ := mem_flood .newestFirst body.order body.flow.succs [b] [b]
    induction h with
    | refl => exact hstart b (by simp)
    | @step p s hp e ih =>
      have hs := mem_order_of_edge (mem_order_of_leads hp hb) e
      refine (hnext p ih s (edge_iff.1 e).1 hs).elim (fun hm => ?_) id
      exact hstart s hm

theorem mem_closure_preds (hb : b ∈ body.order) :
    c ∈ Flow.closure body.flow.order body.flow.preds b ↔
      c ∈ body.order ∧ body.flow.Leads c b := by
  rw [Flow.closure, mem_filter, hwf.reaches_iff]
  constructor
  · rintro ⟨hc, -⟩
    refine flood_induction (P := fun c => c ∈ body.order ∧ body.flow.Leads c b) _
      (fun s p hs hp ho => ⟨ho, ?_⟩) _ _ (fun a ha => ?_) c hc
    · exact (Flow.Leads.refl.step ⟨hp, hwf.live_of_mem_order hs.1⟩).trans hs.2
    · rw [mem_singleton.1 ha]
      exact ⟨hb, .refl⟩
  · rintro ⟨ho, h⟩
    refine ⟨?_, ho⟩
    obtain ⟨hstart, hnext⟩ := mem_flood .newestFirst body.order body.flow.preds [b] [b]
    -- Whatever leads to a visited block is visited.
    have hback : ∀ d, body.flow.Leads c d →
        d ∈ flood .newestFirst body.order body.flow.preds [b] [b] →
        c ∈ flood .newestFirst body.order body.flow.preds [b] [b] := by
      intro d hd
      induction hd with
      | refl => exact id
      | @step p s hp e ih =>
        intro hs
        refine ih ((hnext s hs p e.1 (mem_order_of_leads hp ho)).elim (fun hm => ?_) id)
        exact hstart p hm
    exact hback b h (hstart b (by simp))

theorem mem_blocksBetween (hf : first ∈ body.order) (hl : last ∈ body.order) :
    c ∈ body.flow.blocksBetween body.flow.order first last ↔
      body.flow.Leads first c ∧ body.flow.Leads c last := by
  simp only [Flow.blocksBetween, mem_filter, Bool.and_eq_true, decide_eq_true_eq,
    mem_closure_succs hwf hf, mem_closure_preds hwf hl]
  exact ⟨fun h => ⟨h.2.1, h.2.2.2⟩,
    fun h => ⟨mem_order_of_leads h.1 hf, h.1, mem_order_of_leads h.1 hf, h.2⟩⟩

end Closure

/-- The instruction at position `k` of block `c` can run on the way from the start of `first` to the
point. -/
structure Between (body : Body) (first : BlockId) (stop : Point) (c : BlockId) (k : Nat) :
    Prop where
  from_first : body.flow.Leads first c
  to_stop : body.flow.Leads c stop.block
  bound : ∀ i, stop = .before c i → k < i ∨ ∃ s, body.flow.Edge c s ∧ body.flow.Leads s c

section

variable (hwf : body.WellFormed) (hf : first ∈ body.order)
include hwf hf

theorem any_succs_iff (hb : b ∈ body.order) (hfb : body.flow.Leads first b) :
    ((body.flow.succs b).any (· ∈ body.flow.blocksBetween body.flow.order first b)) = true ↔
      ∃ s, body.flow.Edge b s ∧ body.flow.Leads s b := by
  simp only [any_eq_true, decide_eq_true_eq, mem_blocksBetween hwf hf hb]
  constructor
  · rintro ⟨s, hmem, hfs, hsb⟩
    exact ⟨s, edge_iff.2 ⟨hmem, hwf.live_of_mem_order (mem_order_of_leads hfs hf)⟩, hsb⟩
  · rintro ⟨s, e, hsb⟩
    exact ⟨s, (edge_iff.1 e).1, hfb.step e, hsb⟩

theorem exists_mem_between (hs : stop.block ∈ body.order) (hk : k < (body.block c).insts.length) :
    (∃ n, (c, n) ∈ body.between body.flow.order first stop ∧ k < n) ↔
      body.Between first stop c k := by
  simp only [between, mem_map, Prod.mk.injEq, mem_blocksBetween hwf hf hs]
  constructor
  · rintro ⟨_, ⟨c, ⟨hfc, hcs⟩, rfl, rfl⟩, hlt⟩
    refine ⟨hfc, hcs, fun i he => ?_⟩
    subst he
    have hag := any_succs_iff hwf hf hs hfc
    simp only [Point.block, true_and] at hlt hag
    split at hlt
    · exact .inl hlt
    · rename_i hyes
      exact .inr (hag.1 (by simpa only [Bool.not_eq_true, Bool.not_eq_false'] using hyes))
  · intro hb
    refine ⟨_, ⟨c, ⟨hb.from_first, hb.to_stop⟩, rfl, rfl⟩, ?_⟩
    cases stop with
    | atEnd b => exact hk
    | before b i =>
      dsimp only
      split
      · rename_i hno
        obtain ⟨rfl, hno⟩ := hno
        have hag := any_succs_iff hwf hf hs hb.from_first
        refine (hb.bound i rfl).resolve_right fun hyes => ?_
        rw [Bool.not_eq_true'] at hno
        exact absurd (hag.2 hyes) (Bool.eq_false_iff.1 hno)
      · exact hk

theorem mem_instsBetween (hs : stop.block ∈ body.order) (hx : (body.block c).insts[k]? = some x)
    (hb : body.Between first stop c k) : x ∈ body.instsBetween body.flow.order first stop := by
  obtain ⟨n, hmem, hlt⟩ :=
    (exists_mem_between hwf hf hs (List.getElem?_eq_some_iff.1 hx).1).2 hb
  refine mem_flatMap.2 ⟨(c, n), hmem, mem_of_getElem? (i := k) ?_⟩
  rw [List.getElem?_take, if_pos hlt, hx]

end

/-- One step of control: past an instruction, or over an edge from the end of a block. -/
inductive Advance (body : Body) : BlockId × Nat → BlockId × Nat → Prop
  | inst (b : BlockId) (i : Nat) : i < (body.block b).insts.length → Advance body (b, i) (b, i + 1)
  | edge (b s : BlockId) : body.flow.Edge b s →
      Advance body (b, (body.block b).insts.length) (s, 0)

/-- The block of a point with the number of instructions in front of it there. -/
def locate (body : Body) : Point → BlockId × Nat
  | .before b i => (b, i)
  | .atEnd b => (b, (body.block b).insts.length)

namespace Advance

variable {p q : BlockId × Nat}

open Relation (ReflTransGen)

theorem forward (hj : j ≤ (body.block b).insts.length) (hij : i ≤ j) :
    ReflTransGen body.Advance (b, i) (b, j) := by
  induction hij with
  | refl => exact .refl
  | @step j _ ih => exact (ih (by omega)).tail (.inst b j hj)

theorem of_edge (hi : i ≤ (body.block b).insts.length) (e : body.flow.Edge b s)
    (h : body.flow.Leads s c) : ReflTransGen body.Advance (b, i) (c, 0) := by
  induction h with
  | refl => exact (forward (Nat.le_refl _) hi).tail (.edge b s e)
  | step _ e ih => exact (ih.trans (forward (Nat.le_refl _) (Nat.zero_le _))).tail (.edge _ _ e)

theorem of_leads (h : body.flow.Leads b c) (hi : i ≤ (body.block c).insts.length) :
    ReflTransGen body.Advance (b, 0) (c, i) := by
  refine .trans ?_ (forward hi (Nat.zero_le i))
  rcases h.head with rfl | ⟨s, e, hs⟩
  · exact .refl
  · exact of_edge (Nat.zero_le _) e hs

/-- A way stays in its block, or leaves it over an edge. -/
theorem cases_of_steps (h : ReflTransGen body.Advance p q) :
    p.1 = q.1 ∧ p.2 ≤ q.2 ∨ ∃ s, body.flow.Edge p.1 s ∧ body.flow.Leads s q.1 := by
  induction h with
  | refl => exact .inl ⟨rfl, Nat.le_refl _⟩
  | tail _ hstep ih =>
    cases hstep with
    | inst b i hi => exact ih.imp_left fun ⟨hb, hle⟩ => ⟨hb, Nat.le_succ_of_le hle⟩
    | edge b s e =>
      rcases ih with ⟨rfl, -⟩ | ⟨r, er, hr⟩
      · exact .inr ⟨s, e, .refl⟩
      · exact .inr ⟨r, er, hr.step e⟩

theorem leads (h : ReflTransGen body.Advance p q) : body.flow.Leads p.1 q.1 := by
  rcases cases_of_steps h with ⟨heq, -⟩ | ⟨s, e, hs⟩
  · exact heq ▸ .refl
  · exact (Flow.Leads.refl.step e).trans hs

end Advance

theorem fst_locate : (body.locate stop).1 = stop.block := by cases stop <;> rfl

theorem between_iff_steps (hk : k < (body.block c).insts.length)
    (hstop : (body.locate stop).2 ≤ (body.block stop.block).insts.length) :
    body.Between first stop c k ↔ Relation.ReflTransGen body.Advance (first, 0) (c, k) ∧
      Relation.ReflTransGen body.Advance (c, k + 1) (body.locate stop) := by
  have hdone : Relation.ReflTransGen body.Advance (stop.block, 0) (body.locate stop) := by
    rw [← fst_locate] at hstop
    exact fst_locate ▸ Advance.forward hstop (Nat.zero_le _)
  constructor
  · intro h
    refine ⟨Advance.of_leads h.from_first (Nat.le_of_lt hk), ?_⟩
    rcases h.to_stop.head with rfl | ⟨s, e, hs⟩
    · cases stop with
      | atEnd b => exact Advance.forward (Nat.le_refl _) hk
      | before b i =>
        rcases h.bound i rfl with hlt | ⟨s, e, hs⟩
        · exact Advance.forward hstop hlt
        · exact (Advance.of_edge hk e hs).trans hdone
    · exact (Advance.of_edge hk e hs).trans hdone
  · rintro ⟨hfirst, hlast⟩
    refine ⟨Advance.leads hfirst, fst_locate ▸ Advance.leads hlast, fun i he => ?_⟩
    subst he
    exact (Advance.cases_of_steps hlast).imp_left fun h => h.2

/-- Between a block and a point stand exactly the instructions that some way of control from the
start of the block to the point executes. -/
theorem between_exact (hwf : body.WellFormed) (stop : Point) (c : BlockId) (k : Nat)
    (hf : body.flow.Reachable first) (hs : body.flow.Reachable stop.block)
    (hstop : (body.locate stop).2 ≤ (body.block stop.block).insts.length) :
    (∃ n, (c, n) ∈ body.between body.flow.order first stop ∧ k < n) ↔
      k < (body.block c).insts.length ∧
      Relation.ReflTransGen body.Advance (first, 0) (c, k) ∧
      Relation.ReflTransGen body.Advance (c, k + 1) (body.locate stop) := by
  have hlen : ∀ n, (c, n) ∈ body.between body.flow.order first stop →
      n ≤ (body.block c).insts.length := by
    intro n hn
    obtain ⟨d, -, hd⟩ := mem_map.1 hn
    cases hd
    cases stop with
    | atEnd b => exact Nat.le_refl _
    | before b i =>
      dsimp only
      split
      · rename_i hno
        exact hno.1 ▸ hstop
      · exact Nat.le_refl _
  by_cases hk : k < (body.block c).insts.length
  · rw [exists_mem_between hwf (mem_order_iff.2 hf) (mem_order_iff.2 hs) hk,
      between_iff_steps hk hstop]
    exact (and_iff_right hk).symm
  · exact ⟨fun ⟨n, hn, hlt⟩ => absurd (Nat.lt_of_lt_of_le hlt (hlen n hn)) hk,
      fun h => absurd h.1 hk⟩

theorem between_exact_loopedChoice :
    DomTree.loopedChoice.between DomTree.loopedChoice.flow.order ⟨0, 1⟩ (.atEnd ⟨6, 1⟩) =
      [(⟨0, 1⟩, 1), (⟨1, 1⟩, 0), (⟨2, 1⟩, 0), (⟨4, 1⟩, 0), (⟨3, 1⟩, 0), (⟨6, 1⟩, 0)] ∧
    Relation.ReflTransGen DomTree.loopedChoice.Advance (⟨0, 1⟩, 1) (⟨6, 1⟩, 0) := by
  have hb : DomTree.loopedChoice.between DomTree.loopedChoice.flow.order ⟨0, 1⟩ (.atEnd ⟨6, 1⟩) =
      [(⟨0, 1⟩, 1), (⟨1, 1⟩, 0), (⟨2, 1⟩, 0), (⟨4, 1⟩, 0), (⟨3, 1⟩, 0), (⟨6, 1⟩, 0)] := by
    decide +kernel
  have h := between_exact DomTree.wellFormed_loopedChoice (.atEnd ⟨6, 1⟩) ⟨0, 1⟩ 0 ⟨[], .entry⟩
    DomTree.reachable_loopedChoice (Nat.le_refl _)
  exact ⟨hb, (h.1 ⟨1, hb ▸ .head _, by decide⟩).2.2⟩

namespace Between

theorem mono (h : body.Between first (.before b i) c k) (hij : i ≤ j) :
    body.Between first (.before b j) c k := by
  refine ⟨h.from_first, h.to_stop, fun j' he => ?_⟩
  cases he
  exact (h.bound i rfl).imp_left (by omega)

theorem own (hf : body.flow.Leads first b) (hk : k < i) : body.Between first (.before b i) b k := by
  refine ⟨hf, .refl, fun i' he => ?_⟩
  cases he
  exact .inl hk

/-- Going over an edge keeps the region. Coming back to its own block makes that count in full. -/
theorem edge (h : body.Between first (.atEnd b) c k) (e : body.flow.Edge b s) :
    body.Between first (.before s i) c k := by
  refine ⟨h.from_first, h.to_stop.step e, fun i' he => .inr ?_⟩
  cases he
  rcases h.to_stop.head with hcb | ⟨d, ed, hd⟩
  · subst hcb
    exact ⟨_, e, .refl⟩
  · exact ⟨d, ed, hd.step e⟩

theorem atEnd (h : body.Between first (.before b i) c k) : body.Between first (.atEnd b) c k :=
  ⟨h.from_first, h.to_stop, fun _ he => nomatch he⟩

end Between

end Body

end EscapeAnalysis
