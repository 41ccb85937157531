import EscapeAnalysis.Locking.Balance
import EscapeAnalysis.Proofs.Dominance

/-!
# Monitors along paths

Balance is decided by one visit to each block, with the first depth that comes there. What it
decides is a statement about all paths from the entry, however long (`MonitorOps.Even`). The depths
found are depths of paths (`MonitorOps.Found`), and a block that has been visited agrees with all
its successors (`MonitorOps.Visited`). So a search that comes to its end has seen the depth of every
path, and one that stops before has seen a path that falls below zero or two that disagree. A depth
grows along blocks that are visited once each, so it never exceeds the number of instructions.
-/

namespace EscapeAnalysis

open List

namespace Body

/-- The number of instructions in some blocks. -/
def placedIn (body : Body) (bs : List BlockId) : Nat :=
  (bs.map fun b => (body.block b).insts.length).sum

theorem placedIn_le {body : Body} {done bs : List BlockId} (hnodup : done.Nodup) (hsub : done ⊆ bs) :
    body.placedIn done ≤ body.placedIn bs := by
  obtain ⟨l, hperm, hl⟩ := subperm_of_subset hnodup hsub
  rw [placedIn, ← (hperm.map _).sum_eq]
  exact (hl.map _).sum_le_sum fun _ _ => Nat.zero_le _

end Body

namespace MonitorOps

variable {ops : MonitorOps} {body : Body} {n : Node} {b s : BlockId} {l : List BlockId}
  {x : InstId} {xs : List InstId} {i : Nat} {depth : Int} {done : List BlockId} {f : BalanceSearch}

theorem run_take_succ (hx : xs[i]? = some x) (depth : Int) :
    ops.run n (xs.take (i + 1)) depth = ops.run n (xs.take i) depth + ops.delta n x := by
  simp [run, take_add_one, hx]

theorem run_eq_of_delta (h : ∀ x ∈ xs, ops.delta n x = 0) (depth : Int) :
    ops.run n xs depth = depth := by
  induction xs generalizing depth with
  | nil => rfl
  | cons x xs ih =>
    show ops.run n xs (depth + ops.delta n x) = depth
    rw [h x (by simp), Int.add_zero]
    exact ih (fun y hy => h y (by simp [hy])) depth

/-- An operation enters once or exits once. -/
def Single (ops : MonitorOps) : Prop :=
  ∀ x op, ops.get? x = some op → op.delta = 1 ∨ op.delta = -1

theorem Single.delta_le (h : ops.Single) : ops.delta n x ≤ 1 := by
  rw [delta]
  split
  · rename_i op hop
    have := h x op hop
    split <;> omega
  · omega

theorem Single.run_le (h : ops.Single) (n : Node) (xs : List InstId) (depth : Int) :
    ops.run n xs depth ≤ depth + xs.length := by
  induction xs generalizing depth with
  | nil => simp [run]
  | cons x xs ih =>
    have hx : ops.delta n x ≤ 1 := h.delta_le
    have hrest : ops.run n (x :: xs) depth ≤ depth + ops.delta n x + xs.length := ih _
    rw [length_cons]
    omega

/-- What running through a block can end with. -/
theorem descend_cases (ops : MonitorOps) (n : Node) (xs : List InstId) (h : 0 ≤ depth) :
    ops.descend n xs depth = .ok (ops.run n xs depth) ∧
      (∀ i, 0 ≤ ops.run n (xs.take i) depth) ∨
    ops.descend n xs depth = .error .uneven ∧ (∃ i, ops.run n (xs.take i) depth < 0) ∨
    ops.descend n xs depth = .error .overflow ∧ ∃ i, 2 ^ 31 ≤ ops.run n (xs.take i) depth := by
  induction xs generalizing depth with
  | nil => exact .inl ⟨rfl, fun i => by simpa [run] using h⟩
  | cons x xs ih =>
    have hrun : ∀ i, ops.run n ((x :: xs).take (i + 1)) depth =
      ops.run n (xs.take i) (depth + ops.delta n x) := fun _ => rfl
    rw [descend]
    by_cases hneg : depth + ops.delta n x < 0
    · exact .inr (.inl ⟨if_pos hneg, 1, by simpa [run] using hneg⟩)
    · have hmax : Int32.maxValue.toInt = 2 ^ 31 - 1 := by decide
      by_cases hbig : Int32.maxValue.toInt < depth + ops.delta n x
      · have hle : 2 ^ 31 ≤ depth + ops.delta n x := by omega
        exact .inr (.inr ⟨by rw [if_neg hneg, if_pos hbig], 1, by simpa [run] using hle⟩)
      · rw [if_neg hneg, if_neg hbig]
        obtain ⟨hd, hup⟩ | ⟨hd, i, hi⟩ | ⟨hd, i, hi⟩ := ih (Int.not_lt.1 hneg)
        · refine .inl ⟨hd, fun i => ?_⟩
          cases i with
          | zero => simpa [run] using h
          | succ i => exact hrun i ▸ hup i
        · exact .inr (.inl ⟨hd, i + 1, hrun i ▸ hi⟩)
        · exact .inr (.inr ⟨hd, i + 1, hrun i ▸ hi⟩)

/-- How often the monitor is held at the start of the last block of a path, which comes first in
the list. -/
def depthAlong (ops : MonitorOps) (body : Body) (n : Node) : List BlockId → Int
  | _ :: p :: l => ops.run n (body.block p).insts (depthAlong ops body n (p :: l))
  | _ => 0

/-- No path from the entry ever exits more often than it has entered, and all paths to the start of
a block have the same depth there. -/
structure Even (ops : MonitorOps) (body : Body) (n : Node) : Prop where
  nonneg : ∀ {b l}, body.flow.Path (b :: l) → ∀ i,
    0 ≤ ops.run n ((body.block b).insts.take i) (ops.depthAlong body n (b :: l))
  agree : ∀ {b l l'}, body.flow.Path (b :: l) → body.flow.Path (b :: l') →
    ops.depthAlong body n (b :: l) = ops.depthAlong body n (b :: l')

/-- What the search knows: the depths found are depths of paths, and the blocks found are those
that are pending and those that are done, each once. -/
structure Found (ops : MonitorOps) (body : Body) (n : Node) (f : BalanceSearch)
    (done : List BlockId) : Prop where
  path : ∀ {b depth}, f.depths.lookup b = some depth →
    ∃ l, body.flow.Path (b :: l) ∧ ops.depthAlong body n (b :: l) = depth
  range : ∀ {b depth}, f.depths.lookup b = some depth → 0 ≤ depth ∧ depth ≤ body.placedIn done
  entry : f.depths.lookup body.entry = some 0
  mem_iff : ∀ {b}, b ∈ f.pending ++ done ↔ ∃ depth, f.depths.lookup b = some depth
  nodup : (f.pending ++ done).Nodup

/-- The blocks that are done stay above zero and agree with their successors. -/
def Visited (ops : MonitorOps) (body : Body) (n : Node) (f : BalanceSearch)
    (done : List BlockId) : Prop :=
  ∀ b ∈ done, ∀ depth, f.depths.lookup b = some depth →
    (∀ i, 0 ≤ ops.run n ((body.block b).insts.take i) depth) ∧
    ∀ s, body.flow.Edge b s → f.depths.lookup s = some (ops.run n (body.block b).insts depth)

theorem lookup_cons_eq {c : BlockId} {d : Int} {t : List (BlockId × Int)} :
    ((b, d) :: t).lookup c = if c = b then some d else t.lookup c := by
  by_cases h : c = b
  · simp [h]
  · rw [lookup_cons, beq_eq_false_iff_ne.2 h, if_neg h]

theorem found_entry : ops.Found body n ⟨[(body.entry, 0)], [body.entry]⟩ [] := by
  have hlook : ∀ {b} {d : Int}, [(body.entry, 0)].lookup b = some d → b = body.entry ∧ d = 0 := by
    intro b d h
    rw [lookup_cons_eq] at h
    split at h
    · exact ⟨‹_›, (Option.some.inj h).symm⟩
    · cases h
  refine ⟨fun h => ?_, fun h => ?_, lookup_cons_self, fun {b} => ⟨fun h => ?_, fun ⟨d, h⟩ => ?_⟩,
    by simp⟩
  · obtain ⟨rfl, rfl⟩ := hlook h
    exact ⟨[], .entry, rfl⟩
  · obtain ⟨-, rfl⟩ := hlook h
    exact ⟨Int.le_refl 0, Int.natCast_nonneg _⟩
  · rw [append_nil, mem_singleton] at h
    exact ⟨0, h ▸ lookup_cons_self⟩
  · simp [(hlook h).1]

/-- The next block is taken from the list. -/
theorem Found.pop {t pending} (h : ops.Found body n ⟨t, b :: pending⟩ done) :
    ops.Found body n ⟨t, pending⟩ (b :: done) where
  path := h.path
  range hc := by
    have := h.range hc
    simp only [Body.placedIn, map_cons, sum_cons] at this ⊢
    omega
  entry := h.entry
  mem_iff := by
    intro c
    rw [← h.mem_iff]
    exact perm_middle.mem_iff
  nodup := perm_middle.nodup_iff.2 h.nodup

/-- A block that had no depth yet gets the depth of the path that leads there. -/
theorem Found.add (h : ops.Found body n f done) (hs : f.depths.lookup s = none)
    (hpath : body.flow.Path (s :: l))
    (hrange : 0 ≤ ops.depthAlong body n (s :: l) ∧
      ops.depthAlong body n (s :: l) ≤ body.placedIn done) :
    ops.Found body n ⟨(s, ops.depthAlong body n (s :: l)) :: f.depths, s :: f.pending⟩ done := by
  refine ⟨fun {c d} hc => ?_, fun {c d} hc => ?_, ?_, fun {c} => ?_, ?_⟩
  · rw [lookup_cons_eq] at hc
    split at hc
    · cases hc
      exact ⟨l, ‹c = s› ▸ hpath, ‹c = s› ▸ rfl⟩
    · exact h.path hc
  · rw [lookup_cons_eq] at hc
    split at hc
    · cases hc
      exact hrange
    · exact h.range hc
  · rw [lookup_cons_eq, if_neg, h.entry]
    rintro rfl
    simp [h.entry] at hs
  · rw [cons_append, mem_cons, h.mem_iff, lookup_cons_eq]
    by_cases hc : c = s <;> simp [hc]
  · refine nodup_cons.2 ⟨fun hmem => ?_, h.nodup⟩
    obtain ⟨d, hd⟩ := h.mem_iff.1 hmem
    simp [hs] at hd

theorem search_of_descend_error {t pending balance} (hb : t.lookup b = some depth)
    (hd : ops.descend n (body.block b).insts depth = .error balance) :
    ops.search body n ⟨t, b :: pending⟩ = balance := by
  rw [search, hb, Option.getD_some, hd]

theorem search_of_descend {t pending d} (hb : t.lookup b = some depth)
    (hd : ops.descend n (body.block b).insts depth = .ok d) :
    ops.search body n ⟨t, b :: pending⟩ =
      (BalanceSearch.offer body.flow.blocks d (body.block b).term.targets ⟨t, pending⟩).elim
        .uneven (ops.search body n) := by
  rw [search, hb, Option.getD_some, hd]
  dsimp only
  split <;> simp [*]

section Search

variable (hwf : body.WellFormed)
include hwf

/-- Offering the depth at the end of a path to successors of its last block: a refusal shows two
paths that disagree, and otherwise all of them have that depth. -/
theorem Found.offer (hpath : body.flow.Path (b :: l)) {d : Int}
    (hd : d = ops.run n (body.block b).insts (ops.depthAlong body n (b :: l)))
    (hrange : 0 ≤ d ∧ d ≤ body.placedIn done) :
    ∀ {ss : List BlockId} {f : BalanceSearch}, (∀ s ∈ ss, s ∈ (body.block b).term.targets) →
      ops.Found body n f done →
      (BalanceSearch.offer body.flow.blocks d ss f = none ∧ ¬ ops.Even body n) ∨
      ∃ f', BalanceSearch.offer body.flow.blocks d ss f = some f' ∧ ops.Found body n f' done ∧
        (∀ {c e}, f.depths.lookup c = some e → f'.depths.lookup c = some e) ∧
        ∀ s ∈ ss, s ∈ body.flow.blocks → f'.depths.lookup s = some d
  | [], f, _, h => .inr ⟨f, rfl, h, id, by simp⟩
  | s :: ss, f, hss, h => by
    have hrest : ∀ s ∈ ss, s ∈ (body.block b).term.targets := fun s' hs' => hss s' (.tail _ hs')
    rw [BalanceSearch.offer]
    rcases hs : f.depths.lookup s with _ | e
    · by_cases hlive : s ∈ body.flow.blocks
      · have hnew : body.flow.Path (s :: b :: l) :=
          .step hpath (Body.edge_iff.2 ⟨hss s (by simp), hlive⟩)
        have hdepth : ops.depthAlong body n (s :: b :: l) = d := hd.symm
        have hadd := h.add hs hnew (hdepth ▸ hrange)
        rw [hdepth] at hadd
        simp only [hlive, if_true]
        obtain hbad | ⟨f', hf', hfound, hkeep, hall⟩ :=
          Found.offer hpath hd hrange hrest hadd
        · exact .inl hbad
        · have hkept : ∀ {c e}, f.depths.lookup c = some e → f'.depths.lookup c = some e := by
            intro c e hc
            refine hkeep ?_
            rw [lookup_cons_eq, if_neg, hc]
            rintro rfl
            simp [hs] at hc
          refine .inr ⟨f', hf', hfound, hkept, fun s' hs' hlive' => ?_⟩
          rcases mem_cons.1 hs' with rfl | hs'
          · exact hkeep lookup_cons_self
          · exact hall s' hs' hlive'
      · simp only [hlive, if_false]
        refine (Found.offer hpath hd hrange hrest h).imp_right ?_
        rintro ⟨f', hf', hfound, hkeep, hall⟩
        refine ⟨f', hf', hfound, hkeep, fun s' hs' hlive' => ?_⟩
        rcases mem_cons.1 hs' with rfl | hs'
        · exact absurd hlive' hlive
        · exact hall s' hs' hlive'
    · by_cases he : e = d
      · subst he
        simp only [if_true]
        refine (Found.offer hpath hd hrange hrest h).imp_right ?_
        rintro ⟨f', hf', hfound, hkeep, hall⟩
        refine ⟨f', hf', hfound, hkeep, fun s' hs' hlive' => ?_⟩
        rcases mem_cons.1 hs' with rfl | hs'
        · exact hkeep hs
        · exact hall s' hs' hlive'
      · refine .inl ⟨by simp only [he, if_false], fun heven => he ?_⟩
        obtain ⟨l', hpath', rfl⟩ := h.path hs
        have hlive := hwf.live_of_mem_order (Body.mem_order_iff.2 ⟨l', hpath'⟩)
        have hnew : body.flow.Path (s :: b :: l) :=
          .step hpath (Body.edge_iff.2 ⟨hss s (by simp), hlive⟩)
        rw [heven.agree hpath' hnew, hd]
        rfl

omit hwf in
/-- Where all that was found has been visited, the depths found are those of all paths. -/
theorem Found.even {t} (h : ops.Found body n ⟨t, []⟩ done)
    (hvisited : ops.Visited body n ⟨t, []⟩ done) : ops.Even body n := by
  have hdone : ∀ {b d}, t.lookup b = some d → b ∈ done := fun hb => h.mem_iff.2 ⟨_, hb⟩
  have hdepth : ∀ {b l}, body.flow.Path (b :: l) →
      t.lookup b = some (ops.depthAlong body n (b :: l)) := by
    intro b l hpath
    generalize hm : b :: l = m at hpath
    induction hpath generalizing b l with
    | entry =>
      cases hm
      exact h.entry
    | step _ e ih =>
      cases hm
      have hp := ih rfl
      exact (hvisited _ (hdone hp) _ hp).2 _ e
  refine ⟨fun hpath i => ?_, fun hpath hpath' => ?_⟩
  · exact (hvisited _ (hdone (hdepth hpath)) _ (hdepth hpath)).1 i
  · exact Option.some.inj ((hdepth hpath).symm.trans (hdepth hpath'))

omit hwf in
theorem Visited.cons {f f' : BalanceSearch} (h : ops.Visited body n f done)
    (hfound : ops.Found body n f done)
    (hkeep : ∀ {c e}, f.depths.lookup c = some e → f'.depths.lookup c = some e)
    (hb : f.depths.lookup b = some depth)
    (hup : ∀ i, 0 ≤ ops.run n ((body.block b).insts.take i) depth)
    (hnext : ∀ s, body.flow.Edge b s →
      f'.depths.lookup s = some (ops.run n (body.block b).insts depth)) :
    ops.Visited body n f' (b :: done) := by
  intro c hc e he
  rcases mem_cons.1 hc with rfl | hc
  · obtain rfl : depth = e := by simpa [hkeep hb] using he
    exact ⟨hup, hnext⟩
  · obtain ⟨e', he'⟩ := hfound.mem_iff.1 (mem_append_right _ hc)
    obtain rfl : e' = e := by simpa [hkeep he'] using he
    exact ⟨(h c hc _ he').1, fun s hs => hkeep ((h c hc _ he').2 s hs)⟩

/-- What the search answers, from any point on. -/
theorem Found.search (hsingle : ops.Single) {f : BalanceSearch} {done : List BlockId}
    (h : ops.Found body n f done) (hvisited : ops.Visited body n f done) :
    ops.search body n f = .even ∧ ops.Even body n ∨
    ops.search body n f = .uneven ∧ ¬ ops.Even body n ∨
    ops.search body n f = .overflow ∧ 2 ^ 31 ≤ body.placedIn body.flow.blocks := by
  induction hm : f.room body.flow.blocks using Nat.strongRecOn generalizing f done with
  | ind m ih =>
  obtain ⟨t, _ | ⟨b, pending⟩⟩ := f
  · rw [MonitorOps.search]
    exact .inl ⟨rfl, h.even hvisited⟩
  · have hpop := h.pop
    obtain ⟨d, hb⟩ := h.mem_iff.1 (show b ∈ b :: pending ++ done by simp)
    obtain ⟨l, hpath, rfl⟩ := h.path hb
    have hle : ∀ i, ops.run n ((body.block b).insts.take i) (ops.depthAlong body n (b :: l)) ≤
        body.placedIn (b :: done) := by
      intro i
      have hrun := hsingle.run_le n ((body.block b).insts.take i) (ops.depthAlong body n (b :: l))
      have hlen := length_take_le' i (body.block b).insts
      have hrange := (h.range hb).2
      simp only [Body.placedIn, map_cons, sum_cons] at hrange ⊢
      omega
    obtain ⟨hok, hup⟩ | ⟨hneg, i, hi⟩ | ⟨hbig, i, hi⟩ :=
      descend_cases ops n (body.block b).insts (h.range hb).1
    · rw [search_of_descend hb hok]
      have hend := And.intro (hup (body.block b).insts.length) (hle (body.block b).insts.length)
      rw [take_length] at hend
      obtain ⟨hnone, hne⟩ | ⟨f', hf', hfound, hkeep, hall⟩ :=
        hpop.offer hwf hpath rfl hend fun _ => id
      · exact .inr (.inl ⟨by rw [hnone]; rfl, hne⟩)
      · rw [hf']
        refine ih _ ?_ hfound (hvisited.cons h hkeep hb hup fun s e => ?_) rfl
        · have := BalanceSearch.room_offer_le hf'
          simp only [BalanceSearch.room, length_cons] at this hm ⊢
          omega
        · exact hall s (Body.edge_iff.1 e).1 e.2
    · rw [search_of_descend_error hb hneg]
      exact .inr (.inl ⟨rfl, fun heven => Int.not_lt.2 (heven.nonneg hpath i) hi⟩)
    · rw [search_of_descend_error hb hbig]
      have hsub : body.placedIn (b :: done) ≤ body.placedIn body.flow.blocks := by
        refine Body.placedIn_le (nodup_append.1 hpop.nodup).2.1 fun c hc => ?_
        obtain ⟨e, he⟩ := hpop.mem_iff.1 (mem_append_right pending hc)
        obtain ⟨l', hpath', -⟩ := h.path he
        exact hwf.live_of_mem_order (Body.mem_order_iff.2 ⟨l', hpath'⟩)
      have := hle i
      exact .inr (.inr ⟨rfl, by omega⟩)

/-- The search finds out whether the monitor operations on a node are balanced along all paths. It
runs out of 32 bits only in a body of as many instructions. -/
theorem balance_exact (hsingle : ops.Single) :
    ops.balance body n = .even ∧ ops.Even body n ∨
    ops.balance body n = .uneven ∧ ¬ ops.Even body n ∨
    ops.balance body n = .overflow ∧ 2 ^ 31 ≤ body.placedIn body.flow.blocks :=
  found_entry.search hwf hsingle (by simp [Visited])

end Search

/-- Makes a lock, holds it around a loop that takes it once more in each round, and gives it back.
With `lockOnce` the loop does not give its own hold back. -/
def lockAround (lockOnce : Bool) : Body where
  blocks := .ofEntries
    [{ insts := [⟨0, 1⟩, ⟨1, 1⟩, ⟨2, 1⟩], term := .jump ⟨1, 1⟩ },
      { insts := ⟨3, 1⟩ :: if lockOnce then [] else [⟨4, 1⟩]
        term := .branch ⟨0, 1⟩ ⟨1, 1⟩ ⟨2, 1⟩ },
      { insts := [⟨5, 1⟩], term := .ret none }]
  insts := .ofEntries
    [⟨.param 0, some .int⟩, ⟨.new ⟨0, 1⟩, some .ref⟩, ⟨.monitorEnter ⟨1, 1⟩, none⟩,
      ⟨.monitorEnter ⟨1, 1⟩, none⟩, ⟨.monitorExit ⟨1, 1⟩, none⟩, ⟨.monitorExit ⟨1, 1⟩, none⟩]
  states := .ofEntries []
  entry := ⟨0, 1⟩
  params := [.int]
  ret := none

def lockAroundOps : MonitorOps :=
  .ofList [(⟨2, 1⟩, ⟨.alloc 0, 1⟩), (⟨3, 1⟩, ⟨.alloc 0, 1⟩), (⟨4, 1⟩, ⟨.alloc 0, -1⟩),
    (⟨5, 1⟩, ⟨.alloc 0, -1⟩)]

theorem balance_exact_lockAround :
    (lockAroundOps.balance (lockAround false) (.alloc 0) = .even ∧
      lockAroundOps.Even (lockAround false) (.alloc 0)) ∧
    lockAroundOps.balance (lockAround true) (.alloc 0) = .uneven ∧
      ¬ lockAroundOps.Even (lockAround true) (.alloc 0) := by
  have hsingle : lockAroundOps.Single := by
    intro x op hop
    have hmem := SideTable.mem_of_get?_ofList hop
    simp only [mem_cons, Prod.mk.injEq, not_mem_nil, or_false] at hmem
    rcases hmem with ⟨-, rfl⟩ | ⟨-, rfl⟩ | ⟨-, rfl⟩ | ⟨-, rfl⟩ <;> decide
  have hexact := fun lockOnce => balance_exact (n := .alloc 0)
    (show (lockAround lockOnce).WellFormed from .ofEntries rfl) hsingle
  have heven : lockAroundOps.balance (lockAround false) (.alloc 0) = .even := by cbv
  have hodd : lockAroundOps.balance (lockAround true) (.alloc 0) = .uneven := by cbv
  have hfalse := hexact false
  have htrue := hexact true
  simp only [heven, reduceCtorEq, false_and, or_false, true_and] at hfalse
  simp only [hodd, reduceCtorEq, false_and, or_false, false_or, true_and] at htrue
  exact ⟨⟨heven, hfalse⟩, hodd, htrue⟩

end MonitorOps

end EscapeAnalysis
