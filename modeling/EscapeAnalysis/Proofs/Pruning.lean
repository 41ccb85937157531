import EscapeAnalysis.Flow.Prune
import EscapeAnalysis.Proofs.CheckedRuns
import EscapeAnalysis.Proofs.Edits

/-!
# Pruning

Pruning leaves the blocks that the entry reaches, with their instructions and phi inputs. Only
barriers of stores in other blocks are lost. Reachability and dominance are the same, and what the
check finds available stays available (`Body.check_prune`).
-/

namespace EscapeAnalysis

open List SideTable SlotTable EscapeAnalysis.Except Checker

namespace SlotTable

variable {f : Family} {α : Type} {t : SlotTable f α}

theorem toList_eq {l} (hl : l.Pairwise fun x y => x.1.index < y.1.index)
    (h : ∀ k a, (k, a) ∈ l ↔ t.get? k = some a) : t.toList = l := by
  let r (x y : Key f × α) : Prop := x.1.index < y.1.index
  have : Std.Irrefl r := ⟨fun x => Nat.lt_irrefl x.1.index⟩
  have : Std.Antisymm r := ⟨fun x y hxy hyx => absurd hxy (Nat.lt_asymm hyx)⟩
  exact List.Pairwise.eq_of_mem_iff (r := r) t.pairwise_toList hl fun e =>
    mem_toList_iff.trans (h e.1 e.2).symm

theorem toList_filter (t : SlotTable f α) (p : Key f → α → Bool) :
    (t.filter p).toList = t.toList.filter fun e => p e.1 e.2 := by
  refine toList_eq (t.pairwise_toList.filter _) fun k a => ?_
  rw [mem_filter, mem_toList_iff, get?_filter, Option.filter_eq_some_iff]

end SlotTable

namespace Body

variable {body : Body} {b d : BlockId} {x y : InstId} {l : List BlockId}

/-- The instructions of the blocks that the entry does not reach. -/
def stranded (body : Body) : List InstId :=
  (body.blocks.toList.filter fun e => !body.flow.order.reaches e.1).flatMap fun e => e.2.insts

/-- What pruning takes out of the table: the stranded instructions and the barriers of stranded
stores. -/
def pruned (body : Body) : List InstId := body.stranded ++ body.barriersOf body.stranded

theorem mem_stranded (hwf : body.WellFormed) : x ∈ body.stranded ↔
    ∃ b, b ∉ body.order ∧ x ∈ (body.block b).insts := by
  simp only [stranded, mem_flatMap, mem_filter, Prod.exists, SlotTable.mem_toList_iff,
    Bool.not_eq_true', ← hwf.reaches_iff, Bool.not_eq_true]
  constructor
  · rintro ⟨b, block, ⟨hb, hreach⟩, hx⟩
    exact ⟨b, hreach, by simpa [Body.block, hb] using hx⟩
  · rintro ⟨b, hreach, hx⟩
    exact ⟨b, _, ⟨get?_of_mem_insts hx, hreach⟩, hx⟩

theorem prune_eq (body : Body) : body.prune =
    { body with
      blocks := (body.blocks.filter fun b _ => body.flow.order.reaches b).map fun block =>
        { block with insts := block.insts.filter (· ∉ body.pruned) }
      insts := (body.insts.filter fun x _ => x ∉ body.pruned).map fun inst =>
        { inst with op := inst.op.filterInputs body.flow.order.reaches } } := rfl

theorem get?_blocks_prune (body : Body) (b : BlockId) : body.prune.blocks.get? b =
    if body.flow.order.reaches b then (body.blocks.get? b).map fun block =>
      { block with insts := block.insts.filter (· ∉ body.pruned) }
    else none := by
  rw [prune_eq, get?_map, get?_filter]
  split <;> rename_i h <;> cases body.blocks.get? b <;> simp [Option.filter, h]

theorem inst?_prune (body : Body) (x : InstId) : body.prune.inst? x =
    if x ∈ body.pruned then none else (body.inst? x).map fun inst =>
      { inst with op := inst.op.filterInputs body.flow.order.reaches } := by
  rw [prune_eq, inst?, get?_map, get?_filter, inst?]
  split <;> rename_i h <;> cases body.insts.get? x <;> simp [Option.filter, h]

section

variable (hwf : body.WellFormed)
include hwf

theorem get?_blocks_prune_of_mem (hb : b ∈ body.order) :
    body.prune.blocks.get? b = some
      { body.block b with insts := (body.block b).insts.filter (· ∉ body.pruned) } := by
  obtain ⟨block, hblock⟩ := mem_flow_blocks.1 (hwf.live_of_mem_order hb)
  rw [get?_blocks_prune, if_pos (hwf.reaches_iff.2 hb), Body.block, hblock]
  rfl

theorem block_prune (hb : b ∈ body.order) :
    body.prune.block b =
      { body.block b with insts := (body.block b).insts.filter (· ∉ body.pruned) } := by
  rw [Body.block, get?_blocks_prune_of_mem hwf hb]
  rfl

theorem get?_blocks_prune_of_not_mem (hb : b ∉ body.order) :
    body.prune.blocks.get? b = none := by
  rw [get?_blocks_prune, if_neg fun h => hb (hwf.reaches_iff.1 h)]

theorem WellFormed.prune : body.prune.WellFormed where
  blocks := (hwf.blocks.filter _).map _
  insts := (hwf.insts.filter _).map _
  states := hwf.states
  entry := ⟨_, get?_blocks_prune_of_mem hwf (entry_mem_order body)⟩

end

section Flow

variable (hwf : body.WellFormed)
include hwf

theorem edge_prune (hb : b ∈ body.order) :
    body.prune.flow.Edge b d ↔ body.flow.Edge b d := by
  have hsuccs : body.prune.flow.succs b = body.flow.succs b := by
    simp only [flow, block_prune hwf hb]
  rw [edge_iff, edge_iff, hsuccs]
  refine and_congr_right fun hd => ⟨fun hlive => ?_, fun hlive => ?_⟩
  · obtain ⟨block, hblock⟩ := mem_flow_blocks.1 hlive
    refine hwf.live_of_mem_order (Classical.byContradiction fun hn => ?_)
    simp [get?_blocks_prune_of_not_mem hwf hn] at hblock
  · have hmem := mem_order_of_edge hb (edge_iff.2 ⟨hd, hlive⟩)
    exact mem_flow_blocks.2 ⟨_, get?_blocks_prune_of_mem hwf hmem⟩

theorem path_prune : body.prune.flow.Path l ↔ body.flow.Path l := by
  constructor
  · intro h
    induction h with
    | entry => exact .entry
    | step _ he ih => exact .step ih ((edge_prune hwf (mem_order_iff.2 ⟨_, ih⟩)).1 he)
  · intro h
    induction h with
    | entry => exact .entry
    | step hp he ih => exact .step ih ((edge_prune hwf (mem_order_iff.2 ⟨_, hp⟩)).2 he)

theorem mem_order_prune : b ∈ body.prune.order ↔ b ∈ body.order := by
  simp only [mem_order_iff, Flow.Reachable, path_prune hwf]

theorem dom_prune : body.prune.flow.Dom b d ↔ body.flow.Dom b d := by
  simp only [Flow.Dom, path_prune hwf]

end Flow

section Code

variable (hwf : body.WellFormed) (hc : body.Checked) (hb : b ∈ body.order)
include hwf hc hb

section

variable (hx : x ∈ (body.block b).insts)
include hx

/-- Of what stands in a reachable block, only barriers of stranded stores are pruned. -/
theorem mem_pruned_iff : x ∈ body.pruned ↔ x ∈ body.barriersOf body.stranded := by
  refine mem_append.trans (or_iff_right fun hs => ?_)
  obtain ⟨d, hd, hxd⟩ := (mem_stranded hwf).1 hs
  obtain ⟨i, hi⟩ := mem_iff_getElem?.1 hx
  obtain ⟨j, hj⟩ := mem_iff_getElem?.1 hxd
  obtain ⟨inst, hinst⟩ := hc.live hb hx
  exact hd ((hc.once x inst hinst b d i j hi hj).1 ▸ hb)

theorem not_mem_pruned {op} (hop : body.op? x = some op)
    (hbar : ∀ store, op ≠ .barrier store) : x ∉ body.pruned := by
  rw [mem_pruned_iff hwf hc hb hx, mem_barriersOf]
  rintro ⟨store, -, hop'⟩
  exact hbar store (Option.mem_unique hop hop')

theorem inst?_prune_of_mem (hkept : x ∉ body.pruned) : body.prune.inst? x = body.inst? x := by
  rw [inst?_prune, if_neg hkept]
  obtain ⟨i, hi⟩ := mem_iff_getElem?.1 hx
  obtain ⟨op, hop, hcheck⟩ := hc.inst b hb i x hi
  obtain ⟨inst, hinst, rfl⟩ := op?_eq_some_iff.1 hop
  have hop' : inst.op.filterInputs body.flow.order.reaches = inst.op := by
    rcases hphi : inst.op with _ | _ | _ | _ | inputs | _ <;> try rfl
    refine congrArg Op.phi (filter_eq_self.2 fun e he => hwf.reaches_iff.2 ?_)
    exact (((hcheck.phi inputs hphi).preds e.1).1 (mem_map.2 ⟨e, he, rfl⟩)).2
  rw [inst?, hinst, Option.map_some, hop']

theorem op?_prune_of_mem (hkept : x ∉ body.pruned) : body.prune.op? x = body.op? x := by
  rw [op?, inst?_prune_of_mem hwf hc hb hx hkept, op?]

end

theorem phis_code_prune : body.prune.phis b = body.phis b ∧
    body.prune.code b = (body.code b).filter (· ∉ body.pruned) := by
  refine hc.phis_code_of_filter hb (by rw [block_prune hwf hb]) (fun x hx => decide_eq_true ?_)
    fun x hx hkept => ?_
  · obtain ⟨inputs, hop⟩ := isPhi_iff.1 (isPhi_of_mem_phis hx)
    exact not_mem_pruned hwf hc hb (mem_insts_of_mem_phis hx) hop (by simp)
  · rw [isPhi, op?_prune_of_mem hwf hc hb hx (of_decide_eq_true hkept), isPhi]

end Code

end Body

section Filter

variable {α : Type} {p : α → Bool} {l : List α} {i j : Nat} {x : α}

theorem getElem?_filter_of_getElem? (h : l[i]? = some x) (hx : p x = true) :
    (l.filter p)[(l.take i).countP p]? = some x := by
  obtain ⟨hi, rfl⟩ := List.getElem?_eq_some_iff.1 h
  have hsplit : l.filter p = (l.take i).filter p ++ l[i] :: (l.drop (i + 1)).filter p := by
    rw [← filter_cons_of_pos hx, ← filter_append, ← drop_eq_getElem_cons hi,
      take_append_drop]
  rw [hsplit, countP_eq_length_filter, List.getElem?_append_right (Nat.le_refl _)]
  simp

theorem countP_take_lt (h : l[j]? = some x) (hx : p x = true) (hlt : j < i) :
    (l.take j).countP p < (l.take i).countP p := by
  have hstep : (l.take (j + 1)).countP p = (l.take j).countP p + 1 := by
    rw [take_add_one, h]
    simp [hx]
  have hle : (l.take (j + 1)).countP p ≤ (l.take i).countP p :=
    (take_prefix_take_left hlt).sublist.countP_le
  omega

theorem flatMap_filter_eq {β : Type} {q r} {f g : α → List β} :
    ∀ {l : List α}, (∀ a ∈ l, q a = true → g a = f a) → (∀ a ∈ l, ∀ c ∈ f a, r c = q a) →
      (l.filter q).flatMap g = (l.flatMap f).filter r
  | [], _, _ => rfl
  | a :: l, hg, hr => by
    have ih := flatMap_filter_eq (fun b hb => hg b (.tail _ hb))
      fun b hb => hr b (.tail _ hb)
    have hra := hr a (.head _)
    rw [flatMap_cons, filter_append, filter_cons]
    split
    · rename_i hq
      rw [flatMap_cons, ih, hg a (.head _) hq,
        filter_eq_self.2 fun c hc => (hra c hc).trans hq]
    · rename_i hq
      rw [ih, filter_eq_nil_iff.2 fun c hc h => hq ((hra c hc).symm.trans h), nil_append]

theorem getLast?_filter (h : l.getLast? = some x) (hx : p x = true) :
    (l.filter p).getLast? = some x := by
  obtain ⟨init, rfl⟩ := List.getLast?_eq_some_iff.1 h
  simp [hx]

end Filter

/-- Entries at other keys do not matter to a key, as long as none of them is newer. -/
theorem SideTable.get?_ofList_filter {f} {α : Type} {l j} {q : Key f × α → Bool} (hj : j ≠ .null)
    (hl : ∀ e ∈ l, e.1.index = j.index → e.1.version ≤ j.version)
    (hq : ∀ e ∈ l, e.1 = j → q e = true) : (ofList (l.filter q)).get? j = (ofList l).get? j := by
  suffices h : ∀ (l : List (Key f × α)) (t t' : SideTable f α),
      (∀ e ∈ l, e.1.index = j.index → e.1.version ≤ j.version) →
      (∀ e ∈ l, e.1 = j → q e = true) → t.outdated j = false → t'.outdated j = false →
      t.get? j = t'.get? j →
      ((l.filter q).foldl (fun t e => t.insert e.1 e.2) t).get? j =
        (l.foldl (fun t e => t.insert e.1 e.2) t').get? j from
    h l empty empty hl hq (by simp [outdated, empty]) (by simp [outdated, empty]) rfl
  intro l
  induction l with
  | nil => exact fun _ _ _ _ _ _ h => h
  | cons e l ih =>
    intro t t' hl hq ho ho' heq
    have he := hl e (.head _)
    have hl' := fun e he => hl e (.tail _ he)
    have hq' := fun e he => hq e (.tail _ he)
    rw [filter_cons, foldl_cons]
    split
    · refine ih _ _ hl' hq' (outdated_insert ho he _) (outdated_insert ho' he _) ?_
      rw [get?_insert_of_not_newer hj ho he, get?_insert_of_not_newer hj ho' he, heq]
    · rename_i hne
      refine ih _ _ hl' hq' ho (outdated_insert ho' he _) ?_
      rw [get?_insert_of_not_newer hj ho' he,
        if_neg fun h => hne (hq e (.head _) h.symm), heq]

namespace Checker

theorem checkDistinct_of_nodup : ∀ {xs : List InstId} {seen : SideTable .inst Unit}, xs.Nodup →
    (∀ x ∈ xs, seen.contains x = false) → checkDistinct xs seen = .ok ()
  | [], _, _, _ => rfl
  | x :: xs, seen, hnd, hseen => by
    obtain ⟨hx, hnd⟩ := nodup_cons.1 hnd
    rw [checkDistinct, hseen x (.head _)]
    refine checkDistinct_of_nodup hnd fun y hy => Bool.eq_false_iff.2 fun hcontains => ?_
    obtain ⟨_, hget⟩ := contains_iff.1 hcontains
    rcases get?_insert_cases seen x () hget with ⟨rfl, -⟩ | hget
    · exact hx hy
    · exact Bool.eq_false_iff.1 (hseen y (.tail _ hy))
        (contains_iff.2 ⟨_, hget⟩)

end Checker

namespace Body

variable {body : Body} {p : Program} {b d : BlockId} {x y : InstId} {i j : Nat}

/-- The position that a position in a block has after pruning. -/
def prunedIdx (body : Body) (b : BlockId) (i : Nat) : Nat :=
  ((body.block b).insts.take i).countP (· ∉ body.pruned)

theorem mem_order_of_mem_prune (hwf : body.WellFormed) (hx : x ∈ (body.prune.block b).insts) :
    b ∈ body.order := by
  refine Classical.byContradiction fun hb => ?_
  rw [block_of_not_live (get?_blocks_prune_of_not_mem hwf hb)] at hx
  cases hx

section Checked

variable (hco : body.Coherent) (hc : body.Checked) {s : SafepointId} {site : Site}
  {state : DebugState}

include hco in
theorem getElem?_prune (hb : b ∈ body.order) (h : (body.block b).insts[i]? = some x)
    (hx : x ∉ body.pruned) : (body.prune.block b).insts[body.prunedIdx b i]? = some x := by
  rw [block_prune hco.toWellFormed hb]
  exact getElem?_filter_of_getElem? h (decide_eq_true hx)

include hco hc in
theorem nodup_insts_prune (b : BlockId) : (body.prune.block b).insts.Nodup := by
  by_cases hb : b ∈ body.order
  · rw [block_prune hco.toWellFormed hb]
    exact (hc.nodup_insts hb).filter _
  · rw [block_of_not_live (get?_blocks_prune_of_not_mem hco.toWellFormed hb)]
    exact nodup_nil

include hco hc in
theorem exists_of_getElem?_prune (h : (body.prune.block b).insts[j]? = some x) :
    b ∈ body.order ∧ x ∉ body.pruned ∧
      ∃ i, (body.block b).insts[i]? = some x ∧ body.prunedIdx b i = j := by
  have hb := mem_order_of_mem_prune hco.toWellFormed (mem_of_getElem? h)
  have hmem := mem_of_getElem? h
  rw [block_prune hco.toWellFormed hb, mem_filter] at hmem
  have hkept := of_decide_eq_true hmem.2
  obtain ⟨i, hi⟩ := mem_iff_getElem?.1 hmem.1
  refine ⟨hb, hkept, i, hi, ?_⟩
  obtain ⟨hlt, hget⟩ := List.getElem?_eq_some_iff.1 (getElem?_prune hco hb hi hkept)
  obtain ⟨hlt', hget'⟩ := List.getElem?_eq_some_iff.1 h
  exact (nodup_insts_prune hco hc b).getElem_inj_iff.1 (hget.trans hget'.symm)

include hco hc in
theorem placement_prune (hb : b ∈ body.order)
    (h : (body.block b).insts[i]? = some x) (hx : x ∉ body.pruned) :
    body.prune.placement.get? x = some (b, body.prunedIdx b i) := by
  have hlive : ∀ y d, y ∈ (body.block d).insts → d ∈ body.order → y ∉ body.pruned →
      ∃ inst, body.prune.insts.get? y = some inst := by
    intro y d hy hd hkept
    obtain ⟨inst, hinst⟩ := hc.live hd hy
    exact ⟨inst, (inst?_prune_of_mem hco.toWellFormed hc hd hy hkept).trans hinst⟩
  obtain ⟨inst, hinst⟩ := hlive x b (mem_of_getElem? h) hb hx
  refine placement_of_once hco.toWellFormed.prune.insts (fun y hy => ?_) hinst
    (getElem?_prune hco hb h hx) fun d j hj => ?_
  · obtain ⟨⟨d, block⟩, hd, hy⟩ := mem_flatMap.1 hy
    obtain ⟨j, hj⟩ : ∃ j, (body.prune.block d).insts[j]? = some y := by
      rw [Body.block, mem_toList_iff.1 hd]
      exact mem_iff_getElem?.1 hy
    obtain ⟨hd, hkept, k, hk, -⟩ := exists_of_getElem?_prune hco hc hj
    obtain ⟨inst', hinst'⟩ := hlive y d (mem_of_getElem? hk) hd hkept
    exact issued_of_get? hinst'
  · obtain ⟨-, -, k, hk, rfl⟩ := exists_of_getElem?_prune hco hc hj
    obtain ⟨inst', hinst'⟩ := hc.live hb (mem_of_getElem? h)
    obtain ⟨rfl, rfl⟩ := hc.once x inst' hinst' b d i k h hk
    exact ⟨rfl, rfl⟩

include hco hc in
theorem nodup_placed_prune : body.prune.placed.Nodup := by
  have hblock : ∀ b block, (b, block) ∈ body.prune.blocks.toList → body.prune.block b = block := by
    intro b block he
    rw [Body.block, mem_toList_iff.1 he]
    rfl
  rw [placed, List.Nodup, pairwise_flatMap]
  constructor
  · rintro ⟨b, block⟩ he
    exact hblock b block he ▸ nodup_insts_prune hco hc b
  · refine body.prune.blocks.pairwise_toList.imp_of_mem ?_
    rintro ⟨b, block⟩ ⟨d, block'⟩ hb hd hlt x hx y hy rfl
    obtain ⟨i, hi⟩ := mem_iff_getElem?.1 (hblock b block hb ▸ hx)
    obtain ⟨j, hj⟩ := mem_iff_getElem?.1 (hblock d block' hd ▸ hy)
    obtain ⟨hb, -, k, hk, -⟩ := exists_of_getElem?_prune hco hc hi
    obtain ⟨-, -, l, hl, -⟩ := exists_of_getElem?_prune hco hc hj
    obtain ⟨inst, hinst⟩ := hc.live hb (mem_of_getElem? hk)
    obtain ⟨rfl, -⟩ := hc.once x inst hinst b d k l hk hl
    exact Nat.lt_irrefl _ hlt

include hco hc in
/-- What was available has kept its place, unless it is a barrier that was pruned. -/
theorem exists_place_prune (hb : b ∈ body.order) (h : body.Available y b i)
    (hy : y ∉ body.barriersOf body.stranded) : ∃ d j, (body.block d).insts[j]? = some y ∧
      (d = b ∧ j < i ∨ d ≠ b ∧ body.flow.Dom d b) ∧ y ∉ body.pruned ∧
      body.prune.placement.get? y = some (d, body.prunedIdx d j) := by
  obtain ⟨d, j, hj, hd⟩ := h
  have hmem : d ∈ body.order := by
    rcases hd with ⟨rfl, -⟩ | ⟨-, hdom⟩
    · exact hb
    · exact mem_order_iff.2 (hdom.reachable (mem_order_iff.1 hb))
  have hkept : y ∉ body.pruned :=
    (mem_pruned_iff hco.toWellFormed hc hmem (mem_of_getElem? hj)).not.2 hy
  exact ⟨d, j, hj, hd, hkept, placement_prune hco hc hmem hj hkept⟩

include hco hc in
theorem checkAvailable_prune (hb : b ∈ body.order) (h : body.Available y b i)
    (hy : y ∉ body.barriersOf body.stranded) (user : Use) :
    (ofBody p body.prune).checkAvailable user b (body.prunedIdx b i) y = .ok () := by
  have hwf := hco.toWellFormed
  obtain ⟨d, j, hj, hd, hkept, hplace⟩ := exists_place_prune hco hc hb h hy
  rw [checkAvailable,
    show (ofBody p body.prune).placement.get? y = _ from hplace]
  refine ite_throw_eq_ok.2 ?_
  rcases hd with ⟨rfl, hlt⟩ | ⟨hne, hdom⟩
  · rw [if_pos rfl]
    exact countP_take_lt (p := (· ∉ body.pruned)) hj (decide_eq_true hkept) hlt
  · rw [if_neg hne]
    exact (DomTree.dominates_iff hwf.prune ((mem_order_prune hwf).2 hb)).2 ((dom_prune hwf).2 hdom)

include hco in
theorem prunedIdx_length (hb : b ∈ body.order) :
    body.prunedIdx b (body.block b).insts.length = (body.prune.block b).insts.length := by
  rw [prunedIdx, take_length, countP_eq_length_filter, block_prune hco.toWellFormed hb]

include hco in
theorem reachablePreds_prune (b : BlockId) :
    (ofBody p body.prune).reachablePreds b = (ofBody p body).reachablePreds b := by
  have hwf := hco.toWellFormed
  have hkeys : body.prune.flow.blocks = body.flow.blocks.filter body.flow.order.reaches := by
    show body.prune.blocks.toList.map Prod.fst = (body.blocks.toList.map Prod.fst).filter _
    rw [prune_eq, SlotTable.toList_map, SlotTable.toList_filter, List.map_map, filter_map]
    rfl
  show (body.prune.flow.blocks.filter fun q => b ∈ body.prune.flow.succs q).filter
    body.prune.flow.order.reaches = (body.flow.blocks.filter fun q => b ∈ body.flow.succs q).filter
      body.flow.order.reaches
  rw [hkeys, filter_filter, filter_filter, filter_filter]
  refine filter_congr fun q _ => ?_
  by_cases hq : q ∈ body.order
  · have hsuccs : body.prune.flow.succs q = body.flow.succs q := by
      simp only [flow, block_prune hwf hq]
    rw [hsuccs, hwf.reaches_iff.2 hq, hwf.prune.reaches_iff.2 ((mem_order_prune hwf).2 hq),
      Bool.and_true]
  · have hnot : body.flow.order.reaches q = false :=
      Bool.eq_false_iff.2 fun h => hq (hwf.reaches_iff.1 h)
    rw [hnot, Bool.and_false, Bool.false_and]

/-- Nothing that is left reads a pruned barrier. -/
def ReadsNoPruned (body : Body) : Prop :=
  ∀ y ∈ body.prune.consumed, y ∉ body.barriersOf body.stranded

variable (hread : body.ReadsNoPruned)

include hco hc hread in
theorem checkInst_prune (hb : b ∈ body.order) (hi : (body.block b).insts[i]? = some x)
    (hx : x ∉ body.pruned) (h : (ofBody p body).checkInst b i x = .ok ()) :
    (ofBody p body.prune).checkInst b (body.prunedIdx b i) x = .ok () := by
  have hwf := hco.toWellFormed
  have hmem := mem_of_getElem? hi
  have hop : body.prune.op? x = body.op? x := op?_prune_of_mem hwf hc hb hmem hx
  have hstays : x ∈ (body.prune.block b).insts := mem_of_getElem? (getElem?_prune hco hb hi hx)
  obtain ⟨op, hop', hcheck⟩ := hc.inst b hb i x hi
  have hkept : ∀ y ∈ op.operands, y ∉ body.barriersOf body.stranded := fun y hy =>
    hread y (mem_consumed_of_operands hstays (hop.trans hop') hy)
  rw [checkInst, show (ofBody p body).body.op? x = _ from hop'] at h
  rw [checkInst, show (ofBody p body.prune).body.op? x = _ from hop.trans hop']
  cases op with
  | phi inputs =>
    simp only [checkPhi, guard_eq_ok, forM_eq_ok] at h ⊢
    obtain ⟨hidx, hfound, -⟩ := h
    have hle : body.prunedIdx b i ≤ i :=
      Nat.le_trans countP_le_length (length_take_le ..)
    have hcount : body.prune.phiCount b = body.phiCount b := by
      rw [phiCount, (phis_code_prune hwf hc hb).1, phiCount]
    refine ⟨fun hlate => hidx (Nat.le_trans (hcount ▸ hlate) hle), ?_, fun e he => ?_⟩
    · rw [reachablePreds_prune hco]
      exact hfound
    · have hphi := hcheck.phi inputs rfl
      have hpred := ((hphi.preds e.1).1 (mem_map.2 ⟨e, he, rfl⟩)).2
      have := checkAvailable_prune (p := p) hco hc hpred (hphi.available e he)
        (hkept e.2 (mem_map.2 ⟨e, he, rfl⟩)) (.inst x)
      rwa [prunedIdx_length hco hpred] at this
  | barrier store =>
    have h : (ofBody p body).checkBarrier x store = .ok () := h
    show (ofBody p body.prune).checkBarrier x store = .ok ()
    rw [checkBarrier, ite_throw_eq_ok, Bool.and_eq_true] at h ⊢
    obtain ⟨⟨d, j⟩, hplace⟩ := contains_iff.1 h.2
    have hj := getElem?_of_placement hplace
    have hd : d ∈ body.order := by
      refine Classical.byContradiction fun hd => hx (mem_append_right _ ?_)
      exact (mem_barriersOf _).2
        ⟨store, (mem_stranded hwf).2 ⟨d, hd, mem_of_getElem? hj⟩, hop'⟩
    obtain ⟨sop, hsop, hstore⟩ := hcheck.barrier store rfl
    have hkept := not_mem_pruned hwf hc hd (mem_of_getElem? hj) hsop
      fun store' he => by rw [he] at hstore; cases hstore
    have hsop' : body.prune.op? store = body.op? store :=
      op?_prune_of_mem hwf hc hd (mem_of_getElem? hj) hkept
    refine ⟨?_, contains_iff.2 ⟨_, placement_prune hco hc hd hj hkept⟩⟩
    show ((body.prune.op? store).map Op.isRefStore).getD false = true
    rw [hsop', hsop]
    exact hstore
  | _ =>
    exact forM_eq_ok.2 fun y hy =>
      checkAvailable_prune hco hc hb (hcheck.operands rfl y hy) (hkept y hy) _

include hco hc hread in
theorem checkTerm_prune (hb : b ∈ body.order) : (ofBody p body.prune).checkTerm b = .ok () := by
  have hwf := hco.toWellFormed
  have hterm : (body.prune.block b).term = (body.block b).term := by rw [block_prune hwf hb]
  simp only [checkTerm, seq_eq_ok, forM_eq_ok]
  refine ⟨fun y hy => ?_, ?_⟩
  · have hy' : (body.prune.block b).term.operand? = some y := Option.mem_toList.1 hy
    have := checkAvailable_prune (p := p) hco hc hb (hc.term b hb y (hterm ▸ hy'))
      (hread y (mem_consumed_of_operand? hy')) (.term b)
    rwa [prunedIdx_length hco hb] at this
  · split
    · rename_i call normal handler hinvoke
      obtain ⟨⟨c, hop⟩, hlast⟩ := hc.invoke b hb call normal handler (hterm.symm.trans hinvoke)
      have hmem := mem_of_getLast? hlast
      have hkept := not_mem_pruned hwf hc hb hmem hop (by simp)
      refine ite_throw_eq_ok.2 ?_
      show (((body.prune.op? call).map Op.isCall).getD false &&
        (body.prune.block b).insts.getLast? == some call) = true
      rw [op?_prune_of_mem hwf hc hb hmem hkept, hop, block_prune hwf hb,
        getLast?_filter (p := (· ∉ body.pruned)) hlast (decide_eq_true hkept)]
      simp [Op.isCall]
    · rfl

/-- No debug state is observed both in a block that the entry reaches and in one that it does
not. -/
def ObservedApart (body : Body) : Prop :=
  ∀ s site site', body.Observes s site → body.Observes s site' →
    site.block ∈ body.flow.order.blocks → site'.block ∈ body.flow.order.blocks

/-- The places in one block where debug states are observed. -/
def sitesIn (body : Body) (e : BlockId × Block) : List (SafepointId × Site) :=
  e.2.insts.filterMap (fun x =>
    ((body.op? x).bind Op.safepoint?).map fun s => (s, Site.inst e.1 x)) ++
  match e.2.term with
  | .deopt s => [(s, Site.term e.1)]
  | _ => []

theorem siteList_eq (body : Body) : body.siteList = body.blocks.toList.flatMap body.sitesIn := rfl

theorem block_of_mem_sitesIn {e f} (hf : f ∈ body.sitesIn e) : f.2.block = e.1 := by
  rcases mem_append.1 hf with hf | hf
  · obtain ⟨x, -, hf⟩ := mem_filterMap.1 hf
    obtain ⟨s, -, rfl⟩ := Option.map_eq_some_iff.1 hf
    rfl
  · split at hf
    · cases mem_singleton.1 hf
      rfl
    · cases hf

include hco hc in
theorem siteList_prune : body.prune.siteList =
    body.siteList.filter fun e => body.flow.order.reaches e.2.block := by
  have hwf := hco.toWellFormed
  have hlist : body.prune.blocks.toList =
      (body.blocks.toList.filter fun e => body.flow.order.reaches e.1).map fun e =>
        (e.1, { e.2 with insts := e.2.insts.filter (· ∉ body.pruned) }) := by
    rw [prune_eq, toList_map, toList_filter]
  rw [siteList_eq, siteList_eq, hlist, flatMap_map]
  refine flatMap_filter_eq (fun e he hreach => ?_) fun e _ f hf => by rw [block_of_mem_sitesIn hf]
  obtain ⟨b, block⟩ := e
  have hb := hwf.reaches_iff.1 hreach
  have hblock : body.block b = block := by
    rw [Body.block, mem_toList_iff.1 he]
    rfl
  refine congrArg (· ++ _) ?_
  rw [filterMap_filter]
  refine filterMap_congr fun x hx => ?_
  have hx : x ∈ (body.block b).insts := hblock ▸ hx
  by_cases hgone : x ∈ body.pruned
  · obtain ⟨store, -, hop⟩ := (mem_barriersOf _).1 ((mem_pruned_iff hwf hc hb hx).1 hgone)
    simp [hgone, hop, Op.safepoint?]
  · simp [hgone, op?_prune_of_mem hwf hc hb hx hgone]

include hco hc in
theorem get?_sites_prune (hapart : body.ObservedApart) (hs : body.states.get? s = some state)
    (h : body.prune.sites.get? s = some site) :
    body.sites.get? s = some site ∧ site.block ∈ body.order := by
  have hmem : (s, site) ∈ body.prune.siteList := mem_of_get?_ofList h
  rw [siteList_prune hco hc, mem_filter] at hmem
  have hb := hco.toWellFormed.reaches_iff.1 hmem.2
  refine ⟨?_, hb⟩
  have hsites : body.prune.sites = .ofList body.prune.siteList := rfl
  rw [hsites, siteList_prune hco hc] at h
  rw [← h]
  refine (get?_ofList_filter (hco.states.ne_null hs)
    (fun e he => hco.observed e.1 e.2 (mem_siteList.1 he) s state hs) fun e he heq => ?_).symm
  refine hco.toWellFormed.reaches_iff.2 (hapart s site e.2 (mem_siteList.1 hmem.1) ?_ hb)
  exact mem_siteList.1 (heq ▸ he)

theorem checkState_of_not_live (hs : body.states.get? s = none) (site : Site) :
    (ofBody p body).checkState s site = .ok () := by
  have hstate : (ofBody p body).body.state s = default := by
    rw [state, show (ofBody p body).body.states.get? s = none from hs]
    rfl
  cases site <;> simp only [checkState, hstate] <;> rfl

include hco hc hread

theorem checkState_prune (hstates : body.StatesChecked) (hs : body.states.get? s = some state)
    (hsite : body.sites.get? s = some site) (hb : site.block ∈ body.order)
    (h : (ofBody p body).checkState s site = .ok ()) :
    (ofBody p body.prune).checkState s site = .ok () := by
  have hwf := hco.toWellFormed
  have hkept : ∀ y ∈ (body.state s).insts, y ∉ body.barriersOf body.stranded := by
    intro y hy
    rw [Body.state, hs] at hy
    have hs : body.prune.states.get? s = some state := hs
    exact hread y (mem_consumed_of_state hs hy)
  -- it is enough that what the state names was available at the position of its site
  have hall : ∀ b ∈ body.order, ∀ i,
      (∀ y ∈ (body.state s).insts, body.Available y b i) → ∀ y ∈ (body.state s).insts,
        (ofBody p body.prune).checkPlaced (.debug s) y = .ok () ∧
        (ofBody p body.prune).checkAvailable (.debug s) b (body.prunedIdx b i) y =
          .ok () := by
    refine fun b hb i hav y hy => ⟨?_, checkAvailable_prune hco hc hb (hav y hy) (hkept y hy) _⟩
    obtain ⟨_, _, -, -, -, hplace⟩ := exists_place_prune hco hc hb (hav y hy) (hkept y hy)
    exact ite_throw_eq_ok.2 (contains_iff.2 ⟨_, hplace⟩)
  simp only [checkState, seq_eq_ok, forM_eq_ok] at h ⊢
  obtain ⟨-, hown, hrest⟩ := h
  cases site with
  | inst b x =>
    obtain ⟨hx, hsp⟩ := mem_siteList.1 (mem_of_get?_ofList hsite)
    obtain ⟨i, hi⟩ := mem_iff_getElem?.1 hx
    obtain ⟨op, hop, hsp⟩ := Option.bind_eq_some_iff.1 hsp
    obtain ⟨inst, hinst⟩ := hc.live hb hx
    have hav := hstates.stateInst s b x hsite hb
    rw [hc.placement hwf hco.issued hinst hi] at hav
    have hplace : (ofBody p body.prune).placement.get? x = _ :=
      placement_prune hco hc hb hi
        (not_mem_pruned hwf hc hb hx hop fun store he => by rw [he] at hsp; cases hsp)
    refine ⟨fun y hy => (hall b hb i hav y hy).1, fun y hy => ?_, hrest⟩
    have hother := hown y hy
    simp only [hplace] at hother ⊢
    split at hother
    · cases hother
    · rename_i hne
      exact (if_neg hne).trans (hall b hb i hav y (mem_reverse.1 hy)).2
  | term b =>
    have hav := hall b hb _ (hstates.stateTerm s b hsite hb)
    rw [prunedIdx_length (b := b) hco hb] at hav
    exact ⟨fun y hy => (hav y hy).1, fun y hy => (hav y (mem_reverse.1 hy)).2, hrest⟩

theorem check_prune (hapart : body.ObservedApart) (h : body.check p = .ok ()) :
    body.prune.check p = .ok () := by
  have hwf := hco.toWellFormed
  have hstates := statesChecked_of_check hwf h
  simp only [Body.check, seq_eq_ok, forM_eq_ok] at h ⊢
  obtain ⟨-, hblocks, hsites⟩ := h
  refine ⟨checkDistinct_of_nodup (nodup_placed_prune hco hc) fun _ _ => rfl,
    fun b hb => ?_, ?_⟩
  · have hb := (mem_order_prune hwf).1 hb
    have hblock := hblocks b hb
    simp only [checkBlock, seq_eq_ok, forM_eq_ok] at hblock ⊢
    refine ⟨?_, checkTerm_prune hco hc hread hb⟩
    rintro ⟨x, j⟩ hxj
    obtain ⟨-, hx, i, hi, rfl⟩ :=
      exists_of_getElem?_prune hco hc (mem_zipIdx_iff_getElem?.1 hxj)
    exact checkInst_prune hco hc hread hb hi hx
      (hblock.1 (x, i) (mem_zipIdx_iff_getElem?.2 hi))
  · rintro ⟨s, site⟩ hmem
    split
    · rcases hs : body.states.get? s with _ | state
      · exact checkState_of_not_live (show body.prune.states.get? s = none from hs) site
      · obtain ⟨hsite, hb⟩ :=
          get?_sites_prune hco hc hapart hs (mem_toList_iff.1 hmem)
        refine checkState_prune hco hc hread hstates hs hsite hb ?_
        have := hsites (s, site) (mem_toList_iff.2 hsite)
        rwa [if_pos (show (ofBody p body).order.reaches site.block = true from
          hwf.reaches_iff.2 hb)] at this
    · rfl

end Checked

end Body

end EscapeAnalysis
