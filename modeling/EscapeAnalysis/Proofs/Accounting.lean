import EscapeAnalysis.Proofs.Passes
import EscapeAnalysis.Proofs.Records

/-!
# What a report accounts for

The graph numbers the allocations that the reachable blocks list (`Graph.insts_of_propagate`). Of
these, the ones that a retention replaces make up the layout of a plan, and they die in it and no
others (`Pass.clears_of_plan`). A report lists the allocations that reachable blocks had before the
pass, each once, as eliminated or as retained. The former are gone from the table and from all
blocks, and nothing else that allocates is added or removed (`accounts_optimize`).
-/

namespace EscapeAnalysis

open List Body

variable {p : Program} {body : Body}

def Body.reachedAllocs (body : Body) : List InstId :=
  body.flow.order.blocks.flatMap body.inventory.blocks

namespace Body

variable {body body' : Body} {x : InstId}

theorem mem_reachedAllocs : x ∈ body.reachedAllocs ↔ body.allocates x = true ∧ body.Reached x := by
  simp only [reachedAllocs, mem_flatMap, mem_inventory, Reached]
  grind

theorem Checked.nodup_reachedAllocs (hc : body.Checked) : body.reachedAllocs.Nodup := by
  have heq : body.reachedAllocs =
      (body.order.flatMap fun b => (body.block b).insts).filter body.allocates := by
    rw [filter_flatMap]
    rfl
  exact heq ▸ hc.nodup_reached.filter _

theorem Alike.perm_reachedAllocs (h : body.Alike body') :
    body'.reachedAllocs.Perm body.reachedAllocs := by
  rw [reachedAllocs, reachedAllocs, h.inventory]
  refine List.Perm.flatMap_right _ ?_
  exact (perm_ext_iff_of_nodup (nodup_order body') (nodup_order body)).2 fun b =>
    ⟨mem_order_of_outline h.outline, mem_order_of_outline h.outline.symm⟩

end Body

namespace Retention

theorem kept_fst (r : Retention) :
    r.kept.map Prod.fst = (List.range r.reasons.size).filter fun n => (r.reason? n).isSome := by
  rw [kept]
  induction List.range r.reasons.size with
  | nil => rfl
  | cons n ns ih => cases hw : r.reason? n <;> simp [hw, ih]

theorem perm_range (r : Retention) :
    (r.replaced ++ r.kept.map Prod.fst).Perm (List.range r.reasons.size) := by
  have hkept : r.kept.map Prod.fst =
      (List.range r.reasons.size).filter fun n => !r.isReplaced n := by
    rw [kept_fst]
    refine filter_congr fun n hn => ?_
    have hn := mem_range.1 hn
    cases hw : r.reasons[n] <;> simp [reason?, isReplaced, hn, hw]
  rw [hkept, replaced]
  exact filter_append_perm _ _

end Retention

namespace Graph

variable {p : Program} {body : Body} {g : Graph} {x : InstId}

theorem isSome_allocation? : (allocation? p body x).isSome = body.allocates x := by
  rw [allocation?, Body.allocates]
  rcases body.op? x with _ | op
  · rfl
  · cases op <;> rfl

theorem insts_addInst (g : Graph) (x : InstId) :
    (addInst p body g x).allocs.toList.map Allocation.inst =
      g.allocs.toList.map Allocation.inst ++ [x].filter body.allocates := by
  rcases hal : allocation? p body x with _ | ⟨shape, escape⟩
  · have hx : body.allocates x = false := by rw [← isSome_allocation? (p := p), hal]; rfl
    simp [(addInst_of_none hal).1, hx]
  · have hx : body.allocates x = true := by rw [← isSome_allocation? (p := p), hal]; rfl
    simp [(addInst_of_some hal).1, hx]

theorem insts_of_propagate {settings settings' changed b b'}
    (h : Metered.Yields ((ofBody p body settings).propagate settings') b (g, changed) b') :
    g.allocs.toList.map Allocation.inst = body.reachedAllocs := by
  obtain ⟨f, rfl, -⟩ := of_propagate h
  have hinsts : ∀ (xs : List InstId) (g : Graph),
      (xs.foldl (addInst p body) g).allocs.toList.map Allocation.inst =
        g.allocs.toList.map Allocation.inst ++ xs.filter body.allocates := by
    intro xs
    induction xs with
    | nil => simp
    | cons x xs ih =>
      intro g
      rw [foldl_cons, ih, insts_addInst, append_assoc, ← filter_append]
      rfl
  have hblocks : ∀ (bs : List BlockId) (g : Graph),
      (bs.foldl (fun g b => ((body.block b).insts.foldl (addInst p body) g).addTerm
        (body.block b).term) g).allocs.toList.map Allocation.inst =
        g.allocs.toList.map Allocation.inst ++ bs.flatMap body.inventory.blocks := by
    intro bs
    induction bs with
    | nil => simp
    | cons b bs ih =>
      intro g
      rw [foldl_cons, ih, addTerm_eq, hinsts, flatMap_cons, append_assoc]
      rfl
  exact hblocks _ _

theorem map_alloc_range (g : Graph) : (List.range g.allocs.size).map (fun n => (g.alloc n).inst) =
    g.allocs.toList.map Allocation.inst := by
  apply ext_getElem?
  intro n
  rw [List.getElem?_map, List.getElem?_map, Array.getElem?_toList]
  by_cases hn : n < g.allocs.size
  · simp [hn, alloc]
  · simp [hn]

def replacedBy (g : Graph) (r : Retention) : List InstId := r.replaced.map fun n => (g.alloc n).inst

theorem perm_insts {r} (hsize : r.reasons.size = g.allocCount) :
    (g.replacedBy r ++ r.kept.map fun e => (g.alloc e.1).inst).Perm
      (g.allocs.toList.map Allocation.inst) := by
  have h := r.perm_range.map fun n => (g.alloc n).inst
  rw [hsize, allocCount, map_alloc_range, map_append, map_map] at h
  exact h

end Graph

theorem EscapeCounts.total_ofGraph (g : Graph) : (ofGraph g).total = g.allocCount := by
  have hsum : ∀ ns : List Nat, ns.countP (fun n => g.escapeOf n == .none) +
      ns.countP (fun n => g.escapeOf n == .arg) + ns.countP (fun n => g.escapeOf n == .global) =
        ns.length := by
    intro ns
    induction ns with
    | nil => rfl
    | cons n ns ih =>
      cases hn : g.escapeOf n <;> simp [hn] <;> omega
  exact (hsum g.allocNumbers).trans length_range

theorem Layout.insts_ofRetention (p : Program) (g : Graph) (r : Retention) :
    Metered.Answers (fun l => l.objects.map ScalarObject.inst = g.replacedBy r)
      (ofRetention p g r) := by
  refine meets_ofRetention_of (I := fun ns l => l.objects.map ScalarObject.inst =
    ns.map fun n => (g.alloc n).inst) rfl fun ns l n _ shape _ hl => ?_
  simp [Layout.add, hl]

namespace PlanContext

variable {c : PlanContext} {s : Planner} {x y : InstId} {b : BlockId}

theorem stable_dead (c : PlanContext) (x : InstId) (dead : List InstId) :
    c.Stable x fun s => dead ⊆ s.dead where
  env _ _ h := h
  kill _ h := fun _ hy => .tail _ (h hy)
  replaceBy _ _ h := fun _ hy => .tail _ (h hy)
  addTemp _ _ _ _ h := h
  fail := fail_of fun _ _ h => h
  unlock _ _ h := h

theorem dead_snapshot (s : Planner) (sp : SafepointId) : s.dead ⊆ (c.snapshot s sp).dead :=
  snapshot_of (I := fun s' => s.dead ⊆ s'.dead) (c.stable_dead .null s.dead).fail
    (fun _ _ _ _ h => h) (fun _ => id) sp

theorem dead_planInst (s : Planner) (b : BlockId) (x : InstId) : s.dead ⊆ (c.planInst b s x).dead :=
  planInst_of (I := fun s' => s.dead ⊆ s'.dead)
    (fun _ sp h => List.Subset.trans h (dead_snapshot _ sp))
    (fun _ op _ h => (c.stable_dead x s.dead).planOp h b op) fun _ => id

theorem mem_dead_planInst (hx : c.body.allocates x = true) (ho : (c.layout.ofInst? x).isSome)
    (s : Planner) (b : BlockId) : x ∈ (c.planInst b s x).dead := by
  obtain ⟨o, ho⟩ := Option.isSome_iff_exists.1 ho
  obtain ⟨op, hop, halloc⟩ := allocates_iff.1 hx
  rw [planInst, hop]
  cases op with
  | new | newArray =>
    dsimp only
    rw [planOp, ho]
    exact .head _
  | _ => cases halloc

theorem mem_dead_foldl_planInst (hx : c.body.allocates x = true)
    (ho : (c.layout.ofInst? x).isSome) : ∀ (xs : List InstId) (s : Planner),
      x ∈ xs ∨ x ∈ s.dead → x ∈ (xs.foldl (c.planInst b) s).dead
  | [], _, h => h.resolve_left not_mem_nil
  | y :: xs, s, h => by
    rw [foldl_cons]
    refine mem_dead_foldl_planInst hx ho xs _ ?_
    rcases h with h | h
    · rcases mem_cons.1 h with rfl | h
      · exact .inr (mem_dead_planInst hx ho s b)
      · exact .inl h
    · exact .inr (dead_planInst s b y h)

theorem mem_dead_planBlock (hx : c.body.allocates x = true) (ho : (c.layout.ofInst? x).isSome)
    (phisOf : SideTable .block (List Nat)) (h : x ∈ c.body.code b ∨ x ∈ s.dead) :
    x ∈ (c.planBlock phisOf s b).dead := by
  rw [planBlock, feed]
  refine foldlRecOn (motive := fun s : Planner => x ∈ s.dead) _ _ ?_ fun _ h _ _ => h
  have hphis : x ∈ c.body.code b ∨ x ∈ (enter phisOf s b).dead :=
    h.imp_right fun h => foldlRecOn (motive := fun s : Planner => x ∈ s.dead) _ _ h
      fun _ h _ _ => h
  have hcode := mem_dead_foldl_planInst hx ho (b := b) (c.body.code b) _ hphis
  rw [termPlan]
  split
  · exact dead_snapshot _ _ hcode
  · exact hcode

theorem mem_dead_rename (hwf : c.body.WellFormed) : Metered.Answers
    (fun s => ∀ x ∈ c.body.reachedAllocs, (c.layout.ofInst? x).isSome → x ∈ s.dead) c.rename := by
  refine (meets_rename_rec (J := fun done _ s => ∀ x, c.body.allocates x = true →
    (c.layout.ofInst? x).isSome → ∀ b ∈ done, x ∈ c.body.code b → x ∈ s.dead) ?_ (by simp)).mono ?_
  · intro b _ done ends s h _ x hx ho d hd hmem
    refine mem_dead_planBlock hx ho _ ?_
    rcases mem_cons.1 hd with rfl | hd
    · exact .inl hmem
    · exact .inr (h x hx ho d hd hmem)
  rintro s ⟨_, hs⟩ x hx ho
  obtain ⟨b, hb, hmem⟩ := mem_flatMap.1 hx
  obtain ⟨hmem, halloc⟩ := mem_inventory.1 hmem
  refine hs x halloc ho b (by simpa using (DomTree.mem_preorder hwf).2 hb) ?_
  rw [insts_eq, mem_append] at hmem
  refine hmem.resolve_left fun hphi => ?_
  obtain ⟨inputs, hop⟩ := isPhi_iff.1 (isPhi_of_mem_phis hphi)
  simp [allocates_of_op? hop, Op.isAlloc] at halloc

/-- The dead allocations are all of the layout. -/
def Spares (c : PlanContext) (s : Planner) : Prop :=
  ∀ x ∈ s.dead, c.body.allocates x = true → (c.layout.ofInst? x).isSome

theorem stable_spares (hx : c.body.allocates x = true → (c.layout.ofInst? x).isSome) :
    c.Stable x c.Spares := by
  have kill : ∀ s, c.Spares s → ∀ y ∈ x :: s.dead, c.body.allocates y = true →
      (c.layout.ofInst? y).isSome := by
    intro s h y hy
    rcases mem_cons.1 hy with rfl | hy
    · exact hx
    · exact h y hy
  exact {
    env := fun _ _ h => h
    kill := kill
    replaceBy := fun s _ h => kill s h
    addTemp := fun _ _ _ _ h => h
    fail := fail_of fun _ _ h => h
    unlock := fun _ _ h => h }

theorem Spares.planOp (h : c.Spares s) {op} (hop : c.body.op? x = some op) (b : BlockId) :
    c.Spares (c.planOp b x s op) := by
  by_cases hx : c.body.allocates x = true → (c.layout.ofInst? x).isSome
  · exact (stable_spares hx).planOp h b op
  · -- An allocation outside of the layout is left as it is.
    obtain ⟨halloc, ho⟩ := Classical.not_imp.1 hx
    rw [Option.not_isSome_iff_eq_none] at ho
    rw [allocates_of_op? hop] at halloc
    cases op with
    | new | newArray =>
      rw [PlanContext.planOp, ho]
      exact h
    | _ => cases halloc

theorem meets_rename_spares (c : PlanContext) : Metered.Answers c.Spares c.rename := by
  exact meets_rename_of (fun _ _ _ h => h)
    (fun _ sp h => snapshot_of (fail_of fun _ _ h => h) (fun _ _ _ _ h => h) h sp)
    (fun b _ _ _ hop h => h.planOp hop b) fun _ => nofun

end PlanContext

/-- The plan does without the allocations that `r` replaces, and without no others. -/
structure Plan.Clears (plan : Plan) (body : Body) (g : Graph) (r : Retention) : Prop where
  objects : plan.layout.objects.map ScalarObject.inst = g.replacedBy r
  reached : ∀ x ∈ plan.layout.objects.map ScalarObject.inst, x ∈ body.reachedAllocs
  dead : ∀ x, body.allocates x = true →
    (x ∈ plan.dead ↔ x ∈ plan.layout.objects.map ScalarObject.inst)

theorem Layout.OfBody.isSome_ofInst? {l : Layout} {x} (h : l.OfBody p body) :
    (l.ofInst? x).isSome ↔ x ∈ l.objects.map ScalarObject.inst := by
  constructor
  · intro ho
    obtain ⟨o, ho⟩ := Option.isSome_iff_exists.1 ho
    obtain ⟨hmem, rfl⟩ := h.found x o ho
    exact mem_map_of_mem hmem
  · intro hx
    obtain ⟨o, ho, rfl⟩ := mem_map.1 hx
    obtain ⟨o', ho'⟩ := h.known o ho
    exact ho' ▸ rfl

theorem Body.clears_plan {g : Graph} {r} (hwf : body.WellFormed) (hlisted : g.Listed p body)
    (hinsts : g.allocs.toList.map Allocation.inst = body.reachedAllocs)
    (hr : ∀ n ∈ r.replaced, n < g.allocs.size) :
    Metered.Answers (fun planned => ∀ plan, planned = .ready plan →
      plan.Clears body g r) (body.plan p g r) := by
  have hreached : ∀ layout : Layout, layout.objects.map ScalarObject.inst = g.replacedBy r →
      ∀ x ∈ layout.objects.map ScalarObject.inst, x ∈ body.reachedAllocs := by
    intro layout hobjects x hx
    rw [hobjects] at hx
    obtain ⟨n, hn, rfl⟩ := mem_map.1 hx
    rw [← hinsts, ← Graph.map_alloc_range]
    exact mem_map_of_mem (f := fun n => (g.alloc n).inst) (mem_range.2 (hr n hn))
  refine meets_plan_of ((Layout.meets_ofRetention hwf.insts hlisted hr).and
    (Layout.insts_ofRetention p g r)) ?_ ?_
  · rintro layout ⟨-, hobjects⟩ hempty
    exact ⟨hobjects, hreached layout hobjects, fun x _ => by simp [hempty]⟩
  · rintro layout ⟨hbody, hobjects⟩
    refine ((PlanContext.mem_dead_rename hwf).and (PlanContext.meets_rename_spares _)).mono ?_
    rintro s ⟨hdead, hspares⟩
    exact ⟨hobjects, hreached layout hobjects, fun x hx =>
      ⟨fun h => hbody.isSome_ofInst?.1 (hspares x h hx), fun h =>
        hdead x (hreached layout hobjects x h) (hbody.isSome_ofInst?.2 h)⟩⟩

namespace Pass

variable {p : Program} {settings : Settings} {body : Body} {a : Analysis}

theorem clears_of_plan (hwf : body.WellFormed) (h : a.Charted p settings body) {plan r b b'}
    (hy : Metered.Yields (Pass.plan p settings body a) b (plan, r) b') :
    plan.Clears body a.graph r ∧ r.reasons.size = a.graph.allocCount := by
  obtain ⟨_, _, _, hg⟩ := h.graph
  obtain ⟨⟨_, _, hplan⟩, hr⟩ := of_plan hy
  have hsize : r.reasons.size = a.graph.allocCount := by
    rw [h.retention] at hr
    rcases hr with rfl | ⟨_, rfl⟩ <;>
      rw [Retention.compute_narrower_none.size, Retention.none, Array.size_replicate]
  have hlt : ∀ n ∈ r.replaced, n < a.graph.allocs.size := fun n hn =>
    Nat.lt_of_lt_of_eq (mem_range.1 (mem_filter.1 hn).1) hsize
  exact ⟨(clears_plan hwf (Graph.listed_of_propagate hg) (Graph.insts_of_propagate hg)
    hlt).yields hplan plan rfl, hsize⟩

end Pass

/-! ## Marks -/

def Op.unmarked : Op → Op
  | .call c => .call { c with argEscape := false }
  | op => op

namespace Body

variable {body body' body'' : Body} {gone : List InstId}

def unmarked (body : Body) : Body :=
  { body with
    states := body.states.map fun s => { s with hasLocal := false }
    insts := body.insts.map fun inst => { inst with op := inst.op.unmarked } }

theorem unmarked_annotate (body : Body) (g : Graph) :
    (body.annotate g).unmarked = body.unmarked := by
  simp only [unmarked, annotate, SlotTable.map_map]
  congr 2
  funext inst
  dsimp only [Function.comp]
  split
  · rename_i hop
    simp [hop, Op.unmarked]
  · rfl

/-! ## Doing without allocations -/

/-- `body'` is like `body` without the allocations `gone`. -/
structure Clearance (body : Body) (gone : List InstId) (body' : Body) : Prop where
  outline : body'.outline = body.outline
  inventory : body'.inventory = body.inventory.without gone
  departed : ∀ x, body.Departed x ∨ x ∈ gone → body'.Departed x

theorem Alike.clearance (h : body.Alike body') : body.Clearance [] body' :=
  ⟨h.outline, h.inventory.trans without_nil.symm,
    fun x hx => h.departed x (hx.resolve_right not_mem_nil)⟩

theorem Clearance.trans_alike (h : body.Clearance gone body') (h' : body'.Alike body'') :
    body.Clearance gone body'' :=
  ⟨h'.outline.trans h.outline, h'.inventory.trans h.inventory,
    fun x hx => h'.departed x (h.departed x hx)⟩

theorem Alike.trans_clearance (h : body.Alike body') (h' : body'.Clearance gone body'') :
    body.Clearance gone body'' :=
  ⟨h'.outline.trans h.outline, by rw [h'.inventory, h.inventory],
    fun x hx => h'.departed x (hx.imp_left (h.departed x))⟩

theorem Clearance.mem_reachedAllocs (h : body.Clearance gone body') {x} :
    x ∈ body'.reachedAllocs ↔ x ∈ body.reachedAllocs ∧ x ∉ gone := by
  have horder : ∀ b, b ∈ body'.order ↔ b ∈ body.order := fun b =>
    ⟨mem_order_of_outline h.outline, mem_order_of_outline h.outline.symm⟩
  simp only [reachedAllocs, mem_flatMap, horder, h.inventory, Inventory.without,
    mem_filter, decide_eq_true_eq]
  grind

end Body

namespace Pass

variable {p : Program} {settings : Settings} {body : Body}

theorem clearance_carryOut {plan g r} (hwf : body.WellFormed) (hspares : body.Spares plan)
    (hclears : plan.Clears body g r) :
    Except.Answers (fun c => c.2.layout = plan.layout ∧
      body.Clearance (plan.layout.objects.map ScalarObject.inst) c.1) (carryOut plan body) := by
  refine (alike_carryOut plan hwf).mono (fun _ => id) ?_
  rintro ⟨_, c⟩ ⟨body', halike, rfl, hlayout⟩
  refine ⟨hlayout, ?_, ?_, fun x hx => ?_⟩
  · refine (outline_removeInsts fun x hx => ?_).trans halike.outline
    rw [outward?_of_outline halike.outline]
    exact hspares.outward? x hx
  · rw [inventory_removeInsts, halike.inventory]
    exact without_congr hclears.dead
  · rcases hx with hx | hx
    · exact (halike.departed x hx).removeInsts _
    · have halloc := (mem_reachedAllocs.1 (hclears.reached x hx)).1
      have hmem := (hclears.dead x halloc).2 hx
      rw [← halike.allocates] at halloc
      obtain ⟨op, hop, -⟩ := allocates_iff.1 halloc
      obtain ⟨inst, hinst, -⟩ := op?_eq_some_iff.1 hop
      exact ⟨retired_removeInsts hinst hmem, (lacks_removeInsts_of_mem hmem).code⟩

end Pass

/-! ## Locks that are counted -/

namespace Graph

variable {p : Program} {body : Body} {g : Graph}

theorem monitors_addInst (g : Graph) (x : InstId) :
    (addInst p body g x).monitors = g.monitors ++ monitorsOf body x := by
  rw [addInst_eq]
  rcases hal : allocation? p body x with _ | ⟨shape, escape⟩
  · rfl
  · have hnone : monitorsOf body x = [] := by
      rw [allocation?] at hal
      rw [monitorsOf]
      split at hal <;> simp_all
    rw [hnone, append_nil]
    dsimp only
    rw [addAlloc, declare]
    split <;> rfl

theorem monitors_of_propagate {settings settings' changed b b'}
    (h : Metered.Yields ((ofBody p body settings).propagate settings') b (g, changed) b') :
    ∀ obj ∈ g.monitors, ∃ b, ∃ x ∈ (body.block b).insts,
      body.op? x = some (.monitorEnter obj) := by
  obtain ⟨f, rfl, -⟩ := of_propagate h
  refine ofBody_induction (P := fun g => ∀ obj ∈ g.monitors, ∃ b, ∃ x ∈ (body.block b).insts,
    body.op? x = some (.monitorEnter obj)) settings nofun (fun g b _ x hx hg obj hobj => ?_)
    fun g t hg => by rwa [addTerm_eq]
  rw [monitors_addInst, mem_append] at hobj
  rcases hobj with hobj | hobj
  · exact hg obj hobj
  · rw [monitorsOf] at hobj
    split at hobj
    · rename_i hop
      rw [mem_singleton.1 hobj]
      exact ⟨b, x, hx, hop⟩
    · cases hobj

end Graph

theorem Elision.elide_eq (E : Elision p body)
    (hmonitors : ∀ obj ∈ E.graph.monitors, ∃ b, ∃ x ∈ (body.block b).insts, body.op? x = some
      (.monitorEnter obj)) (h : (body.elide E.graph E.replaced).2 = 0) :
    (body.elide E.graph E.replaced).1 = body := by
  rw [Body.elide] at h ⊢
  dsimp only at h ⊢
  split
  · rfl
  rename_i hsome
  rw [if_neg hsome] at h
  obtain ⟨n, hn⟩ : ∃ n, n ∈ E.sites :=
    exists_mem_of_ne_nil (E.graph.elidable body E.replaced) (by simpa using hsome)
  -- the allocation is locked by some operation, and the only operand that can be it names it
  have hlocked : .alloc n ∈ E.graph.locked := by
    simp only [sites, Graph.elidable, mem_filter, Bool.and_eq_true, decide_eq_true_eq] at hn
    exact hn.2.1.1.1
  obtain ⟨obj, hobj, hpts⟩ :=
    ((NodeSet.mem_foldl_union _ _ _).1 hlocked).resolve_left (NodeSet.not_mem_empty _)
  obtain ⟨b, x, hx, hop⟩ := hmonitors obj hobj
  have huse : (x, obj) ∈ body.monitorUses :=
    mem_monitorUses.2 ⟨b, 1, hx, by rw [hop]; rfl⟩
  have hdead : x ∈ E.dead := by
    refine mem_map.2 ⟨(x, obj), mem_filter.2 ⟨huse, decide_eq_true ?_⟩, rfl⟩
    rw [(direct hn huse hpts).1]
    exact mem_map_of_mem hn
  have hmem : x ∈ E.dead.eraseDups := mem_eraseDups.2 hdead
  exact absurd (length_eq_zero_iff.1 h) (ne_nil_of_mem hmem)

/-! ## The account -/

/-- The report on `body` says what has become of its allocations in `body'`. -/
structure Report.Accounts (r : Report) (body body' : Body) : Prop where
  nodup : (r.eliminated ++ r.retained.map Prod.fst).Nodup
  /-- The allocations of reachable blocks are listed. -/
  reached : ∀ x, x ∈ r.eliminated ++ r.retained.map Prod.fst ↔
    body.allocates x = true ∧ body.Reached x
  total : r.escape.total = r.eliminated.length + r.retained.length
  gone : ∀ x ∈ r.eliminated, body'.Lacks x
  /-- The retained allocations are those that reachable blocks have left. -/
  kept : ∀ x, x ∈ r.retained.map Prod.fst ↔ body'.allocates x = true ∧ body'.Reached x
  /-- In the table and in each block, the other allocations are as they were. -/
  left : body'.inventory = body.inventory.without r.eliminated
  merges : ∀ phi ∈ r.reducedMerges, body'.Lacks phi
  idle : r.outcome = .nothingToDo → body'.unmarked = body.unmarked

namespace Pass

variable {p : Program} {settings : Settings} {body : Body}

/-- The lists of a report on `s`, once `body'` does without what is replaced. -/
theorem accounts_report {s a body' locks} (hc : body.Checked)
    (hinsts : (a.graph.allocs.toList.map Allocation.inst).Perm
      body.reachedAllocs) (hsize : a.retention.reasons.size = a.graph.allocCount)
    (hclear : body.Clearance (a.graph.replacedBy a.retention) body')
    (hmerges : ∀ phi ∈ s.reduced, body'.Departed phi)
    (hidle : a.graph.replacedBy a.retention = [] → s.reduced = [] → locks = 0 →
      body'.unmarked = body.unmarked) :
    (report s a (a.graph.replacedBy a.retention) locks).Accounts
      body body' := by
  have hretained : (report s a (a.graph.replacedBy a.retention)
      locks).retained.map Prod.fst = a.retention.kept.map fun e => (a.graph.alloc e.1).inst := by
    simp only [report, map_map]
    rfl
  have hperm := (Graph.perm_insts hsize).trans hinsts
  have hnodup := hperm.nodup_iff.2 hc.nodup_reachedAllocs
  refine ⟨hretained ▸ hnodup, fun x => ?_, ?_, fun x hx => (hclear.departed x (.inr hx)).lacks,
    fun x => ?_, hclear.inventory, fun phi hphi => (hmerges phi hphi).lacks, fun hout => ?_⟩
  · rw [hretained, ← mem_reachedAllocs]
    exact hperm.mem_iff
  · have hlen := (Graph.perm_insts hsize).length_eq
    simp only [length_append, length_map, Array.length_toList] at hlen
    simp only [report, EscapeCounts.total_ofGraph, length_map, hlen, Graph.allocCount]
  · rw [hretained, ← mem_reachedAllocs, hclear.mem_reachedAllocs, ← hperm.mem_iff,
      mem_append]
    have hdisjoint := (nodup_append.1 hnodup).2.2
    exact ⟨fun h => ⟨.inr h, fun h' => hdisjoint x h' x h rfl⟩, fun h => h.1.resolve_left h.2⟩
  · have hnone : a.graph.replacedBy a.retention = [] ∧ s.reduced = [] ∧ locks = 0 := by
      simpa [report] using hout
    exact hidle hnone.1 hnone.2.1 hnone.2.2

theorem accounts_conclude (hc : body.Checked) {s} (h : s.Frugal p settings body) {r}
    (hsize : r.reasons.size = s.analysis.graph.allocCount) {left}
    (heliminated : left.2.1 = s.analysis.graph.replacedBy r)
    (hclearance : s.body.Clearance (s.analysis.graph.replacedBy r) left.1)
    (huntouched : s.analysis.graph.replacedBy r = [] → left.1 = s.body) :
    (conclude settings s r left).2.Accounts body (conclude settings s r left).1 := by
  obtain ⟨_, _, _, hy⟩ := h.charted.graph
  have halike := alike_conclude settings s r left
  have hclear := (h.alike.trans_clearance hclearance).trans_alike halike
  rw [conclude, heliminated]
  refine accounts_report (a := { s.analysis with retention := r }) hc
    (Graph.insts_of_propagate hy ▸ h.alike.perm_reachedAllocs) hsize hclear
    (fun phi hphi => ?_) fun hnone hred hlocks => ?_
  · exact halike.departed phi (hclearance.departed phi (.inl (h.departed phi hphi)))
  · have hs := h.untouched hred
    rw [hs] at hy
    let E : Elision p body :=
      { graph := s.analysis.graph, replaced := r.isReplaced, wf := hs ▸ h.wf, checked := hc
        solved := Graph.solved_of_propagate (hs ▸ h.wf.insts) hy
        numbered := Graph.numbered_of_propagate (hs ▸ h.wf.insts) hc hy }
    rw [(huntouched hnone).trans hs] at hlocks ⊢
    rw [unmarked_annotate]
    split at hlocks
    · rename_i hon
      have hzero : (body.elide E.graph E.replaced).2 = 0 := (Nat.add_eq_zero_iff.1 hlocks).2
      rw [if_pos hon, E.elide_eq (Graph.monitors_of_propagate hy) hzero]
    · rename_i hoff
      rw [if_neg hoff]

theorem accounts_finish (hc : body.Checked) {s} (h : s.Frugal p settings body) :
    Metered.Answers (fun r => r.2.Accounts body r.1) (finish p settings s) := by
  refine (meets_finish s).mono ?_
  rintro _ ⟨plan, r, left, ⟨_, _, hplan⟩, hleft, rfl⟩
  obtain ⟨hclears, hsize⟩ := clears_of_plan h.wf h.charted hplan
  have hobjects := hclears.objects
  cases hleft with
  | idle hnone =>
    rw [hnone, map_nil] at hobjects
    exact accounts_conclude hc h hsize hobjects (hobjects ▸ (Body.Alike.refl s.body).clearance)
      fun _ => rfl
  | out hsome hcarry =>
    have hmeets := clearance_carryOut h.wf (spares_of_plan hplan) hclears
    rw [hcarry] at hmeets
    obtain ⟨hlayout, hclear⟩ := hmeets
    rw [hobjects] at hclear
    refine accounts_conclude hc h hsize ?_ hclear fun hnone => absurd ?_ hsome
    · rw [Committed.eliminated, hlayout, hobjects]
    · rwa [← hobjects, map_eq_nil_iff] at hnone

theorem accounts_attempt (hwf : body.WellFormed) (hc : body.Checked) {r b b'}
    (hy : Metered.Yields (attempt p settings body) b r b') : r.2.Accounts body r.1 := by
  obtain ⟨s, b1, hs, ⟨hbody, hnone, rfl⟩ | h⟩ := of_attempt hy
  all_goals have hfrugal := (frugal_rounds p settings hwf).yields hs
  · obtain ⟨_, _, _, hg⟩ := hfrugal.charted.graph
    have hnil : body.reachedAllocs = [] := by
      rw [← hbody, ← Graph.insts_of_propagate hg, map_eq_nil_iff, ← length_eq_zero_iff]
      exact hnone
    have hlisted : ∀ x, x ∈ [] ↔ body.allocates x = true ∧ body.Reached x := fun x => by
      rw [← mem_reachedAllocs, hnil]
    exact ⟨.nil, hlisted, rfl, nofun, hlisted, without_nil.symm, nofun, fun _ => rfl⟩
  · exact (accounts_finish hc hfrugal).yields h

/-- The pass has neither been turned off nor given up. -/
def Completed (r : Report) : Prop := r.outcome = .reduced ∨ r.outcome = .nothingToDo

theorem yields_of_completed (h : Completed (body.optimize p settings).2) :
    ∃ b', Metered.Yields (attempt p settings body) { limit := settings.stepBudget }
      (body.optimize p settings) b' := by
  rcases optimize_cases p settings body with heq | hy | ⟨⟨_, fault⟩, _, -, heq⟩
  · simp [heq, Completed] at h
  · exact hy
  · rw [heq, Completed] at h
    cases fault <;> rcases h with h | h <;> cases h

end Pass

/-- The report of a pass that completes accounts for the allocations of the body. -/
theorem Body.accounts_optimize {p : Program} {settings : Settings} {body : Body}
    (hwf : body.WellFormed) (hissued : body.Issued) (hcheck : body.check p = .ok ())
    (hdone : Pass.Completed (body.optimize p settings).2) :
    (body.optimize p settings).2.Accounts body (body.optimize p settings).1 := by
  obtain ⟨b', hy⟩ := Pass.yields_of_completed hdone
  exact Pass.accounts_attempt hwf (checked_of_check hwf hissued hcheck) hy

namespace Pass

/-- Makes a box in one of two branches, and copies what is in it into a box that it returns. -/
def copyEither : Body where
  blocks := .ofEntries
    [{ insts := [⟨0, 1⟩, ⟨1, 1⟩], term := .branch ⟨0, 1⟩ ⟨1, 1⟩ ⟨2, 1⟩ },
      { insts := [⟨2, 1⟩, ⟨3, 1⟩], term := .jump ⟨3, 1⟩ },
      { insts := [⟨4, 1⟩], term := .jump ⟨3, 1⟩ },
      { insts := [⟨5, 1⟩, ⟨6, 1⟩, ⟨7, 1⟩], term := .ret (some ⟨1, 1⟩) }]
  insts := .ofEntries
    [⟨.param 0, some .int⟩, ⟨.new ⟨0, 1⟩, some .ref⟩, ⟨.new ⟨0, 1⟩, some .ref⟩,
      ⟨.storeField ⟨2, 1⟩ ⟨0, 1⟩ ⟨0, 1⟩, none⟩, ⟨.new ⟨0, 1⟩, some .ref⟩,
      ⟨.phi [(⟨1, 1⟩, ⟨2, 1⟩), (⟨2, 1⟩, ⟨4, 1⟩)], some .ref⟩,
      ⟨.loadField ⟨5, 1⟩ ⟨0, 1⟩, some .int⟩, ⟨.storeField ⟨1, 1⟩ ⟨0, 1⟩ ⟨6, 1⟩, none⟩]
  states := .ofEntries []
  entry := ⟨0, 1⟩
  params := [.int]
  ret := some .ref

/-- The boxes of the branches go with their merge, and the one that is returned stays. -/
theorem accounts_optimize_copyEither :
    (copyEither.optimize boxProgram {}).2 =
      { outcome := .reduced, rounds := 1, eliminated := [⟨4, 1⟩, ⟨2, 1⟩]
        retained := [(⟨1, 1⟩, .globalEscape)], reducedMerges := [⟨5, 1⟩]
        escape := { none := 2, global := 1 } } ∧
    (copyEither.optimize boxProgram {}).2.Accounts copyEither
      (copyEither.optimize boxProgram {}).1 := by
  have hreport : (copyEither.optimize boxProgram {}).2 =
      { outcome := .reduced, rounds := 1, eliminated := [⟨4, 1⟩, ⟨2, 1⟩]
        retained := [(⟨1, 1⟩, .globalEscape)], reducedMerges := [⟨5, 1⟩]
        escape := { none := 2, global := 1 } } := by cbv
  have hwf : copyEither.WellFormed := .ofEntries rfl
  exact ⟨hreport, accounts_optimize hwf (issued_of_live (by decide +kernel)) (by cbv)
    (.inl (by rw [hreport]))⟩

/-- Two blocks that make an object each. Only the first is reached. -/
def skipSecond : Body where
  blocks := .ofEntries
    [{ insts := [], term := .jump ⟨1, 1⟩ }, { insts := [⟨0, 1⟩], term := .ret none },
      { insts := [⟨1, 1⟩], term := .ret none }]
  insts := .ofEntries [⟨.new ⟨0, 1⟩, some .ref⟩, ⟨.new ⟨0, 1⟩, some .ref⟩]
  states := .ofEntries []
  entry := ⟨0, 1⟩
  params := []
  ret := none

/-- An allocation in a block that is not reached stays, and is not listed. -/
theorem unlisted_skipSecond :
    skipSecond.check boxProgram = .ok () ∧
    (skipSecond.optimize boxProgram {}).2.outcome = .reduced ∧
    (skipSecond.optimize boxProgram {}).2.eliminated = [⟨0, 1⟩] ∧
    (skipSecond.optimize boxProgram {}).2.retained = [] ∧
    ⟨1, 1⟩ ∈ ((skipSecond.optimize boxProgram {}).1.block ⟨2, 1⟩).insts ∧
    (skipSecond.optimize boxProgram {}).1.allocates ⟨1, 1⟩ = true :=
  ⟨by cbv, by decide +kernel, by decide +kernel, by decide +kernel, by decide +kernel,
    by decide +kernel⟩

end Pass

end EscapeAnalysis
