import EscapeAnalysis.Proofs.Pruning

/-!
# Runs of pruned bodies

A pruned body runs like the old one, only without the barriers that were pruned, which do nothing
but take fuel (`Machine.run_prune`). The check need not accept it: it looks at one of the places
where a debug state is observed, and a pruned barrier may have been named
(`Body.prune_visible_to_check`).
-/

namespace EscapeAnalysis

/-- The same state with some of the instructions left out that are still to run. -/
def RunState.skip {σ : Type} (gone : List InstId) (s : RunState σ) : RunState σ :=
  { s with rest := s.rest.map (List.filter (· ∉ gone)) }

namespace RunState

variable {σ : Type} {gone : List InstId} {s : RunState σ}

theorem skip_of_none (hr : s.rest = none) : s.skip gone = s := by
  cases s
  cases hr
  rfl

theorem skip_of_nil (hr : s.rest = some []) : s.skip gone = s := by
  cases s
  cases hr
  rfl

end RunState

namespace Machine

variable {σ : Type} {m : Machine} {host : Host σ} {s t : RunState σ}

/-- Goes on with the outcome of one unit of work. -/
def resume (m : Machine) (host : Host σ) (fuel : Nat) :
    Except RunError (Progress σ) → Except RunError (Exit × Heap × σ)
  | .error e => .error e
  | .ok (.ended exit heap state) => .ok (exit, heap, state)
  | .ok (.running s) => m.runFrom host fuel s

theorem runFrom_succ (fuel : Nat) (s : RunState σ) :
    m.runFrom host (fuel + 1) s = m.resume host fuel (m.tick host s) := by
  rw [runFrom]
  rcases m.tick host s with e | s | ⟨exit, heap, state⟩ <;> rfl

theorem resume_add {r n} (k : Nat) (h : m.resume host n r ≠ .error .outOfFuel) :
    m.resume host (n + k) r = m.resume host n r := by
  rcases r with e | s | ⟨exit, heap, state⟩
  · rfl
  · exact runFrom_add k h
  · rfl

theorem finishBlock_of_none (hr : s.rest = none) : m.finishBlock s = .ok (.running s) := by
  rw [finishBlock, hr]
  rfl

variable (m) in
def prune : Machine := { m with body := m.body.prune }

theorem eval_prune (f : Frame) (h : Heap) (x : InstId) (op : Op) :
    m.prune.eval f h x op = m.eval f h x op := by
  cases op <;> rfl

section Pruned

variable (hwf : m.body.WellFormed) (hc : m.body.Checked) {b : BlockId} {fuel : Nat}

include hwf in
theorem term_prune (hb : b ∈ m.body.order ∨ m.body.blocks.get? b = none) :
    (m.prune.body.block b).term = (m.body.block b).term := by
  by_cases hmem : b ∈ m.body.order
  · rw [prune, Body.block_prune hwf hmem]
  · rw [prune, Body.block_of_not_live (Body.get?_blocks_prune_of_not_mem hwf hmem),
      Body.block_of_not_live (hb.resolve_left hmem)]

include hwf hc in
theorem phis_code_prune (hb : b ∈ m.body.order ∨ m.body.blocks.get? b = none) :
    m.prune.body.phis b = m.body.phis b ∧
      m.prune.body.code b = (m.body.code b).filter (· ∉ m.body.pruned) := by
  by_cases hmem : b ∈ m.body.order
  · exact Body.phis_code_prune hwf hc hmem
  · have hnil : ∀ {body : Body}, body.blocks.get? b = none → body.phis b = [] ∧ body.code b = [] :=
      fun h => by rw [Body.phis, Body.code, Body.block_of_not_live h]; exact ⟨rfl, rfl⟩
    obtain ⟨hphis, hcode⟩ := hnil (hb.resolve_left hmem)
    obtain ⟨hphis', hcode'⟩ := hnil (Body.get?_blocks_prune_of_not_mem hwf hmem)
    rw [prune, hphis, hphis', hcode, hcode']
    exact ⟨rfl, rfl⟩

include hwf in
theorem finishBlock_prune (hl : m.Located s) (hr : s.rest = some []) :
    m.prune.finishBlock s = m.finishBlock s := by
  rw [finishBlock, finishBlock, hr, term_prune hwf hl.block]
  rfl

variable (m host) in
variable {x : InstId} {rest : List InstId}
/-- One unit of work of both machines: they do the same and stand before a block or have ended, or
they go on in their blocks, the second one without what was pruned. -/
inductive Follows : Except RunError (Progress σ) → Except RunError (Progress σ) → Prop
  | same {r : Except RunError (Progress σ)} (h : ∀ t, r = .ok (.running t) → t.rest = none) :
      Follows r r
  | goesOn {t : RunState σ} {rest} (hl : m.Located t) (hr : t.rest = some rest) :
      Follows (m.finishBlock t) (m.prune.finishBlock (t.skip m.body.pruned))

include hwf

include hc in
theorem follows_enter (hl : m.Located s) (hr : s.rest = none) :
    m.Follows (m.tick host s) (m.prune.tick host s) := by
  obtain ⟨hphis, hcode⟩ := phis_code_prune hwf hc hl.block
  have hop : ∀ x ∈ m.body.phis s.frame.block, m.prune.body.op? x = m.body.op? x := by
    intro x hx
    have hmem := Body.mem_insts_of_mem_phis hx
    have hb := hl.mem_order_of_mem hmem
    obtain ⟨inputs, hphi⟩ := Body.isPhi_iff.1 (Body.isPhi_of_mem_phis hx)
    exact Body.op?_prune_of_mem hwf hc hb hmem
      (Body.not_mem_pruned hwf hc hb hmem hphi (by simp))
  have henter := enterPhis_congr (f := s.frame) hop
  rw [tick, tick, hr, hphis, hcode, henter]
  rcases hf : m.enterPhis s.frame (m.body.phis s.frame.block) with e | frame
  · exact .same fun t ht => by cases ht
  · have hstep : m.Step host s _ := .enter hr hf
    exact .goesOn (hl.step hstep) rfl

theorem follows_runOp (hl : m.Located s) (hr : s.Next x rest) (op : Op) :
    m.Follows (m.runOp host s.frame x rest s.heap s.host op)
      (m.prune.runOp host s.frame x (rest.filter (· ∉ m.body.pruned)) s.heap s.host op) := by
  have hunwind : ∀ (heap : Heap) (state : σ) t, m.Follows (.ok (m.unwind s.frame heap state x t))
      (.ok (m.prune.unwind s.frame heap state x t)) := by
    intro heap state t
    rw [unwind, unwind, term_prune hwf hl.block]
    refine .same fun u hu => ?_
    split at hu
    · split at hu <;> cases hu
      rfl
    · cases hu
  have hproceed : ∀ (heap : Heap) (state : σ) v, m.Follows (m.proceed s.frame x rest heap state v)
      (m.prune.proceed s.frame x (rest.filter (· ∉ m.body.pruned)) heap state v) := by
    intro heap state v
    rw [proceed_eq, proceed_eq]
    exact .goesOn (hl.behind hr v heap state) rfl
  rcases hcall : op.isCall with _ | _
  · rw [runOp_plain hcall, runOp_plain hcall, eval_prune]
    rcases m.eval s.frame s.heap x op with (e | t) | effect
    · exact .same fun t ht => by cases ht
    · exact hunwind ..
    · exact hproceed ..
  · obtain ⟨c, rfl⟩ : ∃ c, op = .call c := by
      cases op <;> first | exact ⟨_, rfl⟩ | cases hcall
    rw [runOp, runOp]
    rcases c.args.mapM s.frame.get with (e | t) | args
    · exact .same fun t ht => by cases ht
    · exact hunwind ..
    · simp only [show m.prune.program = m.program from rfl]
      rcases host.call m.program c.callee args s.heap s.host with e | ⟨v | v, heap, state⟩
      · exact .same fun t ht => by cases ht
      · exact hproceed ..
      · exact hunwind ..

include hc in
theorem follows_op (hl : m.Located s) (hr : s.Next x rest) (hkept : x ∉ m.body.pruned) :
    m.Follows (m.tick host s) (m.prune.tick host (s.skip m.body.pruned)) := by
  obtain ⟨hb, hx⟩ := hl.mem_insts hr
  have hskip : (s.skip m.body.pruned).rest = some (x :: rest.filter (· ∉ m.body.pruned)) := by
    simp [RunState.skip, hr, hkept]
  have hop : m.prune.body.op? x = m.body.op? x := Body.op?_prune_of_mem hwf hc hb hx hkept
  rw [tick, hr, tick, hskip]
  show m.Follows (m.runInst host s x rest) (m.prune.runInst host (s.skip m.body.pruned) x _)
  rw [runInst, runInst, hop]
  rcases m.body.op? x with _ | op
  · exact .same fun t ht => by cases ht
  · have hleaves : m.prune.leavesAt? op = m.leavesAt? op := rfl
    dsimp only
    rw [hleaves]
    rcases m.leavesAt? op with _ | sp
    · exact follows_runOp hwf hl hr op
    · refine .same fun t ht => ?_
      rcases m.leave_spec s sp with ⟨_, _, -, h⟩ | ⟨_, -, h⟩ <;> cases ht.symm.trans h

include hc in
theorem tick_of_mem_pruned (hl : m.Located s) (hr : s.Next x rest) (hgone : x ∈ m.body.pruned) :
    m.tick host s = m.finishBlock { s with rest := some rest } := by
  obtain ⟨hb, hx⟩ := hl.mem_insts hr
  obtain ⟨store, -, hop⟩ := (Body.mem_barriersOf _).1 ((Body.mem_pruned_iff hwf hc hb hx).1 hgone)
  rw [tick_of_op hr hop rfl]
  rfl

theorem resume_of_follows {r r'} (hf : m.Follows r r')
    (hl : ∀ t, r = .ok (.running t) → m.Located t)
    (ih : ∀ t : RunState σ, m.Located t → t.rest ≠ some [] → m.runFrom host fuel t ≠ .error
      .outOfFuel → m.prune.resume host fuel (m.prune.finishBlock (t.skip m.body.pruned)) = m.runFrom
      host fuel t) (hne : m.resume host fuel r ≠ .error .outOfFuel) :
    m.prune.resume host fuel r' = m.resume host fuel r := by
  have hsame : (∀ t, r = .ok (.running t) → t.rest = none) →
      m.prune.resume host fuel r = m.resume host fuel r := by
    intro hrest
    rcases r with e | t | ⟨exit, heap, state⟩
    · rfl
    · have hr := hrest t rfl
      have hnext := ih t (hl t rfl) (by simp [hr]) hne
      rwa [RunState.skip_of_none hr, finishBlock_of_none hr] at hnext
    · rfl
  cases hf with
  | same hrest => exact hsame hrest
  | @goesOn t rest hl' hr =>
    rcases rest with _ | ⟨x, rest⟩
    · rw [RunState.skip_of_nil hr, finishBlock_prune hwf hl' hr]
      refine hsame fun u hu => ?_
      rcases m.finishBlock_spec host hr with ⟨_, -, h⟩ | ⟨_, _, _, -, h⟩ | ⟨_, -, h⟩ <;>
        cases hu.symm.trans h
      rfl
    · rw [finishBlock_of_rest hr] at hne ⊢
      exact ih t hl' (by simp [hr]) hne

include hc in
theorem runFrom_prune : ∀ (fuel : Nat) (s : RunState σ), m.Located s → s.rest ≠ some [] →
    m.runFrom host fuel s ≠ .error .outOfFuel →
    m.prune.resume host fuel (m.prune.finishBlock (s.skip m.body.pruned)) = m.runFrom host fuel s
  | 0, _, _, _, hne => absurd rfl hne
  | fuel + 1, s, hl, hrest, hne => by
    have ih := runFrom_prune fuel
    have hloc : ∀ t, m.tick host s = .ok (.running t) → m.Located t :=
      fun t ht => hl.steps (Steps.of_tick ht)
    rw [runFrom_succ] at hne ⊢
    rcases hr : s.rest with _ | _ | ⟨x, rest⟩
    · rw [RunState.skip_of_none hr, finishBlock_of_none hr, resume, runFrom_succ]
      exact resume_of_follows hwf (follows_enter hwf hc hl hr) hloc ih hne
    · exact absurd hr hrest
    · by_cases hgone : x ∈ m.body.pruned
      · have hskip : s.skip m.body.pruned =
            RunState.skip m.body.pruned { s with rest := some rest } := by
          simp [RunState.skip, hr, hgone]
        rw [tick_of_mem_pruned hwf hc hl hr hgone] at hne hloc ⊢
        have hl' : m.Located { s with rest := some rest } := hl.behind hr none s.heap s.host
        have hres := resume_of_follows hwf (.goesOn hl' rfl) hloc ih hne
        rw [hskip, ← hres]
        exact resume_add 1 (hres ▸ hne)
      · have hskip : (s.skip m.body.pruned).rest = some (x :: rest.filter (· ∉ m.body.pruned)) := by
          simp [RunState.skip, hr, hgone]
        rw [finishBlock_of_rest hskip, resume, runFrom_succ]
        exact resume_of_follows hwf (follows_op hwf hc hl hr hgone) hloc ih hne

include hc in
theorem run_prune {heap state} (hne : m.run host fuel heap state ≠ .error .outOfFuel) :
    m.prune.run host fuel heap state = m.run host fuel heap state := by
  simp only [run] at hne ⊢
  split at hne
  · rename_i hlen
    rw [if_pos hlen, if_pos (show m.prune.args.length = m.prune.body.params.length from hlen)]
    have hrun := runFrom_prune hwf hc fuel _ (located_start m heap state) (by simp [start]) hne
    rwa [RunState.skip_of_none rfl, finishBlock_of_none rfl] at hrun
  · rename_i hlen
    rw [if_neg hlen, if_neg (show ¬ m.prune.args.length = m.prune.body.params.length from hlen)]
    rfl

end Pruned

end Machine

namespace Body

variable {body : Body} {p : Program}

theorem prune_invisible (hco : body.Coherent) (hcheck : body.check p = .ok ()) :
    (∀ b, (∃ block, body.prune.blocks.get? b = some block) ↔ body.flow.Reachable b) ∧
    (∀ b, body.flow.Reachable b →
      body.prune.block b = { body.block b with
        insts := (body.block b).insts.filter (· ∉ body.barriersOf body.stranded) } ∧
      ∀ x ∈ (body.prune.block b).insts, body.prune.inst? x = body.inst? x) ∧
    (∀ b phi inputs, phi ∈ (body.prune.block b).insts →
      body.prune.op? phi = some (.phi inputs) → (inputs.map Prod.fst).Nodup ∧
        ∀ q, q ∈ inputs.map Prod.fst ↔ q ∈ body.flow.preds b ∧ body.flow.Reachable q) ∧
    (body.ObservedApart → body.ReadsNoPruned → body.prune.check p = .ok ()) ∧
    ∀ {σ : Type} (host : Host σ) (args : List Value) (forced : Option SafepointId) (heap : Heap)
      (state : σ) (fuel fuel' : Nat),
      Machine.run ⟨p, body, args, forced⟩ host fuel heap state ≠ .error .outOfFuel →
      Machine.run ⟨p, body.prune, args, forced⟩ host fuel' heap state ≠ .error .outOfFuel →
      Machine.run ⟨p, body.prune, args, forced⟩ host fuel' heap state =
        Machine.run ⟨p, body, args, forced⟩ host fuel heap state := by
  have hwf := hco.toWellFormed
  have hc := checked_of_check hwf hco.issued hcheck
  refine ⟨fun b => ?blocks, fun b hb => ?code, fun b phi inputs hphi hop => ?phis,
    fun hapart hread => check_prune hco hc hread hapart hcheck,
    fun host args forced heap state fuel fuel' hne hne' => ?runs⟩
  case blocks =>
    rw [← mem_order_iff]
    refine ⟨fun ⟨block, hblock⟩ => Classical.byContradiction fun hb => ?_, fun hb =>
      ⟨_, get?_blocks_prune_of_mem hwf hb⟩⟩
    simp [get?_blocks_prune_of_not_mem hwf hb] at hblock
  case code =>
    have hb := mem_order_iff.2 hb
    have hsame : (body.block b).insts.filter (· ∉ body.pruned) =
        (body.block b).insts.filter (· ∉ body.barriersOf body.stranded) :=
      List.filter_congr fun x hx => by rw [decide_eq_decide, mem_pruned_iff hwf hc hb hx]
    rw [block_prune hwf hb, hsame]
    refine ⟨rfl, fun x hx => ?_⟩
    rw [← hsame, List.mem_filter] at hx
    exact inst?_prune_of_mem hwf hc hb hx.1 (of_decide_eq_true hx.2)
  case phis =>
    obtain ⟨j, hj⟩ := List.mem_iff_getElem?.1 hphi
    obtain ⟨hb, hkept, i, hi, -⟩ := exists_of_getElem?_prune hco hc hj
    obtain ⟨op, hop', hcheck⟩ := hc.inst b hb i phi hi
    rw [op?_prune_of_mem hwf hc hb (List.mem_of_getElem? hi) hkept, hop'] at hop
    have hphi := hcheck.phi inputs (Option.some.inj hop)
    exact ⟨hphi.nodup, fun q => by rw [hphi.preds q, mem_order_iff]⟩
  case runs =>
    have hrun : Machine.run ⟨p, body.prune, args, forced⟩ host fuel heap state =
        Machine.run ⟨p, body, args, forced⟩ host fuel heap state :=
      Machine.run_prune (m := ⟨p, body, args, forced⟩) hwf hc hne
    have hmore := Machine.run_add fuel' (hrun.symm ▸ hne)
    rw [← Machine.run_add fuel hne', Nat.add_comm, hmore, hrun]

/-- A write barrier whose store stands in a block that nothing leads to. -/
def strandedStore : Body where
  blocks := .ofEntries
    [{ insts := [⟨0, 1⟩, ⟨1, 1⟩], term := .ret (some ⟨0, 1⟩) },
      { insts := [⟨2, 1⟩], term := .ret none }]
  insts := .ofEntries
    [⟨.const (.int 7), some .int⟩, ⟨.barrier ⟨2, 1⟩, none⟩,
      ⟨.storeGlobal ⟨0, 1⟩ ⟨0, 1⟩, none⟩]
  states := .ofEntries []
  entry := ⟨0, 1⟩
  params := []
  ret := some .int

/-- The barrier is pruned, and the run takes one unit of fuel less. -/
theorem prune_invisible_strandedStore :
    (strandedStore.prune.block ⟨0, 1⟩).insts = [⟨0, 1⟩] ∧ strandedStore.prune.check {} = .ok () ∧
    Machine.run ⟨{}, strandedStore.prune, [], none⟩ Machine.steadyHost 2 {} () =
      Machine.run ⟨{}, strandedStore, [], none⟩ Machine.steadyHost 3 {} () := by
  have hco : strandedStore.Coherent := coherent_of_live (.ofEntries rfl) (by decide +kernel)
    (by decide +kernel)
  obtain ⟨-, hcode, -, hcheck, hruns⟩ := prune_invisible (p := {}) hco (by cbv)
  have hok : ∀ {r : Except RunError (Exit × Heap × Unit)}, r.isOk = true →
      r ≠ .error .outOfFuel := by
    rintro _ h rfl
    cases h
  refine ⟨?_, hcheck (fun s site _ h => ?_) ?_,
    hruns _ [] none {} () 3 2 (hok (by decide +kernel)) (hok (by decide +kernel))⟩
  · rw [(hcode ⟨0, 1⟩ ⟨[], .entry⟩).1]
    decide +kernel
  · cases mem_siteList.2 h
  · show ∀ y ∈ strandedStore.prune.consumed, y ∉ strandedStore.barriersOf strandedStore.stranded
    decide +kernel

/-- A debug state that is observed twice, in a block that nothing leads to and before the value that
it names is there. -/
def observedTwice : Body where
  blocks := .ofEntries
    [{ insts := [⟨0, 1⟩, ⟨1, 1⟩], term := .ret (some ⟨1, 1⟩) }, { term := .deopt ⟨0, 1⟩ }]
  insts := .ofEntries [⟨.safepoint ⟨0, 1⟩, none⟩, ⟨.const (.int 7), some .int⟩]
  states := .ofEntries [{ locals := [.value ⟨1, 1⟩] }]
  entry := ⟨0, 1⟩
  params := []
  ret := some .int

/-- The check looks at one place for each debug state, so it finds the other one only when the first
has been pruned. It also rejects a body that reads a pruned barrier. -/
theorem prune_visible_to_check :
    (observedTwice.check {} = .ok () ∧ observedTwice.prune.check {} ≠ .ok ()) ∧
    let readsBarrier := strandedStore.setTerm ⟨0, 1⟩ (.ret (some ⟨1, 1⟩))
    readsBarrier.check {} = .ok () ∧ readsBarrier.prune.check {} ≠ .ok () := by
  refine ⟨⟨by cbv, ?_⟩, by cbv, ?_⟩
  · decide +kernel
  · decide +kernel

end Body

end EscapeAnalysis
