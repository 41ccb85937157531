import EscapeAnalysis.Pass.Run
import EscapeAnalysis.Proofs.CommittedCode
import EscapeAnalysis.Proofs.PlanSteps

/-!
# The pass keeps outlines

Whatever the pass adds or removes has nothing to do with the outside of the method. So every stage
keeps the outline of the body, and with it control flow, calls, globals and safepoints
(`Body.outline_optimize`).
-/

namespace EscapeAnalysis

open List
open Metered (Yields)

variable {body : Body} {x obj : InstId} {p : Program} {blacklist : List InstId} {b b' : Budget}

/-- The operation has nothing to do with the outside, and is no constant. -/
def Op.Expendable (op : Op) : Prop := op.outward? = none ∧ op.toConst? = none

theorem PlanContext.expendable_or (c : PlanContext) (op : Op) :
    op.Expendable ∨ ∀ b x s, c.planOp b x s op = s := by
  cases op <;> first
    | exact .inl ⟨rfl, rfl⟩
    | exact .inr fun _ _ _ => rfl

namespace Body

/-- What a plan lets die is expendable, and it replaces nothing else. -/
structure Spares (body : Body) (plan : Plan) : Prop where
  dead : ∀ x ∈ plan.dead, ∃ op, body.op? x = some op ∧ op.Expendable
  replace : ∀ x v, plan.replace.get? x = some v → x ∈ plan.dead

theorem Spares.outward? {plan} (h : body.Spares plan) :
    ∀ x ∈ plan.dead, body.outward? x = none := by
  intro x hx
  obtain ⟨op, hop, hout, -⟩ := h.dead x hx
  rw [outward?_of_op? hop, hout]

theorem spares_plan (p : Program) (body : Body) (g : Graph) (r : Retention) :
    Metered.Answers (fun planned => ∀ plan, planned = .ready plan →
      body.Spares plan) (body.plan p g r) := by
  refine meets_plan_of (.any _) (fun layout _ _ => ⟨fun x hx => (by cases hx), fun x v hv =>
    (by cases hv)⟩) fun layout _ => ?_
  exact (PlanContext.meets_buries (PlanContext.expendable_or _)).mono fun s hs =>
    ⟨hs.dead, hs.replace⟩

end Body

namespace Committed

variable {c : Committed}

theorem sizes_describe (sp : SafepointId) (s : DebugState) :
    Except.Answers (fun s' => s'.sizes = s.sizes) (c.describe sp s) := by
  rw [describe]
  refine (Except.Meets.any _).bind fun recipes _ => ?_
  simp [Except.Meets, pure, Except.pure, DebugState.sizes]

theorem alike_emit (c : Committed) : Except.Answers c.body.Alike c.emit := by
  refine (Except.Meets.foldlM (I := fun rest body => (∀ e ∈ rest, e ∈ c.body.states.toList) ∧
    c.body.Alike body) ?_ _ _ ⟨fun _ => id, .refl c.body⟩).mono (fun _ => id) fun _ h => h.2
  rintro ⟨sp, s⟩ rest body ⟨hmem, ha⟩
  refine (sizes_describe sp s).bind fun s' hs' => ?_
  refine ⟨fun e he => hmem e (.tail _ he),
    ha.trans (.of_eq (Body.outline_modifyState fun st hst => ?_) rfl rfl)⟩
  have hs := SlotTable.mem_toList_iff.1 (hmem (sp, s) (.head _))
  have hsame := congrFun (congrArg Outline.states ha.outline) sp
  simp only [Body.outline, hst, hs, Option.map_some, Option.some.injEq] at hsame
  exact hs'.trans hsame.symm

end Committed

namespace Reduction

variable {p : Program} {a : MergeAnalysis} {replaced : Nat → Bool} {web : Web} {phi user : InstId}
  {phis : List InstId} {r : Reduction}

theorem tacit_valueFor (body : Body) :
    Except.Answers (fun value => ∀ make, value = some make →
      (∃ op, body.op? user = some op ∧ op.Tacit) ∧ Splitter.Adds make)
      (valueFor p a replaced web phi user body) := by
  have hpart : ∀ pt, Splitter.Adds (part p a replaced web pt phi) :=
    fun _ => Splitter.adds_part _ _ _
  unfold valueFor
  split
  · exact nofun
  · rename_i hop
    rintro _ ⟨⟩
    exact ⟨⟨_, hop, rfl, rfl⟩, hpart _⟩
  · rename_i hop
    rintro _ ⟨⟩
    exact ⟨⟨_, hop, rfl, rfl⟩, hpart _⟩
  · rename_i hop
    cases (a.merges.desc phi).shapes with
    | exact cls =>
      rintro _ ⟨⟩
      exact ⟨⟨_, hop, rfl, rfl⟩, Splitter.adds_constant _⟩
    | poly classes => trivial
    | unknown => trivial
  · rename_i hop
    cases (a.merges.desc phi).shapes with
    | exact cls =>
      rintro _ ⟨⟩
      exact ⟨⟨_, hop, rfl, rfl⟩, Splitter.adds_constant _⟩
    | poly classes => trivial
    | unknown => trivial
  · trivial

/-- A reduction of `body` under way that has taken `phis` apart. What dies has nothing to do with
the outside. -/
structure Discreet (body : Body) (phis : List InstId) (r : Reduction) : Prop where
  extended : body.Extends r.splitter.body
  dead : ∀ x ∈ r.dead, ∃ op, r.splitter.body.op? x = some op ∧ op.Tacit
  reduced : r.reduced = phis
  buried : phis ⊆ r.dead

theorem Discreet.dead_of_extends (h : Discreet body phis r) {body'}
    (hext : r.splitter.body.Extends body') : ∀ x ∈ r.dead, ∃ op, body'.op? x = some op ∧ op.Tacit :=
  fun x hx => (h.dead x hx).imp fun _ hop => ⟨hext.op? hop.1, hop.2⟩

theorem Discreet.replaceUse (h : Discreet body phis r) (use : Use) :
    Except.Answers (Discreet body phis) (replaceUse p a replaced web phi r use) := by
  cases use with
  | inst user =>
    refine (tacit_valueFor r.splitter.body).bind fun value hvalue => ?_
    cases value with
    | none => exact h
    | some make =>
      obtain ⟨⟨op, hop, htacit⟩, hadds⟩ := hvalue make rfl
      have hext := hadds r.splitter h.extended.wf
      refine ⟨h.extended.trans hext, fun x hx => ?_, h.reduced,
        fun _ hx => .tail _ (h.buried hx)⟩
      rcases mem_cons.1 hx with rfl | hx
      · exact ⟨op, hext.op? hop, htacit⟩
      · exact h.dead_of_extends hext x hx
  | term b => exact h
  | debug sp => exact h

theorem dead_replaceInStates (states : List SafepointId) :
    (replaceInStates p a replaced web phi states r).dead = r.dead ∧
      (replaceInStates p a replaced web phi states r).reduced = r.reduced := by
  rw [replaceInStates]
  split <;> exact ⟨rfl, rfl⟩

theorem Discreet.reducePhi (h : Discreet body phis r)
    (hphi : ∃ op, body.op? phi = some op ∧ op.Tacit) (uses : Uses) :
    Except.Answers (Discreet body (phis ++ [phi]))
      (reducePhi p a replaced uses web r phi) := by
  refine (Except.Meets.foldlM (I := fun _ => Discreet body phis)
    (fun use rest r' hr' => hr'.replaceUse use) _ _ h).bind fun r' hr' => ?_
  have hon := extends_replaceInStates p a replaced web phi hr'.extended.wf
    (((uses.get? phi).getD []).filterMap debugState?)
  obtain ⟨hdead, hreduced⟩ := @dead_replaceInStates p a replaced web phi r'
    (((uses.get? phi).getD []).filterMap debugState?)
  have hext := hr'.extended.trans hon
  refine ⟨hext, fun x hx => ?_, ?_, fun x hx => ?_⟩
  · rcases mem_cons.1 hx with rfl | hx
    · exact hphi.imp fun _ hop => ⟨hext.op? hop.1, hop.2⟩
    · exact hr'.dead_of_extends hon x (hdead ▸ hx)
  · exact congrArg (· ++ [phi]) (hreduced.trans hr'.reduced)
  · rcases mem_append.1 hx with hx | hx
    · exact .tail _ (hdead ▸ hr'.buried hx)
    · rw [mem_singleton.1 hx]
      exact .head _

end Reduction

/-- Taking merges apart leaves a body that is alike, without these merges. -/
theorem Body.alike_reduce (p : Program) (a : MergeAnalysis) (replaced : Nat → Bool)
    (registry : Registry) {webs} (hwf : body.WellFormed)
    (hwebs : ∀ w ∈ webs, ∀ phi ∈ w.phis, ∃ op, body.op? phi = some op ∧ op.Tacit) :
    Except.Answers (fun r => r.1.WellFormed ∧ body.Alike r.1 ∧
      r.2.2 = webs.flatMap Web.phis ∧ ∀ phi ∈ r.2.2, r.1.Departed phi)
      (body.reduce p a replaced registry webs) := by
  refine (Reduction.meets_reduceWebs (P := Reduction.Discreet body) (fun w hw phi hphi phis r hr =>
    hr.reducePhi (hwebs w hw phi hphi) body.uses) (fun phis r registry hr => ⟨hr.extended, hr.dead,
      hr.reduced, hr.buried⟩) ⟨.refl hwf, by simp, rfl, by simp⟩).bind fun r hr => ?_
  obtain ⟨hext, hdead, hreduced, hburied⟩ := hr
  have hmapped : ∀ x ∈ r.dead, ∃ op, (r.splitter.body.substitute r.replace).op? x = some op ∧
      op.Tacit := by
    intro x hx
    obtain ⟨op, hop, htacit⟩ := hdead x hx
    refine ⟨op.mapOperands (resolve r.replace), ?_, ?_, ?_⟩
    · rw [substitute, op?_mapOperands, hop, Option.map_some]
    · rw [Op.outward?_mapOperands, htacit.outward]
    · rw [Op.isAlloc_mapOperands, htacit.isAlloc]
  refine ⟨(hext.wf.mapOperands _).removeInsts _,
    (hext.alike.trans (.mapOperands _ _)).trans (.removeInsts hmapped), hreduced,
    fun phi hphi => ?_⟩
  have hmem := hburied (hreduced ▸ hphi)
  obtain ⟨op, hop, -⟩ := hmapped phi hmem
  obtain ⟨inst, hinst, -⟩ := op?_eq_some_iff.1 hop
  exact ⟨retired_removeInsts hinst hmem, (lacks_removeInsts_of_mem hmem).code⟩

theorem Body.monitor?_of_mem_monitorUses (h : (x, obj) ∈ body.monitorUses) :
    ∃ op enters, body.op? x = some op ∧ op.monitor? = some (obj, enters) := by
  obtain ⟨block, -, huse⟩ := mem_flatMap.1 h
  obtain ⟨z, -, hz⟩ := mem_filterMap.1 huse
  obtain ⟨⟨obj', enters⟩, hmon, he⟩ := Option.map_eq_some_iff.1 hz
  cases he
  obtain ⟨op, hop, hmon⟩ := Option.bind_eq_some_iff.1 hmon
  exact ⟨op, enters, hop, hmon⟩

theorem Body.alike_elide (body : Body) (g : Graph) (replaced : Nat → Bool) :
    body.Alike (body.elide g replaced).1 := by
  rw [Body.elide]
  dsimp only
  split
  · exact .refl body
  refine (Alike.of_eq (Body.outline_mapStates fun st => by simp [DebugState.sizes]) rfl rfl).trans
    (.removeInsts fun x hx => ?_)
  obtain ⟨⟨y, obj⟩, hmem, rfl⟩ := mem_map.1 hx
  obtain ⟨op, enters, hop, hmon⟩ := monitor?_of_mem_monitorUses (mem_filter.1 hmem).1
  refine ⟨op, hop, ?_⟩
  obtain ⟨rfl, -⟩ | ⟨rfl, -⟩ := Op.of_monitor? hmon <;> exact ⟨rfl, rfl⟩

theorem Body.outline_annotate (body : Body) (g : Graph) :
    (body.annotate g).outline = body.outline := by
  have hstates : { body with
      states := body.states.map fun s =>
        { s with hasLocal := !s.recipes.isEmpty || s.insts.any g.isLocal } }.outline =
      body.outline := outline_mapStates fun _ => rfl
  refine (outline_mapInsts fun inst => ?_).trans hstates
  split
  · rename_i hop
    rw [hop]
    rfl
  · rfl

theorem Body.alike_annotate (body : Body) (g : Graph) : body.Alike (body.annotate g) where
  outline := body.outline_annotate g
  inventory := by
    refine (inventory_mapInsts fun inst => ?_).trans (inventory_of_eq rfl rfl)
    split
    · rename_i hop
      rw [hop]
      rfl
    · rfl
  departed _ hx := ⟨hx.retired.map _, hx.code⟩

theorem MergeAnalysis.tacit_of_compute {g leftOut enabled a} (hwf : body.WellFormed)
    (hy : Yields (compute p body g leftOut blacklist enabled) b a b') :
    ∀ w ∈ a.webs, w.obstacle = none → ∀ phi ∈ w.phis, ∃ op, body.op? phi = some op ∧ op.Tacit := by
  intro w hw hnone phi hphi
  obtain ⟨hlisted, hsettled, -⟩ := listed_of_compute hwf hy
  obtain ⟨inputs, hop, -⟩ := (hlisted.noted phi ((hsettled w hw hnone).keys phi hphi)).inputs
  exact ⟨_, hop, rfl, rfl⟩

/-- The graph of an analysis is that of the body, and nothing is kept but for its reasons. -/
structure Analysis.Charted (p : Program) (settings : Settings) (body : Body) (a : Analysis) :
    Prop where
  graph : ∃ changed b b', Yields ((Graph.ofBody p body settings).propagate settings) b
    (a.graph, changed) b'
  retention : a.retention = .compute p body a.graph a.merges settings []

theorem Analysis.of_compute {settings registry a}
    (h : Yields (compute p settings registry blacklist body) b a b') :
    a.Charted p settings body ∧ ∃ b1,
      Yields (MergeAnalysis.compute p body a.graph registry.isCarrier blacklist
        (settings.reduceMerges && settings.eliminateAllocations)) b1 a.merges b' := by
  rw [compute] at h
  split at h
  · obtain ⟨_, _, h, -⟩ := Metered.yields_bind.1 h
    exact absurd h Metered.not_yields_throw
  · obtain ⟨⟨graph, changed⟩, b1, hg, h⟩ := Metered.yields_bind.1 h
    obtain ⟨merges, b2, hm, h⟩ := Metered.yields_bind.1 h
    obtain ⟨rfl, rfl⟩ := Metered.yields_pure.1 h
    exact ⟨⟨⟨changed, b, b1, hg⟩, rfl⟩, b1, hm⟩

theorem Metered.run_during {α : Type} (x : Metered α) (rounds : Nat) (b : Budget) :
    ((x.during rounds).run.run b).run =
      ((x.run.run b).run.1.mapError (Abort.mk rounds), (x.run.run b).run.2) := rfl

namespace Rounds

variable {p : Program} {settings : Settings} {s s' : Rounds} {E : Abort → Prop}

/-- What one round does: it takes webs apart, or it leaves them alone. The latter happens to a round
that is undone, too. -/
inductive Follows (p : Program) (settings : Settings) (s : Rounds) : Rounds → Prop
  | apart {body registry reduced analysis b b'} (hlt : s.begun < settings.maxRounds)
      (hreduce : s.body.reduce p s.analysis.merges s.analysis.retention.isReplaced s.registry
        s.webs = .ok (body, registry, reduced))
      (ha : Yields (Analysis.compute p settings registry s.blacklist body) b analysis b') :
      Follows p settings s { s with
        body, registry, analysis, reduced := s.reduced ++ reduced, begun := s.begun + 1 }
  | alone {analysis begun rolledBack b b'}
      (hcount : s.begun < settings.maxRounds ∧ begun = s.begun + 1 ∧
          rolledBack = s.rolledBack + 1 ∨
        settings.maxRounds ≤ s.begun ∧ begun = s.begun ∧ rolledBack = s.rolledBack)
      (ha : Yields (Analysis.compute p settings s.registry
        (s.webs.flatMap Web.phis ++ s.blacklist) s.body) b analysis b') :
      Follows p settings s { s with
        blacklist := s.webs.flatMap Web.phis ++ s.blacklist, analysis, begun, rolledBack }

theorem meets_during {α : Type} {Q} {x : Metered α} {rounds} (h : Metered.Answers Q x)
    (hE : ∀ fault, E ⟨rounds, fault⟩) : Metered.Meets E Q (x.during rounds) :=
  fun b => (h b).mapError fun e _ => hE e

/-- The number of rounds that a fault in the round behind `s` tells. -/
def FailsAt (settings : Settings) (s : Rounds) (e : Abort) : Prop :=
  e.rounds = s.begun ∨ s.begun < settings.maxRounds ∧ e.rounds = s.begun + 1

theorem meets_step (s : Rounds) : Metered.Meets (s.FailsAt settings)
    (Sum.elim (fun s' => s.webs ≠ [] ∧ Follows p settings s s') (· = s)) (step p settings s) := by
  rw [step]
  dsimp only
  split
  · exact .pure rfl
  rename_i hne
  have hne : s.webs ≠ [] := by simpa using hne
  refine (meets_during (.any _) fun _ => .inl rfl).bind fun _ _ => ?_
  split
  · rename_i hle
    refine (meets_during ((Metered.Meets.self _).bind fun a ⟨_, _, ha⟩ => ?_)
      fun _ => .inl rfl).bind fun s' hs' => .pure ⟨hne, hs'⟩
    exact .pure (.alone (.inr ⟨hle, rfl, rfl⟩) ha)
  · rename_i hlt
    have hlt := Nat.lt_of_not_le hlt
    refine (meets_during ?_ fun _ => .inr ⟨hlt, rfl⟩).bind fun s' hs' => .pure ⟨hne, hs'⟩
    refine (Metered.Meets.lift (.self _)).bind fun ⟨body', registry, reduced⟩ hreduce => ?_
    refine (Metered.Meets.self _).bind fun a ⟨_, _, ha⟩ => ?_
    split
    · exact .pure (.apart hlt hreduce ha)
    · refine (Metered.Meets.self _).bind fun a' ⟨_, _, ha'⟩ => ?_
      exact .pure (.alone (.inl ⟨hlt, rfl, rfl⟩) ha')

/-- What every round keeps holds at the end of the rounds. -/
theorem meets_run {I} (hround : ∀ s s', I s → s.webs ≠ [] → Follows p settings s s' → I s')
    (hfail : ∀ s e, I s → s.FailsAt settings e → E e) (h : I s) :
    Metered.Meets E I (run p settings s) := by
  refine Metered.Meets.iterateOr (fun s _ hs => hfail s _ hs (.inl rfl)) (fun s hs b => ?_) h
  refine (meets_step s b).mono (fun e => hfail s e hs) ?_
  rintro (s' | s') hs'
  · exact hround s s' hs hs'.1 hs'.2
  · exact hs' ▸ hs

/-- The rounds so far have left the allocations alone. The merges that they have taken apart are
gone, and the body is the one that they started from if there are none. -/
structure Frugal (p : Program) (settings : Settings) (body : Body) (s : Rounds) : Prop where
  wf : s.body.WellFormed
  charted : s.analysis.Charted p settings s.body
  tacit : ∀ w ∈ s.analysis.merges.webs, w.obstacle = none →
    ∀ phi ∈ w.phis, ∃ op, s.body.op? phi = some op ∧ op.Tacit
  alike : body.Alike s.body
  departed : ∀ phi ∈ s.reduced, s.body.Departed phi
  untouched : s.reduced = [] → s.body = body

theorem frugal_start (hwf : body.WellFormed) {a b b'}
    (ha : Yields (Analysis.compute p settings {} [] body) b a b') :
    Frugal p settings body { body, analysis := a } := by
  obtain ⟨hcharted, _, hm⟩ := Analysis.of_compute ha
  exact ⟨hwf, hcharted, MergeAnalysis.tacit_of_compute hwf hm, .refl body, nofun, fun _ => rfl⟩

theorem phis_webs (h : s.webs ≠ []) : s.webs.flatMap Web.phis ≠ [] := by
  obtain ⟨w, hw⟩ := exists_mem_of_ne_nil _ h
  obtain ⟨-, -, phi, hphi, -⟩ := MergeAnalysis.mem_reducibleWebs.1 hw
  exact ne_nil_of_mem (mem_flatMap.2 ⟨w, hw, hphi⟩)

theorem Frugal.follows (h : Frugal p settings body s) (hne : s.webs ≠ [])
    (hs : Follows p settings s s') : Frugal p settings body s' := by
  cases hs with
  | alone hcount ha =>
    obtain ⟨hcharted, _, hm⟩ := Analysis.of_compute ha
    exact ⟨h.wf, hcharted, MergeAnalysis.tacit_of_compute h.wf hm, h.alike, h.departed,
      h.untouched⟩
  | apart hlt hreduce ha =>
    have htacit : ∀ w ∈ s.webs, _ := fun w hw => h.tacit w
      (MergeAnalysis.mem_reducibleWebs.1 hw).1 (MergeAnalysis.mem_reducibleWebs.1 hw).2.1
    have hmeets := Body.alike_reduce p s.analysis.merges s.analysis.retention.isReplaced s.registry
      h.wf htacit
    rw [hreduce] at hmeets
    obtain ⟨hwf, halike, hreduced, hdeparted⟩ := hmeets
    obtain ⟨hcharted, _, hm⟩ := Analysis.of_compute ha
    refine ⟨hwf, hcharted, MergeAnalysis.tacit_of_compute hwf hm, h.alike.trans halike,
      fun phi hphi => ?_, fun hnil => ?_⟩
    · rcases mem_append.1 hphi with hphi | hphi
      · exact halike.departed phi (h.departed phi hphi)
      · exact hdeparted phi hphi
    · exact absurd (hreduced.symm.trans (append_eq_nil_iff.1 hnil).2) (phis_webs hne)

end Rounds

namespace Pass

variable {p : Program} {settings : Settings} {a : Analysis} {s : Rounds} {b b' : Budget}
  {plan : Plan}

/-- Where the rounds end. A body without allocations needs none. -/
def rounds (p : Program) (settings : Settings) (body : Body) : Attempt Rounds := do
  let analysis ← (Analysis.compute p settings {} [] body).during 0
  if analysis.graph.allocCount = 0 then pure { body, analysis }
  else Rounds.run p settings { body, analysis }

theorem frugal_rounds (p : Program) (settings : Settings) (hwf : body.WellFormed) :
    Metered.Answers (Rounds.Frugal p settings body) (rounds p settings body) := by
  refine (Rounds.meets_during (Metered.Meets.self _) fun _ => trivial).bind fun a ⟨_, _, ha⟩ => ?_
  split
  · exact .pure (Rounds.frugal_start hwf ha)
  · exact Rounds.meets_run (fun _ _ hs => hs.follows) (fun _ _ _ _ => trivial)
      (Rounds.frugal_start hwf ha)

theorem yields_of_during {α : Type} {x : Metered α} {begun r} (h : Yields (x.during begun) b r b') :
    Yields x b r b' := by
  rw [Yields, Metered.run_during] at h
  rw [Yields]
  rcases hx : (x.run.run b).run with ⟨e | r', b1⟩
  · rw [hx] at h
    cases h
  · rw [hx] at h
    cases h
    rfl

theorem of_attempt {r : Body × Report} (h : Yields (attempt p settings body) b r b') :
    ∃ s b1, Yields (rounds p settings body) b s b1 ∧
      (s.body = body ∧ s.analysis.graph.allocCount = 0 ∧ r = (body, { outcome := .nothingToDo }) ∨
        Yields (finish p settings s) b1 r b') := by
  rw [attempt, Metered.yields_bind] at h
  obtain ⟨a, b1, ha, h⟩ := h
  split at h
  · rename_i hnone
    obtain ⟨rfl, rfl⟩ := Metered.yields_pure.1 h
    refine ⟨{ body, analysis := a }, b1, Metered.yields_bind.2 ⟨a, b1, ha, ?_⟩,
      .inl ⟨rfl, hnone, rfl⟩⟩
    rw [if_pos hnone]
    exact Metered.yields_pure.2 ⟨rfl, rfl⟩
  · rename_i hsome
    obtain ⟨s, b2, hs, h⟩ := Metered.yields_bind.1 h
    refine ⟨s, b2, Metered.yields_bind.2 ⟨a, b1, ha, ?_⟩, .inr (yields_of_during h)⟩
    rwa [if_neg hsome]

theorem of_planStep {r forced res} (h : Yields (planStep p settings body a (r, forced)) b res b') :
    (∃ plan b1, Yields (body.plan p a.graph r) b (.ready plan) b1 ∧ res = .inr (plan, r)) ∨
      ∃ forced, res = .inl (.compute p body a.graph a.merges settings forced, forced) := by
  obtain ⟨planned, b1, hplan, h⟩ := Metered.yields_bind.1 h
  cases planned with
  | ready plan => exact .inl ⟨plan, b1, hplan, (Metered.yields_pure.1 h).1.symm⟩
  | retry failures =>
    obtain ⟨_, _, -, h⟩ := Metered.yields_bind.1 h
    exact .inr ⟨_, (Metered.yields_pure.1 h).1.symm⟩

theorem of_plan {r} (h : Yields (Pass.plan p settings body a) b (plan, r) b') :
    (∃ b b', Yields (body.plan p a.graph r) b (.ready plan) b') ∧
      (r = a.retention ∨ ∃ forced, r = .compute p body a.graph a.merges settings forced) := by
  refine Metered.Yields.iterate (P := fun s : Retention × List (Nat × KeepReason) =>
      s.1 = a.retention ∨ ∃ forced, s.1 = .compute p body a.graph a.merges settings forced)
    (Q := fun s : Plan × Retention => (∃ b b', Yields (body.plan p a.graph s.2) b (.ready s.1) b') ∧
      (s.2 = a.retention ∨ ∃ forced, s.2 = .compute p body a.graph a.merges settings forced))
    ?_ ?_ (.inl rfl) h
  all_goals rintro ⟨r, forced⟩ b1 res b2 hr hstep
  · rcases of_planStep hstep with ⟨_, _, -, heq⟩ | ⟨forced, heq⟩ <;> cases heq
    exact .inr ⟨forced, rfl⟩
  · rcases of_planStep hstep with ⟨_, b3, hplan, heq⟩ | ⟨_, heq⟩ <;> cases heq
    exact ⟨⟨b1, b3, hplan⟩, hr⟩

/-- What is left of the body once a plan has been carried out, with what is eliminated and the
number of monitor operations removed. -/
inductive Carried (plan : Plan) (body : Body) : Body × List InstId × Nat → Prop
  | idle (h : plan.layout.objects = []) : Carried plan body (body, [], 0)
  | out {body' : Body} {committed} (h : plan.layout.objects ≠ [])
      (hc : carryOut plan body = .ok (body', committed)) :
      Carried plan body (body', committed.eliminated, committed.monitorsRemoved)

/-- What comes behind the plan: locks are elided and marks are made. -/
def conclude (settings : Settings) (s : Rounds) (r : Retention) (left : Body × List InstId × Nat) :
    Body × Report :=
  let elided := if settings.eliminateLocks then left.1.elide s.analysis.graph r.isReplaced
    else (left.1, 0)
  (elided.1.annotate s.analysis.graph,
    report s { s.analysis with retention := r } left.2.1 (left.2.2 + elided.2))

theorem meets_finish (s : Rounds) : Metered.Answers (fun res => ∃ plan r left,
    (∃ b b', Yields (Pass.plan p settings s.body s.analysis) b (plan, r) b') ∧
      Carried plan s.body left ∧ res = conclude settings s r left) (finish p settings s) := by
  refine (Metered.Meets.self _).bind fun ⟨plan, r⟩ hplan => ?_
  dsimp only
  split
  · exact .throw trivial
  have hleft : ∀ {left}, Carried plan s.body left →
      Metered.Meets (fun _ : Fault => True) (Carried plan s.body) (pure left) := .pure
  split
  · rename_i hnone
    exact (hleft (.idle (isEmpty_iff.1 hnone))).bind fun left hl =>
      (Metered.Meets.any _).bind fun _ _ =>
        (Metered.Meets.any _).bind fun _ _ => .pure ⟨plan, r, left, hplan, hl, rfl⟩
  · rename_i hsome
    refine (Metered.Meets.lift ((Except.Meets.self _).mapError fun _ _ => trivial)).bind
      fun ⟨body', committed⟩ hc => ?_
    exact (hleft (.out (by simpa using hsome) hc)).bind fun left hl =>
      (Metered.Meets.any _).bind fun _ _ =>
        (Metered.Meets.any _).bind fun _ _ => .pure ⟨plan, r, left, hplan, hl, rfl⟩

theorem alike_conclude (settings : Settings) (s : Rounds) (r : Retention)
    (left : Body × List InstId × Nat) : left.1.Alike (conclude settings s r left).1 := by
  refine Body.Alike.trans ?_ (Body.alike_annotate _ _)
  split
  · exact Body.alike_elide _ _ _
  · exact .refl _

theorem alike_carryOut (plan : Plan) (hwf : body.WellFormed) :
    Except.Answers (fun r => ∃ body', body.Alike body' ∧
      r.1 = body'.removeInsts plan.dead ∧ r.2.layout = plan.layout) (carryOut plan body) :=
  (plan.alike_commit hwf).bind fun c ⟨hcommit, hdead, hlayout⟩ =>
    c.alike_emit.bind fun body' hemit => ⟨body', hcommit.trans hemit, by rw [hdead], hlayout⟩

theorem outline_of_carried {left} (hwf : body.WellFormed) (hspares : body.Spares plan)
    (h : Carried plan body left) : left.1.outline = body.outline := by
  cases h with
  | idle => rfl
  | out _ hc =>
    have hmeets := alike_carryOut plan hwf
    rw [hc] at hmeets
    obtain ⟨body', halike, rfl, -⟩ := hmeets
    refine (Body.outline_removeInsts fun x hx => ?_).trans halike.outline
    rw [Body.outward?_of_outline halike.outline]
    exact hspares.outward? x hx

theorem spares_of_plan {r} (h : Yields (Pass.plan p settings body a) b (plan, r) b') :
    body.Spares plan := by
  obtain ⟨⟨_, _, hplan⟩, -⟩ := of_plan h
  exact (Body.spares_plan p body a.graph r).yields hplan plan rfl

/-- The pass is turned off, comes to an end, or gives up. -/
theorem optimize_cases (p : Program) (settings : Settings) (body : Body) :
    body.optimize p settings = (body, { outcome := .disabled }) ∨
    (∃ b', Yields (attempt p settings body) { limit := settings.stepBudget }
      (body.optimize p settings) b') ∨
    ∃ abort b', ((attempt p settings body).run.run { limit := settings.stepBudget }).run =
        (.error abort, b') ∧
      body.optimize p settings = (body,
        { outcome := .ofFault abort.fault, rounds := abort.rounds
          escape := { global := allocsIn body } }) := by
  rw [Body.optimize]
  split
  · exact .inl rfl
  refine .inr ?_
  rcases hrun : ((attempt p settings body).run.run { limit := settings.stepBudget }).run with
    ⟨abort | r, b'⟩
  all_goals
    have hfst := congrArg Prod.fst hrun
    dsimp only [Id.run] at hfst
    rw [hfst]
  · exact .inr ⟨abort, b', rfl, rfl⟩
  · exact .inl ⟨b', hrun⟩

end Pass

/-- The pass changes neither control flow nor what deals with the outside of the method: signature,
blocks, terminators, debug states with their sizes, and in each block the parameters, calls,
accesses to globals, safepoints and exceptions are those of the body it was given. -/
theorem Body.outline_optimize (p : Program) (settings : Settings)
    (hwf : body.WellFormed) : (body.optimize p settings).1.outline = body.outline := by
  rcases Pass.optimize_cases p settings body with h | ⟨b', hy⟩ | ⟨_, _, -, h⟩
  · rw [h]
  · obtain ⟨s, b₁, hs, ⟨-, -, h⟩ | h⟩ := Pass.of_attempt hy
    · rw [h]
    have hfrugal := (Pass.frugal_rounds p settings hwf).yields hs
    obtain ⟨plan, r, left, ⟨_, _, hplan⟩, hleft, heq⟩ := (Pass.meets_finish s).yields h
    rw [heq, (Pass.alike_conclude ..).outline,
      Pass.outline_of_carried hfrugal.wf (Pass.spares_of_plan hplan) hleft, hfrugal.alike.outline]
  · rw [h]

namespace Pass

/-- A class of boxes around an int, and a callee that takes one int. -/
def boxProgram : Program where
  classes := .ofEntries [{ name := "Box", parent := none, layout := [⟨0, 1⟩], flags := {} }]
  fields := .ofEntries [{ name := "value", ty := .int, holder := ⟨0, 1⟩ }]
  callees := .ofEntries [{ name := "use", params := [.int], ret := none, effects := none }]

/-- Puts its argument into a box and passes on what is in the box. -/
def unboxAndPass : Body where
  blocks := .ofEntries
    [{ name := "start"
       insts := [⟨0, 1⟩, ⟨1, 1⟩, ⟨2, 1⟩, ⟨3, 1⟩, ⟨4, 1⟩]
       term := .ret (some ⟨3, 1⟩) }]
  insts := .ofEntries
    [⟨.param 0, some .int⟩, ⟨.new ⟨0, 1⟩, some .ref⟩, ⟨.storeField ⟨1, 1⟩ ⟨0, 1⟩ ⟨0, 1⟩, none⟩,
      ⟨.loadField ⟨1, 1⟩ ⟨0, 1⟩, some .int⟩,
      ⟨.call { callee := ⟨0, 1⟩, args := [⟨3, 1⟩], safepoint := ⟨0, 1⟩ }, none⟩]
  states := .ofEntries [{ locals := [.value ⟨1, 1⟩] }]
  entry := ⟨0, 1⟩
  params := [.int]
  ret := some .int

theorem outline_optimize_unboxAndPass :
    (unboxAndPass.optimize boxProgram {}).2.eliminated = [⟨1, 1⟩] ∧
    (unboxAndPass.optimize boxProgram {}).1.outline.blocks ⟨0, 1⟩ =
      some { name := "start", term := .ret (some .null), insts := [⟨0, 1⟩, ⟨4, 1⟩] } := by
  have hwf : unboxAndPass.WellFormed := .ofEntries rfl
  refine ⟨by decide +kernel, ?_⟩
  rw [Body.outline_optimize boxProgram {} hwf]
  decide +kernel

end Pass

end EscapeAnalysis
