import EscapeAnalysis.Proofs.Accounting
import EscapeAnalysis.Proofs.LeastFacts
import EscapeAnalysis.Proofs.ReplacementChains

/-!
# The loops of the pass

Every stage of the pass has an outcome other than that the steps are used up (`Metered.Settles
Fault.NotSpent`). A plan that has to be made again leaves fewer allocations to be replaced
(`Pass.settles_planStep`). With more phis on the blacklist no more merges can be taken apart
(`MergeAnalysis.stricter_of_compute`). So a round takes webs apart, of which there are no more than
`maxRounds`, or it leaves all webs alone, and then none is left (`Rounds.Analyzed.counts`). Making
one plan fails to end only if a value is followed round and round (`Pass.circle_of_endless`).

Each stage is steady, so a pass that its budget does not cut off leaves the same body and gives the
same report under every greater budget (`Body.optimize_steady`). What a pass that ends can still do
is at the end: bodies that it gives up on, or gets wrong.
-/

namespace EscapeAnalysis

open List

namespace MergeAnalysis

open Merges

variable {c : MergeContext} {m : Merges} {a a' : MergeAnalysis} {blacklist blacklist' : List InstId}
  {enabled : Bool} {w : Web} {b b' b₁ b₁' : Budget}

theorem obstacleOf_of_more (hmore : ∀ phi ∈ blacklist, phi ∈ blacklist')
    (h : obstacleOf c (barred? blacklist' enabled) m w = none) :
    obstacleOf c (barred? blacklist enabled) m w = none ∧
      summed c (barred? blacklist' enabled) m w = summed c (barred? blacklist enabled) m w := by
  obtain ⟨hbar, hfind⟩ := obstacleOf_eq_none.1 h
  obtain ⟨hon, hclear, hacyclic⟩ := barred?_eq_none.1 hbar
  have hbar' : barred? blacklist enabled w = none :=
    barred?_eq_none.2 ⟨hon, fun phi hphi hmem => hclear phi hphi (hmore phi hmem), hacyclic⟩
  have hsame : summed c (barred? blacklist' enabled) m w =
      summed c (barred? blacklist enabled) m w := by rw [summed, summed, hbar, hbar']
  exact ⟨obstacleOf_eq_none.2 ⟨hbar', hsame ▸ hfind⟩, hsame⟩

/-- Two analyses of the same webs, the second of them without the additions to the blacklist. -/
structure Compared (blacklist : List InstId) (a' a : MergeAnalysis) : Prop where
  webs : ∀ w ∈ a'.webs, w.obstacle = none → ∃ w₀ ∈ a.webs, w₀.phis = w.phis ∧ w₀.obstacle = none
  desc : ∀ phi, (a'.merges.desc phi).obstacle = none → a'.merges.desc phi = a.merges.desc phi
  marked : ∀ w ∈ a'.webs, ∀ phi ∈ w.phis, (a'.merges.desc phi).obstacle = w.obstacle
  clear : ∀ w ∈ a'.webs, w.obstacle = none → ∀ phi ∈ w.phis, phi ∉ blacklist

section Body

variable {p : Program} {body : Body} {g : Graph} {leftOut : InstId → Bool}

section

variable (hwf : body.WellFormed) (hmore : ∀ phi ∈ blacklist, phi ∈ blacklist')
  (hy' : Metered.Yields (compute p body g leftOut blacklist' enabled) b' a' b₁')
  (hy : Metered.Yields (compute p body g leftOut blacklist enabled) b a b₁)
include hwf hmore hy' hy

theorem compared_of_compute : Compared blacklist' a' a ∧ a'.merges.SameCore a.merges := by
  have hp := progress_of_compute hwf hy
  have hp' := progress_of_compute hwf hy'
  generalize Merges.candidates body g leftOut = cands at *
  generalize Merges.ofCandidates body g cands = m0 at *
  refine ⟨⟨fun w hw hnone => ?_, fun phi hnone => ?_, fun w hw phi hphi => ?_,
    fun w hw hnone => ?_⟩, hp'.same.trans hp.same.symm⟩
  · rw [hp'.webs] at hw
    obtain ⟨w, hw0, rfl⟩ := mem_map.1 hw
    have hmem := mem_map_of_mem (f := fun w : Web => { w with
      obstacle := obstacleOf (.ofBody p body g) (barred? blacklist enabled) m0 w }) hw0
    exact ⟨_, hp.webs ▸ hmem, by rfl, (obstacleOf_of_more hmore hnone).1⟩
  · by_cases hphi : ∃ w ∈ m0.webs cands, phi ∈ w.phis
    · obtain ⟨w, hw, hphi⟩ := hphi
      rw [hp'.desc w hw phi hphi] at hnone ⊢
      have hnone : obstacleOf _ (barred? blacklist' enabled) m0 w = none := hnone
      obtain ⟨hnone1, hsame⟩ := obstacleOf_of_more hmore hnone
      rw [hp.desc w hw phi hphi, hnone, hnone1, hsame]
    · have hnot : ∀ w ∈ m0.webs cands, phi ∉ w.phis := fun w hw h => hphi ⟨w, hw, h⟩
      exact desc_congr ((hp'.fresh phi hnot).trans (hp.fresh phi hnot).symm)
  · rw [hp'.webs] at hw
    obtain ⟨w, hw0, rfl⟩ := mem_map.1 hw
    rw [hp'.desc w hw0 phi hphi]
  · rw [hp'.webs] at hw
    obtain ⟨w, hw, rfl⟩ := mem_map.1 hw
    exact (barred?_eq_none.1 (obstacleOf_eq_none.1 hnone).1).2.1

theorem stricter_of_compute : a'.Stricter a := by
  obtain ⟨h, hs⟩ := compared_of_compute hwf hmore hy' hy
  obtain ⟨hlisted, -⟩ := listed_of_compute hwf hy
  obtain ⟨hlisted', -⟩ := listed_of_compute hwf hy'
  refine ⟨fun x => ?_, fun x hx => ?_, fun phi hphi => ?_⟩
  · have hmem : x ∈ a'.merges.keys ↔ x ∈ a.merges.keys := hs.mem_keys
    simp only [SideTable.mem_keys_iff] at hmem
    rw [SideTable.contains, SideTable.contains, Bool.eq_iff_iff, Option.isSome_iff_exists,
      Option.isSome_iff_exists, hmem]
  · rw [isReducible_iff] at hx ⊢
    exact ⟨hs.mem_keys.1 hx.1, h.desc x hx.2 ▸ hx.2⟩
  · rw [mem_irreducible hlisted.named] at hphi
    rw [mem_irreducible hlisted'.named]
    exact ⟨hs.mem_keys.2 hphi.1, fun hnone => hphi.2 (h.desc phi hnone ▸ hnone)⟩

/-- Webs worth taking apart that are added to the blacklist are not worth it anymore, and no others
are. -/
theorem reducibleWebs_of_blacklisted {replaced replaced'}
    (hwebs : ∀ w ∈ (a.reducibleWebs replaced).map Prod.fst, ∀ phi ∈ w.phis, phi ∈ blacklist')
    (hreplaced : ∀ n, replaced' n = true → replaced n = true) :
    (a'.reducibleWebs replaced').map Prod.fst = [] := by
  obtain ⟨h, -⟩ := compared_of_compute hwf hmore hy' hy
  refine eq_nil_iff_forall_not_mem.2 fun w hw => ?_
  obtain ⟨hmem, hnone, phi, hphi, e, he, hr⟩ := mem_reducibleWebs.1 hw
  obtain ⟨w0, hw0, hphis, hnone0⟩ := h.webs w hmem hnone
  -- the web had the same leaves before, so it was worth taking apart
  have hdesc := h.desc phi ((h.marked w hmem phi hphi).trans hnone)
  refine h.clear w hmem hnone phi hphi (hwebs w0 ?_ phi (hphis ▸ hphi))
  exact mem_reducibleWebs.2 ⟨hw0, hnone0, phi, hphis ▸ hphi, e, hdesc ▸ he, hreplaced _ hr⟩

end

end Body

end MergeAnalysis

open Metered (Settles Steady Turns)

theorem Fault.spent_stepBudget (limit : Nat) : ¬ (stepBudget limit).NotSpent := fun h => h limit rfl

namespace Graph

theorem steady_propagatePointers (g : Graph) (f : Facts) :
    Steady Fault.NotSpent (g.propagatePointers f) :=
  Steady.iterateOr (P := fun _ => True) (fun _ b => Fault.spent_stepBudget b.limit)
    (fun _ _ => (Settles.ticks _).steady.bind fun _ _ _ _ => .pure _) (fun _ _ _ _ _ _ => trivial)
    trivial

theorem steady_closeEscape (f : Facts) : Steady Fault.NotSpent (closeEscape f) := by
  refine Steady.iterateOr (P := fun _ => True) (fun _ b => Fault.spent_stepBudget b.limit)
    (fun s _ => ?_) (fun _ _ _ _ _ _ => trivial) trivial
  obtain ⟨f, pending, grew⟩ := s
  cases pending with
  | nil => exact .pure _
  | cons n pending => exact (Steady.charge 1).bind fun _ _ _ _ => .pure _

theorem settles_propagateFacts {g : Graph} {S} (hS : g.Closed S) (limit : Nat) :
    ∀ (n : Nat) {f : Facts} (changed : Bool), g.Below S f →
      Settles Fault.NotSpent (fun _ => True) (g.propagateFacts limit n f changed)
  | 0, _, _, _ => .throw nofun
  | n + 1, f, changed, h => by
    rw [propagateFacts]
    refine ((propagatePointers_ends h hS).settles (g.steady_propagatePointers f)).bind ?_
    rintro ⟨f1, grew⟩ h1
    refine ((closeEscape_ends h1.below hS).settles (steady_closeEscape f1)).bind ?_
    rintro ⟨f2, more⟩ h2
    dsimp only
    split
    · exact settles_propagateFacts hS limit n true h2.below
    · exact .pure trivial

theorem settles_propagate (p : Program) (body : Body) (settings : Settings) :
    Settles Fault.NotSpent (fun _ => True)
      ((Graph.ofBody p body settings).propagate settings) :=
  (settles_propagateFacts (closed_top _) _ _ _ (Built.ofBody p body settings).below_top).bind
    fun _ _ => .pure trivial

end Graph

theorem Merges.settles_summarizeAll (g : Graph) : ∀ (phis : List InstId) (m : Merges),
    Settles Fault.NotSpent (fun _ => True) (m.summarizeAll g phis)
  | [], _ => .pure trivial
  | phi :: phis, m => (Settles.forM (fun _ => .charge _) _).bind fun _ _ =>
    settles_summarizeAll g phis (m.summarize g phi)

theorem MergeAnalysis.settles_compute (p : Program) (body : Body) (g : Graph)
    (leftOut : InstId → Bool) (blacklist : List InstId) (enabled : Bool) :
    Settles Fault.NotSpent (fun _ => True) (compute p body g leftOut blacklist enabled) := by
  refine Settles.foldlM (I := fun _ => True) (fun a w _ => ?_) _ _ trivial
  rw [addWeb]
  dsimp only
  rw [← barred?]
  split
  · exact Settles.bind (Q := fun _ => True) (.pure trivial) fun _ _ => .pure trivial
  · exact (Merges.settles_summarizeAll _ _ _).bind fun _ _ => .pure trivial

namespace Analysis

variable {p : Program} {settings : Settings} {registry : Registry} {blacklist : List InstId}
  {body : Body} {a : Analysis}

theorem settles_compute (p : Program) (settings : Settings) (registry : Registry)
    (blacklist : List InstId) (body : Body) :
    Settles Fault.NotSpent (fun _ => True) (compute p settings registry blacklist body) := by
  rw [compute]
  split
  · exact Settles.bind (Q := fun _ => False) (.throw fun _ h => by cases h) fun _ h => h.elim
  · exact (Graph.settles_propagate p body settings).bind fun _ _ =>
      (MergeAnalysis.settles_compute ..).bind fun _ _ => .pure trivial

theorem of_outcome_compute
    (h : Metered.Outcome (compute p settings registry blacklist body) (.ok a)) :
    (∃ changed, Metered.Outcome ((Graph.ofBody p body settings).propagate settings)
      (.ok (a.graph, changed))) ∧
    (∃ b b', Metered.Yields (MergeAnalysis.compute p body a.graph registry.isCarrier blacklist
      (settings.reduceMerges && settings.eliminateAllocations)) b a.merges b') ∧
    a.retention = .compute p body a.graph a.merges settings [] := by
  have hmerge := fun r : Graph × Bool => MergeAnalysis.settles_compute p body r.1
    registry.isCarrier blacklist (settings.reduceMerges && settings.eliminateAllocations)
  rw [compute] at h
  split at h
  · cases h.unique (Metered.Outcome.bind_error (.throw _))
  · obtain ⟨⟨graph, changed⟩, hg, h⟩ := h.exists_of_bind
      ((Graph.settles_propagate p body settings).ends.imp fun _ => And.left) fun r =>
        (((hmerge r).bind (R := fun _ => True) fun _ _ => .pure trivial).ends.imp fun _ => And.left)
    obtain ⟨merges, hm, h⟩ := h.exists_of_bind
      ((hmerge (graph, changed)).ends.imp fun _ => And.left) fun _ => ⟨_, .pure _⟩
    cases h.unique (.pure _)
    exact ⟨⟨changed, hg⟩, hm.yields, rfl⟩

end Analysis

theorem Layout.settles_ofRetention (p : Program) (g : Graph) (r : Retention) :
    Settles Fault.NotSpent (fun _ => True) (Layout.ofRetention p g r) := by
  refine Settles.foldlM (I := fun _ => True) (fun l n _ => ?_) _ _ trivial
  rw [Layout.addAlloc]
  dsimp only
  split
  · exact .throw fun _ h => by cases h
  · exact (Settles.charge _).bind fun _ _ => .pure trivial

theorem Metered.settles_demand (ends : Bool) :
    Settles Fault.NotSpent (fun _ => True) (demand ends) := by
  rw [demand]
  split
  · exact .pure trivial
  · exact .throw fun _ h => by cases h

namespace PlanContext

variable (c : PlanContext)

theorem settles_planCode (b : BlockId) : ∀ (xs : List InstId) (s : Planner),
    Settles Fault.NotSpent (fun _ => True) (c.planCode b xs s)
  | [], _ => .pure trivial
  | _ :: xs, _ => (Settles.charge 1).bind fun _ _ => (Metered.settles_demand _).bind fun _ _ =>
    settles_planCode b xs _

theorem settles_planTerm (b : BlockId) (s : Planner) :
    Settles Fault.NotSpent (fun _ => True) (c.planTerm b s) := by
  rw [planTerm]
  split
  · exact (Metered.settles_demand _).bind fun _ _ => .pure trivial
  · exact .pure trivial

theorem settles_planBlocks (dom : DomTree) (phisOf : SideTable .block (List Nat)) :
    ∀ (bs : List BlockId) (ends : SideTable .block (Array Scalar)) (s : Planner),
      Settles Fault.NotSpent (fun _ => True) (c.planBlocks dom phisOf bs ends s)
  | [], _, _ => .pure trivial
  | b :: bs, _, _ => by
    have hvisit : ∀ s, Settles Fault.NotSpent (fun _ => True) (c.visitBlock phisOf s b) :=
      fun s => (c.settles_planCode b _ _).bind fun _ _ => (c.settles_planTerm b _).bind fun _ _ =>
        .pure trivial
    exact (hvisit _).bind fun _ _ => settles_planBlocks dom phisOf bs _ _

end PlanContext

theorem Body.settles_plan (p : Program) (body : Body) (g : Graph) (r : Retention) :
    Settles Fault.NotSpent (fun planned => ∀ failures, planned = .retry failures →
      failures ≠ [] ∧ ∀ e ∈ failures, r.isReplaced e.1 = true) (body.plan p g r) := by
  have hplan : Settles Fault.NotSpent (fun _ => True) (body.plan p g r) := by
    rw [Body.plan]
    refine (Layout.settles_ofRetention p g r).bind fun layout _ => ?_
    split
    · exact .pure trivial
    · refine Settles.bind (Q := fun _ => True) ((Settles.ticks _).bind fun _ _ =>
        PlanContext.settles_planBlocks ..) fun s _ => ?_
      refine (Metered.settles_demand _).bind fun _ _ => ?_
      dsimp only
      split
      · exact .pure trivial
      · exact .pure trivial
  exact (hplan.and_meets (Body.replaced_of_retry p body g r)).mono fun _ => And.right

namespace Pass

variable {p : Program} {settings : Settings} {body : Body} {a : Analysis}

/-- What planning goes through: the retention that the allocations forced so far lead to. -/
def Replanned (p : Program) (settings : Settings) (body : Body) (a : Analysis)
    (s : Retention × List (Nat × KeepReason)) : Prop :=
  s.1 = .compute p body a.graph a.merges settings s.2

theorem lookup_append_isSome {l l' : List (Nat × KeepReason)} {n} :
    ((l ++ l').lookup n).isSome ↔ (l.lookup n).isSome ∨ (l'.lookup n).isSome := by
  rw [lookup_append, Option.isSome_or, Bool.or_eq_true]

/-- A plan that has to be made again leaves fewer allocations to be replaced. -/
theorem settles_planStep {s : Retention × List (Nat × KeepReason)}
    (h : Replanned p settings body a s) :
    Settles Fault.NotSpent
      (Sum.elim (fun s' => Replanned p settings body a s' ∧ s'.1.Narrower s.1 ∧
        s'.1.replaced.length < s.1.replaced.length) fun _ => True)
      (planStep p settings body a s) := by
  obtain ⟨r, forced⟩ := s
  obtain rfl : r = .compute p body a.graph a.merges settings forced := h
  refine (Body.settles_plan p body a.graph _).bind fun planned hplanned => ?_
  cases planned with
  | ready plan => exact .pure trivial
  | retry failures =>
    obtain ⟨hne, hfail⟩ := hplanned failures rfl
    refine (Settles.charge 1).bind fun _ _ => .pure ?_
    have hnarrow : (Retention.compute p body a.graph a.merges settings
        (failures ++ forced)).Narrower (.compute p body a.graph a.merges settings forced) :=
      Retention.narrower_compute (.refl _) fun n hn => lookup_append_isSome.2 (.inr hn)
    obtain ⟨⟨n, why⟩, hmem⟩ := exists_mem_of_ne_nil failures hne
    have hforced : (failures.lookup n).isSome := by
      rw [Option.isSome_iff_ne_none, Ne, lookup_eq_none_iff]
      exact fun hnone => by simpa using hnone _ hmem
    exact ⟨rfl, hnarrow, hnarrow.length_lt (hfail _ hmem)
      (Retention.isReplaced_compute_of_forced (lookup_append_isSome.2 (.inl hforced)))⟩

section

variable (h : a.retention = .compute p body a.graph a.merges settings [])
include h

theorem settles_plan :
    Settles Fault.NotSpent (fun _ => True) (plan p settings body a) :=
  Settles.iterateOr (μ := fun s => s.1.replaced.length)
    (fun _ b => Fault.spent_stepBudget b.limit)
    (fun _ hs => (settles_planStep hs).mono fun r hr => by
      cases r with
      | inl s' => exact ⟨hr.1, hr.2.2⟩
      | inr r => trivial) (h : Replanned p settings body a (a.retention, []))

/-- Every plan that had to be made again has taken at least one allocation off those to be
replaced. -/
theorem replaced_of_turns {j s}
    (hturns : Turns (planStep p settings body a) (a.retention, []) j s) :
    Replanned p settings body a s ∧
      j + s.1.replaced.length ≤ a.retention.replaced.length := by
  induction hturns with
  | start => exact ⟨h, by simp⟩
  | next _ hf ih =>
    obtain ⟨hs, -, hlt⟩ := (settles_planStep ih.1).of_outcome hf
    exact ⟨hs, by omega⟩

end

/-- Planning that never ends follows a value round and round. In a body that passes the check, it is
casts that lead round and round. -/
theorem circle_of_endless (hwf : body.WellFormed) {s}
    (h : Metered.Outcome (planStep p settings body a s) (.error .endless)) :
    ∃ layout t x, PlanContext.Passing { program := p, body, graph := a.graph, layout } t ∧
      PlanContext.forward? { program := p, body, graph := a.graph, layout } t
        (PlanContext.resolve { program := p, body, graph := a.graph, layout } t x) ≠ none ∧
      (body.Checked → body.CastCircle x) := by
  by_contra hno
  have hsettled : ∀ layout t,
      PlanContext.Passing { program := p, body, graph := a.graph, layout } t →
      PlanContext.Settled { program := p, body, graph := a.graph, layout } t := by
    intro layout t ht x
    rw [PlanContext.settles, Option.isNone_iff_eq_none]
    by_contra hx
    refine hno ⟨layout, t, x, ht, hx, fun hc => ?_⟩
    by_contra hcircle
    exact hx (((ht.ordered hwf hc).forward?_resolve_iff hc).2 hcircle)
  have hstep : Metered.Meets (· ≠ .endless) (fun _ => True) (planStep p settings body a s) := by
    refine (Body.ends_plan s.1 hsettled).bind fun planned _ => ?_
    cases planned with
    | ready plan => exact .pure trivial
    | retry failures =>
      exact (Metered.Meets.charge Fault.stepBudget_ne_endless 1).bind fun _ _ => .pure trivial
  exact h.meets hstep rfl

end Pass

namespace Metered

variable {α : Type} {x : Metered α} {E : Fault → Prop}

theorem Outcome.during {r} (h : Outcome x r) (rounds : Nat) :
    Outcome (x.during rounds) (r.mapError (Abort.mk rounds)) := by
  obtain ⟨n, c, hr⟩ := h
  exact ⟨n, c, fun b hb => by rw [run_during, hr b hb]⟩

theorem Steady.during (h : Steady E x) (rounds : Nat) :
    Steady (fun e : Abort => E e.fault) (x.during rounds) := by
  intro b r b' hr hm
  rcases hx : (x.run.run b).run with ⟨r1, b₁⟩
  rw [run_during, hx] at hr
  obtain ⟨rfl, -⟩ := Prod.mk.inj hr
  obtain ⟨cost, hcost⟩ := h b r1 b₁ hx (by cases r1 <;> exact hm)
  exact ⟨cost, fun b2 hb2 => by rw [run_during, hcost b2 hb2]⟩

theorem Settles.during {Q} (h : Settles E Q x) (rounds : Nat) :
    Settles (fun e : Abort => E e.fault) Q (x.during rounds) := by
  obtain ⟨hs, r, hr, hm⟩ := h
  exact ⟨hs.during rounds, _, hr.during rounds, hm.mapError fun _ he => he⟩

end Metered

theorem Body.notSpent_reduce (p : Program) (body : Body) (a : MergeAnalysis)
    (replaced : Nat → Bool) (registry : Registry) (webs : List Web) :
    Except.Meets Fault.NotSpent (fun _ => True) (body.reduce p a replaced registry webs) := by
  refine Except.Meets.bind (Q := fun _ => True) (Except.Meets.foldlM (I := fun _ _ => True)
    (fun web _ r _ => ?_) _ _ trivial) fun _ _ => .ok trivial
  rw [Reduction.reduceWeb]
  split
  · intro _ h
    cases h
  · refine Except.Meets.bind (Q := fun _ => True) (Except.Meets.foldlM (I := fun _ _ => True)
      (fun phi _ registry _ => ?_) _ _ trivial) fun _ _ => ?_
    · rw [Registry.register]
      split
      · intro _ h
        cases h
      · exact .ok trivial
    · exact ((Except.Meets.any _).mapError fun _ _ _ h => by cases h).bind fun _ _ => .ok trivial

namespace Rounds

variable {p : Program} {settings : Settings} {body : Body} {s s' : Rounds}

/-- The analysis is the one that the body has with all the steps it asks for. -/
def Surveyed (p : Program) (settings : Settings) (s : Rounds) : Prop :=
  Metered.Outcome (Analysis.compute p settings s.registry s.blacklist s.body) (.ok s.analysis)

theorem settles_leaveAlone (webs : List Web) (s : Rounds) :
    Settles Fault.NotSpent (Surveyed p settings) (leaveAlone p settings webs s) :=
  (Analysis.settles_compute ..).outcome.bind fun _ ⟨_, ha⟩ => .pure ha

theorem settles_takeApart (webs : List Web) (s : Rounds) :
    Settles Fault.NotSpent (Surveyed p settings) (takeApart p settings webs s) := by
  refine (Settles.lift (Body.notSpent_reduce ..)).bind fun ⟨body', registry, reduced⟩ _ => ?_
  refine (Analysis.settles_compute ..).outcome.bind fun a ⟨_, ha⟩ => ?_
  split
  · exact .pure ha
  · exact settles_leaveAlone webs _

theorem settles_step (p : Program) (settings : Settings) (s : Rounds) :
    Settles (fun e : Abort => e.fault.NotSpent)
      (Sum.elim (Surveyed p settings) fun _ => True) (step p settings s) := by
  rw [step]
  dsimp only
  split
  · exact .pure trivial
  refine ((Settles.charge 1).during s.begun).bind fun _ _ => ?_
  split
  · exact ((settles_leaveAlone _ _).during _).bind fun _ hs' => .pure hs'
  · exact ((settles_takeApart _ _).during _).bind fun _ hs' => .pure hs'

/-- Where the rounds stand after whole rounds: the body is analyzed. -/
structure Analyzed (p : Program) (settings : Settings) (body : Body) (s : Rounds) : Prop where
  frugal : s.Frugal p settings body
  surveyed : s.Surveyed p settings

/-- How the rounds are counted: one takes webs apart, or it leaves them alone and no web is left.
The latter happens to a round that is undone, too. -/
inductive Counts (settings : Settings) (s s' : Rounds) : Prop
  | apart (hlt : s.begun < settings.maxRounds) (hbegun : s'.begun = s.begun + 1)
      (hrolled : s'.rolledBack = s.rolledBack ∨ s'.rolledBack = s.rolledBack + 1 ∧ s'.webs = [])
  | alone (hle : settings.maxRounds ≤ s.begun) (hbegun : s'.begun = s.begun)
      (hrolled : s'.rolledBack = s.rolledBack) (hwebs : s'.webs = [])

/-- The rounds to come, and whether there is something to do. -/
def remaining (settings : Settings) (s : Rounds) : Nat :=
  2 * (settings.maxRounds - s.begun) + if s.webs = [] then 0 else 1

section

variable (h : s.Analyzed p settings body)
include h

/-- No web is left to take apart once those there are have been left alone. -/
theorem Analyzed.webs_eq_nil {a}
    (ha : Metered.Outcome (Analysis.compute p settings s.registry
      (s.webs.flatMap Web.phis ++ s.blacklist) s.body) (.ok a)) :
    (a.merges.reducibleWebs a.retention.isReplaced).map Prod.fst = [] := by
  obtain ⟨⟨_, hg⟩, ⟨b, b', hm⟩, hr⟩ := Analysis.of_outcome_compute h.surveyed
  obtain ⟨⟨_, hg'⟩, ⟨b₁, b₁', hm'⟩, hr'⟩ := Analysis.of_outcome_compute ha
  have hgraph : a.graph = s.analysis.graph :=
    congrArg Prod.fst (Except.ok.inj (hg'.unique hg))
  rw [hgraph] at hm' hr'
  have hmore : ∀ phi ∈ s.blacklist, phi ∈ s.webs.flatMap Web.phis ++ s.blacklist :=
    fun phi => mem_append_right _
  have hwebs : ∀ w ∈ s.webs, ∀ phi ∈ w.phis, phi ∈ s.webs.flatMap Web.phis ++ s.blacklist :=
    fun w hw phi hphi => mem_append_left _ (mem_flatMap.2 ⟨w, hw, hphi⟩)
  have hnarrow : a.retention.Narrower s.analysis.retention := by
    rw [hr, hr']
    exact Retention.narrower_compute
      (MergeAnalysis.stricter_of_compute h.frugal.wf hmore hm' hm) fun _ => id
  exact MergeAnalysis.reducibleWebs_of_blacklisted h.frugal.wf hmore hm' hm hwebs hnarrow.replaced

theorem Analyzed.counts (hs : Follows p settings s s')
    (hs' : s'.Surveyed p settings) : Counts settings s s' := by
  cases hs with
  | apart hlt => exact .apart hlt rfl (.inl rfl)
  | alone hcount =>
    have hwebs := h.webs_eq_nil hs'
    rcases hcount with ⟨hlt, rfl, rfl⟩ | ⟨hle, rfl, rfl⟩
    · exact .apart hlt rfl (.inr ⟨rfl, hwebs⟩)
    · exact .alone hle rfl rfl hwebs

theorem Analyzed.step :
    Settles (fun e : Abort => e.fault.NotSpent)
      (Sum.elim (fun s' => s'.Analyzed p settings body ∧ s.webs ≠ [] ∧ Counts settings s s')
        fun s' => s'.Analyzed p settings body) (step p settings s) := by
  refine ((settles_step p settings s).and_meets (meets_step s)).mono ?_
  rintro (s' | s') ⟨hs', hround⟩
  · obtain ⟨hne, hfollows⟩ := hround
    exact ⟨⟨h.frugal.follows hne hfollows, hs'⟩, hne, h.counts hfollows hs'⟩
  · exact hround ▸ h

theorem settles_run :
    Settles (fun e : Abort => e.fault.NotSpent) (Analyzed p settings body)
      (run p settings s) := by
  refine Settles.iterateOr (μ := remaining settings)
    (fun _ b => Fault.spent_stepBudget b.limit) (fun s hs => ?_) h
  refine hs.step.mono fun r hr => ?_
  cases r with
  | inr s' => exact hr
  | inl s' =>
    obtain ⟨hs', hne, hcounts⟩ := hr
    refine ⟨hs', ?_⟩
    rw [remaining, remaining, if_neg hne]
    cases hcounts with
    | apart hlt hbegun hrolled => split <;> omega
    | alone hle hbegun hrolled hwebs =>
      rw [if_pos hwebs]
      omega

end

/-- After `k` rounds in a row: there were no more than `maxRounds` that took webs apart, and one
more only if they are used up. That one leaves no web, and neither does a round that was undone. -/
theorem of_turns {analysis k} (h : Analyzed p settings body { body, analysis })
    (hturns : Turns (step p settings) { body, analysis } k s) :
    s.Analyzed p settings body ∧ s.begun ≤ settings.maxRounds ∧ s.rolledBack ≤ s.begun ∧
      (k = s.begun ∨ k = s.begun + 1 ∧ s.begun = settings.maxRounds ∧ s.webs = []) ∧
      (s.rolledBack = 0 ∨ s.rolledBack = 1 ∧ s.webs = []) := by
  induction hturns with
  | start => exact ⟨h, Nat.zero_le _, Nat.le_refl _, .inl rfl, .inl rfl⟩
  | next _ hf ih =>
    obtain ⟨ha, hle, hrolled, hk, hundone⟩ := ih
    obtain ⟨ha', hne, hcounts⟩ := ha.step.of_outcome hf
    -- something was left to do, so the rounds were not used up and none was undone
    have hk := hk.resolve_right fun h => hne h.2.2
    have hundone := hundone.resolve_right fun h => hne h.2
    cases hcounts with
    | apart hlt hbegun hrolled' =>
      refine ⟨ha', by omega, by omega, .inl (by omega), ?_⟩
      exact hrolled'.imp (by omega) fun h => ⟨by omega, h.2⟩
    | alone hle' hbegun hrolled' hwebs =>
      exact ⟨ha', by omega, by omega, .inr ⟨by omega, by omega, hwebs⟩, .inl (by omega)⟩

/-- What a report says of rounds. -/
def Counted (settings : Settings) (s : Rounds) : Prop :=
  s.rolledBack ≤ s.begun ∧ s.begun ≤ settings.maxRounds

theorem Counted.follows (h : s.Counted settings) (hs : Follows p settings s s') :
    s'.Counted settings := by
  obtain ⟨hrolled, hbegun⟩ := h
  cases hs with
  | apart hlt => exact ⟨Nat.le_succ_of_le hrolled, hlt⟩
  | alone hcount =>
    rcases hcount with ⟨hlt, rfl, rfl⟩ | ⟨-, rfl, rfl⟩
    · exact ⟨Nat.succ_le_succ hrolled, hlt⟩
    · exact ⟨hrolled, hbegun⟩

theorem Counted.run (h : s.Counted settings) :
    Metered.Meets (fun e : Abort => e.rounds ≤ settings.maxRounds) (Counted settings)
      (run p settings s) := by
  refine meets_run (fun _ _ hs _ => hs.follows) (fun s e hs he => ?_) h
  rcases he with heq | ⟨hlt, heq⟩
  · exact heq ▸ hs.2
  · exact heq ▸ hlt

end Rounds

namespace Pass

variable {p : Program} {settings : Settings} {body : Body}

theorem settles_finish {s} (h : s.analysis.Charted p settings s.body) :
    Settles Fault.NotSpent (fun _ => True) (finish p settings s) := by
  refine (settles_plan h.retention).bind fun ⟨plan, retention⟩ _ => ?_
  have hlift : ∀ {α : Type} (x : Except Breach α),
      Settles Fault.NotSpent (fun _ => True) (Metered.lift (x.mapError .invariant)) :=
    fun x => .lift ((Except.Meets.any x).mapError fun _ _ => nofun)
  have hlast : ∀ r : Body × List InstId × Nat, Settles Fault.NotSpent (fun _ => True)
      (pure r : Metered (Body × List InstId × Nat)) := fun r => .pure trivial
  dsimp only
  split
  · exact .throw nofun
  split
  · exact (hlast _).bind fun _ _ => (Metered.settles_demand _).bind fun _ _ =>
      (hlift _).bind fun _ _ => .pure trivial
  · exact (hlift _).bind fun _ _ => (hlast _).bind fun _ _ =>
      (Metered.settles_demand _).bind fun _ _ => (hlift _).bind fun _ _ => .pure trivial

theorem settles_attempt (p : Program) (settings : Settings) (hwf : body.WellFormed) :
    Settles (fun e : Abort => e.fault.NotSpent) (fun _ => True) (attempt p settings body) := by
  refine ((Analysis.settles_compute p settings {} [] body).outcome.during 0).bind
    fun a ⟨_, ha⟩ => ?_
  split
  · exact .pure trivial
  · obtain ⟨_, _, hy⟩ := ha.yields
    have hstart : Rounds.Analyzed p settings body { body, analysis := a } :=
      ⟨Rounds.frugal_start hwf hy, ha⟩
    exact (Rounds.settles_run hstart).bind fun s hs => (settles_finish hs.frugal.charted).during _

theorem counted_attempt (p : Program) (settings : Settings) (body : Body) :
    Metered.Meets (fun e : Abort => e.rounds ≤ settings.maxRounds)
      (fun r => r.2.rolledBack ≤ r.2.rounds ∧ r.2.rounds ≤ settings.maxRounds)
      (attempt p settings body) := by
  refine (Rounds.meets_during (.any _) fun _ => Nat.zero_le _).bind fun a _ => ?_
  split
  · exact .pure ⟨Nat.le_refl _, Nat.zero_le _⟩
  · have hstart : Rounds.Counted settings { body, analysis := a } :=
      ⟨Nat.le_refl _, Nat.zero_le _⟩
    refine hstart.run.bind fun s hs => ?_
    refine (Rounds.meets_during (meets_finish s) fun _ => hs.2).mono ?_
    rintro _ ⟨plan, r, left, -, -, rfl⟩
    exact hs

end Pass

/-- A report counts no more rounds than are allowed, and no more that were undone than rounds. -/
theorem Body.counted_optimize (p : Program) (settings : Settings) (body : Body) :
    (body.optimize p settings).2.rolledBack ≤ (body.optimize p settings).2.rounds ∧
      (body.optimize p settings).2.rounds ≤ settings.maxRounds := by
  rcases Pass.optimize_cases p settings body with heq | ⟨_, hy⟩ | ⟨abort, _, hrun, heq⟩
  · rw [heq]
    exact ⟨Nat.le_refl _, Nat.zero_le _⟩
  · exact (Pass.counted_attempt p settings body).yields hy
  · have hle := Pass.counted_attempt p settings body { limit := settings.stepBudget }
    rw [hrun] at hle
    rw [heq]
    exact ⟨Nat.zero_le _, hle⟩

variable {settings : Settings} {body : Body}

theorem Rounds.steady_run (p : Program) (settings : Settings) (s : Rounds) :
    Steady (fun e : Abort => e.fault.NotSpent) (run p settings s) :=
  Steady.iterateOr (P := fun _ => True) (fun _ b => Fault.spent_stepBudget b.limit)
    (fun s _ => (settles_step p settings s).steady) (fun _ _ _ _ _ _ => trivial) trivial

theorem Rounds.charted_run {p s} (h : s.analysis.Charted p settings s.body) :
    Metered.Answers (fun s' => s'.analysis.Charted p settings s'.body)
      (run p settings s) := by
  refine meets_run (fun _ _ _ _ hs => ?_) (fun _ _ _ _ => trivial) h
  cases hs with
  | apart _ _ ha => exact (Analysis.of_compute ha).1
  | alone _ ha => exact (Analysis.of_compute ha).1

theorem Pass.steady_attempt (p : Program) (settings : Settings) (body : Body) :
    Steady (fun e : Abort => e.fault.NotSpent) (attempt p settings body) := by
  refine ((Analysis.settles_compute p settings {} [] body).steady.during 0).bind fun a _ _ ha => ?_
  split
  · exact .pure _
  · refine (Rounds.steady_run p settings _).bind fun s _ _ hs => ?_
    have hcharted := (Analysis.of_compute (yields_of_during ha)).1
    have hs := (Rounds.charted_run (s := { body, analysis := a }) hcharted).yields hs
    exact (settles_finish hs).steady.during s.begun

theorem Body.optimize_eq (p : Program)
    (henabled : settings.enabled = true) : body.optimize p settings =
      match ((Pass.attempt p settings body).run.run { limit := settings.stepBudget }).run.1 with
      | .ok result => result
      | .error abort =>
        (body,
          { outcome := .ofFault abort.fault
            rounds := abort.rounds
            escape := { global := Pass.allocsIn body } }) := by
  rw [Body.optimize, henabled]
  rfl

/-- A pass that is not cut off does the same under every greater budget. -/
theorem Body.optimize_of_le (p : Program) {steps} (hle : settings.stepBudget ≤ steps)
    (hne : (body.optimize p settings).2.outcome ≠ .notReduced .budget) :
    body.optimize p { settings with stepBudget := steps } = body.optimize p settings := by
  by_cases henabled : settings.enabled = true
  · have hmore : { settings with stepBudget := steps : Settings }.enabled = true := henabled
    rw [Body.optimize_eq p henabled] at hne ⊢
    rw [Body.optimize_eq p hmore]
    -- the stages do not look at the budget in the settings
    have hsame : Pass.attempt p { settings with stepBudget := steps } body =
      Pass.attempt p settings body := rfl
    rcases hrun :
      ((Pass.attempt p settings body).run.run { limit := settings.stepBudget }).run with ⟨r, b⟩
    rw [hrun] at hne
    have hm : Except.Meets (fun e : Abort => e.fault.NotSpent) (fun _ => True) r := by
      cases r with
      | ok => trivial
      | error abort =>
        exact fun limit hlimit =>
          hne (congrArg PassOutcome.ofFault hlimit)
    obtain ⟨cost, hcost⟩ := Pass.steady_attempt p settings body _ r b hrun hm
    rw [hsame, hcost { limit := steps } (by simpa using hle)]
  · simp [Body.optimize, henabled]

/-- With all the steps they ask for, at most `maxRounds` rounds take webs apart. Another one follows
only if they are used up, and it leaves no web worth taking apart; nor does a round that is undone.
Each plan that has to be made again leaves strictly fewer allocations to be replaced, so that there
are no more of them than allocations. A plan that is never done follows a value round and round;
casts then lead round and round, if the body that is planned for has its operands available. So the
pass comes to an outcome, which may be that it never ends, but not that the steps are used up.
Whatever the budget is, the report counts no more rounds undone than rounds, and no more rounds than
`maxRounds`. -/
theorem Body.optimize_bounded (p : Program) (settings : Settings) {body : Body}
    (hwf : body.WellFormed) :
    (∀ analysis, Metered.Outcome (Analysis.compute p settings {} [] body) (.ok analysis) →
      ∀ k s, Turns (Rounds.step p settings) { body, analysis } k s →
        s.begun ≤ settings.maxRounds ∧
        (k = s.begun ∨ k = s.begun + 1 ∧ s.begun = settings.maxRounds ∧ s.webs = []) ∧
        (s.rolledBack = 0 ∨ s.rolledBack = 1 ∧ s.webs = []) ∧
        ∀ j r forced, Turns (Pass.planStep p settings s.body s.analysis)
            (s.analysis.retention, []) j (r, forced) →
          j + r.replaced.length ≤ s.analysis.graph.allocCount ∧
          (∀ r' forced', Metered.Outcome (Pass.planStep p settings s.body s.analysis (r, forced))
              (.ok (.inl (r', forced'))) →
            (∀ n, r'.isReplaced n = true → r.isReplaced n = true) ∧
              r'.replaced.length < r.replaced.length) ∧
          (Metered.Outcome (Pass.planStep p settings s.body s.analysis (r, forced))
              (.error .endless) →
            ∃ layout t x, PlanContext.Passing
                { program := p, body := s.body, graph := s.analysis.graph, layout } t ∧
              PlanContext.forward?
                  { program := p, body := s.body, graph := s.analysis.graph, layout } t
                (PlanContext.resolve
                  { program := p, body := s.body, graph := s.analysis.graph, layout } t x) ≠ none ∧
              (s.body.Checked → s.body.CastCircle x))) ∧
    (∃ outcome, Metered.Outcome (Pass.attempt p settings body) outcome ∧
      ∀ abort, outcome = .error abort → ∀ limit, abort.fault ≠ .stepBudget limit) ∧
    (body.optimize p settings).2.rolledBack ≤ (body.optimize p settings).2.rounds ∧
    (body.optimize p settings).2.rounds ≤ settings.maxRounds := by
  refine ⟨fun analysis ha k s hturns => ?_, ?_, Body.counted_optimize p settings body⟩
  · obtain ⟨b, b', hy⟩ := ha.yields
    have hstart : Rounds.Analyzed p settings body { body, analysis } :=
      ⟨Rounds.frugal_start hwf hy, ha⟩
    obtain ⟨hs, hbegun, -, hk, hundone⟩ := Rounds.of_turns hstart hturns
    have hr := hs.frugal.charted.retention
    refine ⟨hbegun, hk, hundone, fun j r forced hplans => ?_⟩
    obtain ⟨hreplanned, hj⟩ := Pass.replaced_of_turns hr hplans
    refine ⟨Nat.le_trans hj (hr ▸ Retention.length_replaced_compute_le),
      fun r' forced' hretry => ?_, Pass.circle_of_endless hs.frugal.wf⟩
    obtain ⟨-, hnarrow, hlt⟩ := (Pass.settles_planStep hreplanned).of_outcome hretry
    exact ⟨hnarrow.replaced, hlt⟩
  · obtain ⟨outcome, hout, hm⟩ := (Pass.settles_attempt p settings hwf).ends
    refine ⟨outcome, hout, fun abort habort => ?_⟩
    subst habort
    exact hm

/-- Reads a box that one of two branches has made. -/
def Pass.readEither : Body where
  blocks := .ofEntries
    [{ insts := [⟨0, 1⟩], term := .branch ⟨0, 1⟩ ⟨1, 1⟩ ⟨2, 1⟩ },
      { insts := [⟨1, 1⟩, ⟨2, 1⟩], term := .jump ⟨3, 1⟩ },
      { insts := [⟨3, 1⟩], term := .jump ⟨3, 1⟩ },
      { insts := [⟨4, 1⟩, ⟨5, 1⟩], term := .ret (some ⟨5, 1⟩) }]
  insts := .ofEntries
    [⟨.param 0, some .int⟩, ⟨.new ⟨0, 1⟩, some .ref⟩, ⟨.storeField ⟨1, 1⟩ ⟨0, 1⟩ ⟨0, 1⟩, none⟩,
      ⟨.new ⟨0, 1⟩, some .ref⟩, ⟨.phi [(⟨1, 1⟩, ⟨1, 1⟩), (⟨2, 1⟩, ⟨3, 1⟩)], some .ref⟩,
      ⟨.loadField ⟨4, 1⟩ ⟨0, 1⟩, some .int⟩]
  states := .ofEntries []
  entry := ⟨0, 1⟩
  params := [.int]
  ret := some .int

/-- With one round allowed for the merge of the boxes, the pass comes to an outcome. -/
theorem Pass.optimize_bounded_readEither :
    Pass.readEither.WellFormed ∧
    (∃ outcome,
      Metered.Outcome (Pass.attempt Pass.boxProgram { maxRounds := 1 } Pass.readEither) outcome ∧
      ∀ abort, outcome = .error abort → ∀ limit, abort.fault ≠ .stepBudget limit) ∧
    (Pass.readEither.optimize Pass.boxProgram { maxRounds := 1 }).2.rolledBack ≤
      (Pass.readEither.optimize Pass.boxProgram { maxRounds := 1 }).2.rounds ∧
    (Pass.readEither.optimize Pass.boxProgram { maxRounds := 1 }).2.rounds ≤ 1 := by
  have hwf : Pass.readEither.WellFormed := .ofEntries rfl
  exact ⟨hwf, (Body.optimize_bounded Pass.boxProgram { maxRounds := 1 } hwf).2⟩

/-- Reads back what it puts into a box. Nothing leads to its other block, where a cast casts
itself. -/
def Pass.strayCast : Body where
  blocks := .ofEntries
    [{ insts := [⟨0, 1⟩, ⟨1, 1⟩, ⟨2, 1⟩, ⟨3, 1⟩], term := .ret (some ⟨3, 1⟩) },
      { insts := [⟨4, 1⟩], term := .ret (some ⟨0, 1⟩) }]
  insts := .ofEntries
    [⟨.param 0, some .int⟩, ⟨.new ⟨0, 1⟩, some .ref⟩, ⟨.storeField ⟨1, 1⟩ ⟨0, 1⟩ ⟨0, 1⟩, none⟩,
      ⟨.loadField ⟨1, 1⟩ ⟨0, 1⟩, some .int⟩, ⟨.checkCast ⟨4, 1⟩ ⟨0, 1⟩, some .ref⟩]
  states := .ofEntries []
  entry := ⟨0, 1⟩
  params := [.int]
  ret := some .int

/-- However many steps there are from twenty on, the pass never comes to an end on a body that
passes the check. -/
theorem Pass.endless_strayCast : strayCast.check boxProgram = .ok () ∧
    ∀ steps, 20 ≤ steps →
      (strayCast.optimize boxProgram { stepBudget := steps }).2.outcome = .endless := by
  have hendless : (strayCast.optimize boxProgram { stepBudget := 20 }).2.outcome = .endless := by
    decide +kernel
  have hne : (strayCast.optimize boxProgram { stepBudget := 20 }).2.outcome ≠
      .notReduced .budget := by
    rw [hendless]
    nofun
  refine ⟨by decide +kernel, fun steps hle => ?_⟩
  have hsame : strayCast.optimize boxProgram { stepBudget := steps } =
      strayCast.optimize boxProgram { stepBudget := 20 } := Body.optimize_of_le boxProgram hle hne
  rw [hsame, hendless]

theorem Pass.concludes_report (s : Rounds) (a : Analysis) (eliminated : List InstId) (locks : Nat)
    (why : Bailout) : (report s a eliminated locks).outcome ≠ .notReduced why := by
  rw [report]
  split <;> simp

theorem Body.optimize_of_notReduced (p : Program) {why}
    (hwhy : (body.optimize p settings).2.outcome = .notReduced why) :
    (body.optimize p settings).1 = body := by
  rcases Pass.optimize_cases p settings body with heq | ⟨_, hy⟩ | ⟨_, _, -, heq⟩
  · rw [heq]
  · obtain ⟨s, _, -, ⟨-, -, heq⟩ | hfinish⟩ := Pass.of_attempt hy
    · rw [heq]
    · obtain ⟨_, _, _, -, -, heq⟩ := (Pass.meets_finish s).yields hfinish
      rw [heq] at hwhy
      exact absurd hwhy (Pass.concludes_report _ _ _ _ why)
  · rw [heq]

/-- The step budget cuts the pass off and does not steer it: a pass that is not cut off leaves the
same body with the same report under every greater budget. And a pass that gives up, for whatever
reason, leaves the body as it was. -/
theorem Body.optimize_steady (p : Program) (settings : Settings) (body : Body) :
    ((body.optimize p settings).2.outcome ≠ .notReduced .budget →
      ∀ steps, settings.stepBudget ≤ steps →
        body.optimize p { settings with stepBudget := steps } = body.optimize p settings) ∧
    ∀ why, (body.optimize p settings).2.outcome = .notReduced why →
      (body.optimize p settings).1 = body :=
  ⟨fun hne _ hle => Body.optimize_of_le p hle hne, fun _ => Body.optimize_of_notReduced p⟩

/-- Seven steps are enough to do without the box, so no greater budget makes a difference. Six are
not, and the body stays. -/
theorem Pass.optimize_steady_unboxAndPass :
    ((unboxAndPass.optimize boxProgram { stepBudget := 7 }).2.outcome = .reduced ∧
      ∀ steps, 7 ≤ steps → unboxAndPass.optimize boxProgram { stepBudget := steps } =
        unboxAndPass.optimize boxProgram { stepBudget := 7 }) ∧
    (unboxAndPass.optimize boxProgram { stepBudget := 6 }).2.outcome = .notReduced .budget ∧
    (unboxAndPass.optimize boxProgram { stepBudget := 6 }).1 = unboxAndPass := by
  have henough : (unboxAndPass.optimize boxProgram { stepBudget := 7 }).2.outcome = .reduced := by
    decide +kernel
  have hshort : (unboxAndPass.optimize boxProgram { stepBudget := 6 }).2.outcome =
    .notReduced .budget := by decide +kernel
  refine ⟨⟨henough, fun steps hle => ?_⟩, hshort,
    (Body.optimize_steady boxProgram { stepBudget := 6 } unboxAndPass).2 _ hshort⟩
  exact (Body.optimize_steady boxProgram { stepBudget := 7 } unboxAndPass).1
    (by rw [henough]; nofun) steps hle

namespace Pass

/-- How a body ends, with the first debug state taken, and how often each object is locked then. -/
def ends (body : Body) : Option (Exit × List UInt32) :=
  (Machine.run ⟨Machine.nodes, body, [.int 1], some ⟨0, 1⟩⟩ Host.idle 20 {} ()).toOption.map
    fun r => (r.1, r.2.1.objects.values.map Object.locks)

/-- Holds the lock of a node where the debug state names it as the candidate of a merge. -/
def lockMerged : Body where
  blocks := .ofEntries
    [{ insts := [⟨0, 1⟩, ⟨1, 1⟩, ⟨2, 1⟩, ⟨3, 1⟩, ⟨4, 1⟩, ⟨5, 1⟩], term := .ret none }]
  insts := .ofEntries
    [⟨.new ⟨0, 1⟩, some .ref⟩, ⟨.const (.int 0), some .int⟩, ⟨.const .null, some .ref⟩,
      ⟨.monitorEnter ⟨0, 1⟩, none⟩, ⟨.safepoint ⟨0, 1⟩, none⟩, ⟨.monitorExit ⟨0, 1⟩, none⟩]
  states := .ofEntries
    [{ monitors := [{ obj := .merge ⟨1, 1⟩ ⟨2, 1⟩ [.value ⟨0, 1⟩], eliminated := false }] }]
  entry := ⟨0, 1⟩
  params := [.int]
  ret := none

/-- Locks are taken again for the slots that name a replaced object themselves. -/
theorem unlocked_lockMerged : ∃ a b plan r b' body' c,
    Metered.Yields (Analysis.compute Machine.nodes {} {} [] lockMerged) { limit := 99 } a b ∧
    Metered.Yields (Pass.plan Machine.nodes {} lockMerged a) { limit := 99 } (plan, r) b' ∧
    carryOut plan lockMerged = .ok (body', c) ∧ body'.check Machine.nodes = .ok () ∧
    ends lockMerged = some (.deopt ⟨⟨0, 1⟩, [], [.ref ⟨0, 1⟩]⟩, [1]) ∧
    ends body' = some (.deopt ⟨⟨0, 1⟩, [], [.ref ⟨0, 1⟩]⟩, [0]) := by
  obtain ⟨a, b, ha, h⟩ := Metered.exists_yields (b := { limit := 99 })
    (x := Analysis.compute Machine.nodes {} {} [] lockMerged) (P := fun a =>
      (Metered.result? (Pass.plan Machine.nodes {} lockMerged a) { limit := 99 }).any fun r =>
        (carryOut r.1 lockMerged).toOption.any fun r => r.1.check Machine.nodes = .ok () ∧
          ends r.1 = some (.deopt ⟨⟨0, 1⟩, [], [.ref ⟨0, 1⟩]⟩, [0])) (by decide +kernel)
  obtain ⟨⟨plan, r⟩, b', hplan, h⟩ := Metered.exists_yields h
  obtain ⟨⟨body', c⟩, hcarry, h⟩ := Except.exists_ok_of_any h
  obtain ⟨hcheck, hlocks⟩ := of_decide_eq_true h
  exact ⟨a, b, plan, r, b', body', c, ha, hplan, hcarry, hcheck, by decide +kernel, hlocks⟩

/-- Where the rounds end with the steps that the settings allow. -/
def rounds? (p : Program) (settings : Settings) (body : Body) : Option Rounds :=
  Metered.result? (rounds p settings body) { limit := settings.stepBudget }

/-- The state shows an object of the run that does not escape for good. -/
def ShowsLocal (st : DebugState) (g : Graph) (values : SideTable .inst Value)
    (log : List (ObjRef × InstId)) : Prop :=
  ∃ v ∈ st.debugValues, ∃ x o a, v.Selects values (.value x) ∧ values.get? x = some (.ref o) ∧
    (o, a) ∈ log ∧ g.escapeOfInst? a ≠ some .global

/-- A class without fields. -/
def points : Program where
  classes := .ofEntries [{ name := "Point", parent := none, layout := [], flags := {} }]
  fields := .ofEntries []
  callees := .ofEntries []

/-- Puts an object into an array, copies it into another one of length 1, loads it from there, and
shows it at a safepoint. -/
def copyThrough : Body where
  blocks := .ofEntries
    [{ insts := [⟨0, 1⟩, ⟨1, 1⟩, ⟨2, 1⟩, ⟨3, 1⟩, ⟨4, 1⟩, ⟨5, 1⟩, ⟨6, 1⟩, ⟨7, 1⟩, ⟨8, 1⟩, ⟨9, 1⟩]
       term := .ret none }]
  insts := .ofEntries
    [⟨.param 0, some .int⟩, ⟨.newArray .ref ⟨0, 1⟩, some .ref⟩, ⟨.new ⟨0, 1⟩, some .ref⟩,
      ⟨.const (.int 0), some .int⟩, ⟨.storeElem ⟨1, 1⟩ ⟨3, 1⟩ ⟨2, 1⟩, none⟩,
      ⟨.const (.int 1), some .int⟩, ⟨.newArray .ref ⟨5, 1⟩, some .ref⟩,
      ⟨.arrayCopy ⟨1, 1⟩ ⟨3, 1⟩ ⟨6, 1⟩ ⟨3, 1⟩ ⟨5, 1⟩, none⟩,
      ⟨.loadElem ⟨6, 1⟩ ⟨3, 1⟩, some .ref⟩, ⟨.safepoint ⟨0, 1⟩, none⟩]
  states := .ofEntries [{ locals := [.value ⟨8, 1⟩] }]
  entry := ⟨0, 1⟩
  params := [.int]
  ret := none

/-- The second array is done without: the safepoint now shows a load from the first one that was
added in place of the copy. The graph knows nothing of it, so the safepoint is not marked, though it
shows an object that does not escape. -/
theorem unmarked_copyThrough :
    let m : Machine := ⟨points, (copyThrough.optimize points {}).1, [.int 3], none⟩
    ∃ (r : Rounds) (s : RunState Unit) (log : List (ObjRef × InstId)) (st : DebugState),
      copyThrough.check points = .ok () ∧ Completed (copyThrough.optimize points {}).2 ∧
      rounds? points {} copyThrough = some r ∧
      m.Trace Host.idle m.Disciplined (m.start {} ()) s log ∧
      s.rest = some [⟨9, 1⟩] ∧ m.body.op? ⟨9, 1⟩ = some (.safepoint ⟨0, 1⟩) ∧
      m.body.states.get? ⟨0, 1⟩ = some st ∧
      ShowsLocal st r.analysis.graph s.frame.values log ∧ st.hasLocal = false := by
  intro m
  obtain ⟨r, hr, htest⟩ := (Option.any_eq_true ..).1
    (show ((rounds? points {} copyThrough).any fun r =>
      r.analysis.graph.escapeOfInst? ⟨2, 1⟩ = some .none) = true by decide +kernel)
  have hesc : r.analysis.graph.escapeOfInst? ⟨2, 1⟩ = some .none := of_decide_eq_true htest
  obtain ⟨s, log, hrun, htest⟩ := Machine.exists_trace_of_follow? (m := m) (s := m.start {} ())
    Host.idle 9
    (fun (s, log) => s.rest = some [⟨9, 1⟩] ∧
      s.frame.values.get? ⟨11, 1⟩ = some (.ref ⟨1, 1⟩) ∧ (⟨1, 1⟩, ⟨2, 1⟩) ∈ log)
    (by decide +kernel) (by decide +kernel)
  obtain ⟨hrest, hval, hmem⟩ := of_decide_eq_true htest
  obtain ⟨st, hst, htest⟩ := (Option.any_eq_true ..).1
    (show ((m.body.states.get? ⟨0, 1⟩).any fun st => !st.hasLocal &&
      st.locals.any (·.isValueOf ⟨11, 1⟩)) = true by decide +kernel)
  obtain ⟨hmark, hlocal⟩ := Bool.and_eq_true_iff.1 htest
  obtain ⟨v, hv, hvalue⟩ := any_eq_true.1 hlocal
  obtain rfl := DebugValue.isValueOf_iff.1 hvalue
  refine ⟨r, s, log, st, by cbv, .inl (by decide +kernel), hr, hrun, hrest, by decide +kernel, hst,
    ?_, by simpa using hmark⟩
  exact ⟨_, by simp [DebugState.debugValues, hv], _, _, _, .value _, hval, hmem, by simp [hesc]⟩

/-- Stores a node in another one on both ways to where only the latter is in the debug state. -/
def storeTwice : Body where
  blocks := .ofEntries
    [{ insts := [⟨0, 1⟩, ⟨1, 1⟩, ⟨2, 1⟩], term := .branch ⟨0, 1⟩ ⟨1, 1⟩ ⟨2, 1⟩ },
      { insts := [⟨3, 1⟩], term := .jump ⟨3, 1⟩ }, { insts := [⟨4, 1⟩], term := .jump ⟨3, 1⟩ },
      { term := .deopt ⟨0, 1⟩ }]
  insts := .ofEntries
    [⟨.param 0, some .int⟩, ⟨.new ⟨0, 1⟩, some .ref⟩, ⟨.new ⟨0, 1⟩, some .ref⟩,
      ⟨.storeField ⟨1, 1⟩ ⟨0, 1⟩ ⟨2, 1⟩, none⟩, ⟨.storeField ⟨1, 1⟩ ⟨0, 1⟩ ⟨2, 1⟩, none⟩]
  states := .ofEntries [{ locals := [.value ⟨1, 1⟩] }]
  entry := ⟨0, 1⟩
  params := [.int]
  ret := none

/-- A snapshot ends at a phi, which turns out to be the stored node only later. -/
theorem unrecorded_storeTwice : storeTwice.check Machine.nodes = .ok () ∧
    (storeTwice.optimize Machine.nodes {}).2.outcome = .notReduced .invariant :=
  ⟨by cbv, by cbv⟩

/-- Locks a node, and unlocks what another one refers to, which is the same node on both ways. -/
def lockThrough : Body where
  blocks := .ofEntries
    [{ insts := [⟨0, 1⟩, ⟨1, 1⟩, ⟨2, 1⟩, ⟨3, 1⟩], term := .branch ⟨0, 1⟩ ⟨1, 1⟩ ⟨2, 1⟩ },
      { insts := [⟨4, 1⟩], term := .jump ⟨3, 1⟩ },
      { insts := [⟨5, 1⟩, ⟨6, 1⟩], term := .jump ⟨3, 1⟩ },
      { insts := [⟨7, 1⟩, ⟨8, 1⟩], term := .ret none }]
  insts := .ofEntries
    [⟨.param 0, some .int⟩, ⟨.new ⟨0, 1⟩, some .ref⟩, ⟨.new ⟨0, 1⟩, some .ref⟩,
      ⟨.monitorEnter ⟨2, 1⟩, none⟩, ⟨.storeField ⟨1, 1⟩ ⟨0, 1⟩ ⟨2, 1⟩, none⟩,
      ⟨.checkCast ⟨2, 1⟩ ⟨0, 1⟩, some .ref⟩, ⟨.storeField ⟨1, 1⟩ ⟨0, 1⟩ ⟨5, 1⟩, none⟩,
      ⟨.loadField ⟨1, 1⟩ ⟨0, 1⟩, some .ref⟩, ⟨.monitorExit ⟨7, 1⟩, none⟩]
  states := .ofEntries []
  entry := ⟨0, 1⟩
  params := [.int]
  ret := none

/-- The load becomes a phi, which the graph does not know: only the entering is removed. -/
theorem threw_lockThrough : lockThrough.check Machine.nodes = .ok () ∧
    ends lockThrough = some (.ret none, [0, 0]) ∧
    ends (lockThrough.optimize Machine.nodes {}).1 = some (.threw .illegalMonitorState, [0]) := by
  refine ⟨by cbv, by decide +kernel, ?_⟩
  unfold Body.optimize attempt finish Body.elide
  -- A condition that is a Boolean is evaluated once.
  simp only [← Bool.cond_eq_ite]
  cbv

end Pass

end EscapeAnalysis
