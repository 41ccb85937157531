import EscapeAnalysis.Proofs.CommittedCode
import EscapeAnalysis.Proofs.Monitors
import EscapeAnalysis.Proofs.PlanSteps

/-!
# What plans record of replaced objects

The layout of a plan lists allocations of the body with their shapes (`Layout.OfBody`). At every
safepoint a plan notes one value for each slot of the replaced objects it meets (`Layout.Fits`), and
carrying the plan out keeps that (`Body.recorded`).
-/

namespace EscapeAnalysis

open List

variable {p : Program} {r : Retention} {plan : Plan}

theorem Except.Meets.mapM_length {ε α β : Type} {E R} {f : α → Except ε β} (l : List α)
    (h : ∀ a ∈ l, Except.Meets E R (f a)) :
    Except.Meets E (fun bs => bs.length = l.length ∧ ∀ b ∈ bs, R b) (l.mapM f) := by
  have hl := Except.Meets.mapM l h
  rcases hbs : l.mapM f with e | bs <;> rw [hbs] at hl
  · exact hl
  · refine ⟨?_, hl⟩
    simpa using (congrArg List.length (Except.mapM_eq_ok.1 hbs)).symm

/-- A debug value that names no recipe and is no choice. -/
def DebugValue.Direct : DebugValue → Prop
  | value _ | const _ => True
  | object _ | merge .. => False

namespace Graph

variable {p : Program} {body : Body} {g : Graph}

/-- The allocations of the graph are instructions of the body, with the shapes that the body gives
them. -/
def Listed (p : Program) (body : Body) (g : Graph) : Prop :=
  ∀ (n : Nat) a, g.allocs[n]? = some a →
    ∃ escape, allocation? p body a.inst = some (a.shape, escape)

theorem Listed.addInst (h : Listed p body g) (x : InstId) : Listed p body (addInst p body g x) := by
  intro n a ha
  rcases hal : allocation? p body x with _ | ⟨shape, escape⟩
  · rw [(addInst_of_none hal).1] at ha
    exact h n a ha
  · rw [(addInst_of_some hal).1, Array.getElem?_push] at ha
    split at ha
    · cases ha
      exact ⟨escape, hal⟩
    · exact h n a ha

theorem Listed.addTerm (h : Listed p body g) (t : Terminator) : Listed p body (g.addTerm t) := by
  rw [addTerm_eq]
  exact h

theorem listed_of_propagate {settings settings' changed b b'}
    (h : Metered.Yields ((ofBody p body settings).propagate settings') b (g, changed) b') :
    Listed p body g := by
  obtain ⟨f, rfl, -⟩ := of_propagate h
  refine ofBody_induction (P := Listed p body) settings (fun n a ha => ?_)
    (fun _ _ _ x _ hg => hg.addInst x) fun _ t hg => hg.addTerm t
  simp at ha

end Graph

namespace Layout

variable {p : Program} {body : Body} {g : Graph} {l : Layout}

/-- The layout lists allocations of the body with the slots that their shapes have, and finds each
of them by its instruction. -/
structure OfBody (p : Program) (body : Body) (l : Layout) : Prop where
  within : l.byInst.Within body.insts
  found : ∀ x o, l.ofInst? x = some o → o ∈ l.objects ∧ o.inst = x
  known : ∀ o ∈ l.objects, ∃ o', l.ofInst? o.inst = some o'
  shape : ∀ o ∈ l.objects, ∃ shape escape,
    Graph.allocation? p body o.inst = some (shape, escape) ∧ shape.fixed? = some o.shape
  slots : ∀ o ∈ l.objects, o.slots = (o.shape.slots p).length

theorem ofBody_empty : OfBody p body {} :=
  ⟨.empty _, fun x o h => by simp [ofInst?, SideTable.get?] at h, nofun, nofun, nofun⟩

theorem OfBody.add (hwf : body.insts.WellFormed) (hl : OfBody p body l) {n x shape escape fixed}
    (hal : Graph.allocation? p body x = some (shape, escape)) (hfixed : shape.fixed? = some fixed) :
    OfBody p body (l.add n x fixed (fixed.slots p)) := by
  obtain ⟨inst, hinst⟩ := Graph.exists_inst_of_allocation? hal
  have hget := SideTable.get?_insert hwf hl.within hinst
  refine ⟨hl.within.insert hinst _, fun y o ho => ?_, fun o ho => ?_, fun o ho => ?_,
    fun o ho => ?_⟩
  · rw [ofInst?, Layout.add, hget] at ho
    split at ho
    · cases ho
      exact ⟨mem_append_right _ (.head _), ‹y = x›.symm⟩
    · exact ⟨mem_append_left _ (hl.found y o ho).1, (hl.found y o ho).2⟩
  · rw [ofInst?, Layout.add, hget]
    split
    · exact ⟨_, rfl⟩
    · rename_i hne
      rcases mem_append.1 ho with ho | ho
      · exact hl.known o ho
      · exact absurd (by rw [mem_singleton.1 ho]) hne
  · rcases mem_append.1 ho with ho | ho
    · exact hl.shape o ho
    · rw [mem_singleton.1 ho]
      exact ⟨shape, escape, hal, hfixed⟩
  · rcases mem_append.1 ho with ho | ho
    · exact hl.slots o ho
    · rw [mem_singleton.1 ho]

theorem meets_ofRetention (hwf : body.insts.WellFormed) (hg : g.Listed p body) {r}
    (hr : ∀ n ∈ r.replaced, n < g.allocs.size) :
    Metered.Answers (OfBody p body) (ofRetention p g r) := by
  refine meets_ofRetention_of (I := fun _ => OfBody p body) ofBody_empty
    fun _ l n hn shape hshape hl => ?_
  have halloc : g.allocs[n]? = some (g.alloc n) := by simp [Graph.alloc, Array.getD, hr n hn]
  obtain ⟨escape, hal⟩ := hg n _ halloc
  exact hl.add hwf hal hshape

theorem OfBody.shape_unique (hl : OfBody p body l) {o o'} (ho : o ∈ l.objects)
    (ho' : o' ∈ l.objects) (h : o.inst = o'.inst) : o.shape = o'.shape := by
  obtain ⟨shape, escape, hal, hfixed⟩ := hl.shape o ho
  obtain ⟨shape', escape', hal', hfixed'⟩ := hl.shape o' ho'
  rw [h, hal'] at hal
  cases hal
  exact Option.mem_unique hfixed hfixed'

/-- What is noted of objects has as many values as they have slots. -/
def Fits {α : Type} (l : Layout) (noted : List (InstId × List α)) : Prop :=
  ∀ e ∈ noted, ∃ o ∈ l.objects, o.inst = e.1 ∧ e.2.length = o.slots

end Layout

namespace PlanContext

open Planner

variable {c : PlanContext} {s : Planner}

/-- What the planner has noted at safepoints fits the layout. -/
def Noted (c : PlanContext) (s : Planner) : Prop :=
  ∀ sp l, s.snapshots.get? sp = some l → c.layout.Fits l

theorem noted_rename (c : PlanContext) : Metered.Answers (Noted c) c.rename := by
  have fail : ∀ s why n, Noted c s → Noted c (c.fail why s n) := fail_of fun _ _ h => h
  have stable : ∀ x, c.Stable x (Noted c) := fun x =>
    ⟨fun _ _ h => h, fun _ h => h, fun _ _ h => h, fun _ _ _ _ h => h, fail, fun _ _ h => h⟩
  refine meets_rename_of (fun _ _ _ h => h) (fun s sp h => snapshot_of fail ?_ h sp)
    (fun b x s op _ h => (stable x).planOp h b op) fun _ sp l hl => ?_
  · intro s sp objects hobjects h sp' l hl e he
    rcases SideTable.get?_insert_cases _ _ _ hl with ⟨-, rfl⟩ | hl
    · obtain ⟨o, ho, rfl⟩ := mem_map.1 he
      exact ⟨o, hobjects o ho, rfl, by simp [getFrom]⟩
    · exact h sp' l hl e he
  · simp [SideTable.get?] at hl

end PlanContext

/-- The layout of a plan lists allocations of the body, and what the plan notes fits it. -/
structure Plan.OfBody (p : Program) (body : Body) (plan : Plan) : Prop where
  layout : plan.layout.OfBody p body
  snapshots : ∀ sp l, plan.snapshots.get? sp = some l → plan.layout.Fits l

theorem Body.meets_plan {body} {g : Graph} (hwf : body.insts.WellFormed) (hg : g.Listed p body)
    (hr : ∀ n ∈ r.replaced, n < g.allocs.size) :
    Metered.Answers (fun planned => ∀ plan, planned = .ready plan →
      plan.OfBody p body) (body.plan p g r) := by
  refine meets_plan_of (Layout.meets_ofRetention hwf hg hr) (fun layout hl _ =>
    ⟨hl, fun sp l h => by simp [SideTable.get?] at h⟩) fun layout hl => ?_
  exact (PlanContext.noted_rename _).mono fun s hs => ⟨hl, hs⟩

namespace Plan

variable {plan : Plan}

theorem direct_debugValue (e : Emission) (replace : KeyMap .inst InstId) (v : Scalar) :
    Except.Answers DebugValue.Direct (plan.debugValue e replace v) := by
  rw [debugValue]
  split
  · trivial
  · trivial
  · exact (Except.Meets.any _).bind fun x _ => trivial

theorem fits_record (e : Emission) (replace : KeyMap .inst InstId) {l : Snapshot}
    (h : plan.layout.Fits l) :
    Except.Answers (fun l' => plan.layout.Fits l' ∧ ∀ e ∈ l', ∀ v ∈ e.2, v.Direct)
      (plan.record e replace l) := by
  refine (Except.Meets.mapM (R := fun e' => (∃ o ∈ plan.layout.objects, o.inst = e'.1 ∧
    e'.2.length = o.slots) ∧ ∀ v ∈ e'.2, v.Direct) l ?_).mono (fun _ => id) fun l' hl' =>
      ⟨fun e' he' => (hl' e' he').1, fun e' he' => (hl' e' he').2⟩
  rintro ⟨x, vs⟩ hmem
  obtain ⟨o, ho, hinst, hlen⟩ := h _ hmem
  refine (Except.Meets.mapM_length vs fun v _ => direct_debugValue e replace v).bind
    fun ws hws => ?_
  exact ⟨⟨o, ho, hinst, hws.1.trans hlen⟩, hws.2⟩

end Plan

/-- What carrying out a plan leaves: the debug states of the body with instructions renamed, and
records that fit the layout. -/
structure Committed.OfBody (p : Program) (body : Body) (c : Committed) : Prop where
  layout : c.layout.OfBody p body
  states : ∃ ren, c.body.states = body.states.map (DebugState.mapInsts ren)
  records : ∀ sp l, c.records.get? sp = some l → c.layout.Fits l
  direct : ∀ sp l, c.records.get? sp = some l → ∀ e ∈ l, ∀ v ∈ e.2, v.Direct

theorem Plan.OfBody.commit {body} (hwf : body.WellFormed) (h : plan.OfBody p body) :
    Except.Answers (Committed.OfBody p body) (plan.commit body) := by
  have hrecords : Except.Answers (fun c : Committed => ∀ sp l,
      c.records.get? sp = some l → plan.layout.Fits l ∧ ∀ e ∈ l, ∀ v ∈ e.2, v.Direct)
      (plan.commit body) := by
    refine (Except.Meets.any _).bind fun r _ => (Except.Meets.any _).bind fun replace _ => ?_
    refine (Except.Meets.mapM (R := fun e => plan.layout.Fits e.2 ∧
      ∀ e' ∈ e.2, ∀ v ∈ e'.2, v.Direct) _ ?_).bind fun records hrecords => ?_
    · rintro ⟨sp, l⟩ hmem
      have hl := h.snapshots sp l (SideTable.mem_toList_iff.1 hmem)
      exact (fits_record _ _ hl).bind fun l' hl' => hl'
    · exact (Except.Meets.any _).bind fun _ _ sp l hl =>
        hrecords _ (SideTable.mem_of_get?_ofList hl)
  refine (hrecords.and (plan.emits_commit hwf)).mono (fun _ => id) ?_
  rintro c ⟨hrecords, -, hlayout, _, _, body', replace, hemits, hbody, -⟩
  rw [← hlayout] at hrecords
  refine ⟨hlayout ▸ h.layout, ⟨Body.resolve replace, ?_⟩, fun sp l hl => (hrecords sp l hl).1,
    fun sp l hl => (hrecords sp l hl).2⟩
  rw [hbody, ← hemits.states]
  rfl

theorem Body.recorded {body} {settings settings' : Settings} {g changed c b0 b1 b2 b3}
    (hwf : body.WellFormed)
    (hgraph : Metered.Yields ((Graph.ofBody p body settings).propagate settings') b0 (g, changed)
      b1) (hr : ∀ n ∈ r.replaced, n < g.allocs.size)
    (hplan : Metered.Yields (body.plan p g r) b2 (.ready plan) b3)
    (hcommit : plan.commit body = .ok c) : c.OfBody p body := by
  have hmeets := Body.meets_plan hwf.insts (Graph.listed_of_propagate hgraph) hr b2
  rw [hplan] at hmeets
  have hc := (hmeets plan rfl).commit hwf
  rw [hcommit] at hc
  exact hc

namespace Body

variable {body : Body} {b : BlockId} {x y : InstId} {i k : Nat}

def Reached (body : Body) (x : InstId) : Prop :=
  ∃ b ∈ body.flow.order.blocks, x ∈ (body.block b).insts

theorem Available.reached (h : body.Available y b i) (hb : b ∈ body.order) : body.Reached y := by
  obtain ⟨d, j, hj, hd⟩ := h
  have hdom : body.flow.Dom d b := hd.elim (fun hd => hd.1 ▸ .refl _ _) fun hd => hd.2
  exact ⟨d, mem_order_iff.2 (hdom.reachable (mem_order_iff.1 hb)), mem_of_getElem? hj⟩

theorem constNat?_lt (h : body.constNat? x = some k) : k < 2 ^ 31 := by
  obtain ⟨c, -, h⟩ := Option.bind_eq_some_iff.1 h
  obtain ⟨n, -, h⟩ := Option.bind_eq_some_iff.1 h
  split at h
  · cases h
    have := n.toInt_lt
    omega
  · cases h

end Body

end EscapeAnalysis
