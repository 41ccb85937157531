import EscapeAnalysis.Proofs.Rebuilding
import EscapeAnalysis.Proofs.Soundness

/-!
# What the analysis promises of every run

A run starts sound and each step keeps it so (`Machine.Trace.sound`). So the nodes of an instruction
cover what it refers to, and an object that does not escape is never exposed
(`Machine.pointsTo_sound`).
-/

namespace EscapeAnalysis

/-- The run hands a reference to `o` to its caller. -/
def Exit.HandsOut (e : Exit) (o : ObjRef) : Prop :=
  e = .ret (some (.ref o)) ∨ e = .threw (.object (.ref o))

namespace Machine

variable {σ : Type}

/-- The next instruction passes a reference to `o` to a callee. -/
def Passes (m : Machine) (s : RunState σ) (o : ObjRef) : Prop :=
  ∃ x rest c arg, s.rest = some (x :: rest) ∧ m.body.op? x = some (.call c) ∧ arg ∈ c.args ∧
    s.frame.values.get? arg = some (.ref o)

/-- `o` can be reached from outside the method: from a global, from an object the host holds, from
an argument of the call that comes next, or, where the run ends, from its result. -/
def Exposed (m : Machine) (host : Host σ) (holds : σ → ObjRef → Prop) (s : RunState σ)
    (o : ObjRef) : Prop :=
  s.heap.Reach (fun o => s.heap.InGlobals m.program o ∨ holds s.host o ∨ m.Passes s o) o ∨
  ∃ e heap state, m.Ends host s e heap state ∧
    heap.Reach (fun o => heap.InGlobals m.program o ∨ holds state o ∨ e.HandsOut o) o

variable {m : Machine} {host : Host σ} {g : Graph} {org : ObjRef → Option Nat}
  {holds : σ → ObjRef → Prop} {s : RunState σ} {o : ObjRef} {log : List (ObjRef × InstId)}
variable {heap : Heap} {state : σ}

/-- A run can start in a heap in which what its arguments and its host refer to exists. -/
structure StartsIn (m : Machine) (holds : σ → ObjRef → Prop) (heap : Heap) (state : σ) : Prop where
  valid : heap.Valid m.program
  args : ∀ o, .ref o ∈ m.args → heap.Live o
  held : ∀ o, holds state o → heap.Live o

theorem sound_start (g : Graph) (hst : m.StartsIn holds heap state) :
    m.Sound g (origin g []) holds (m.start heap state) := by
  have escaped : ∀ o, g.Escaped (origin g []) o := fun o =>
    Graph.escaped_iff.2 fun n hn => by simp [origin] at hn
  refine ⟨located_start m heap state,
    ⟨hst.valid, fun o n hn => by simp [origin] at hn, fun o _ => escaped o,
      fun o obj i o' _ _ => ⟨fun _ => escaped o', fun n hn => by simp [origin] at hn⟩⟩, ?_, ?_,
    fun o ho => ⟨hst.args o ho, escaped o⟩, ?_, fun o ho => ⟨hst.held o ho, escaped o⟩⟩
  · intro x c v _ hv
    simp [start, SideTable.get?] at hv
  · intro x o hv
    simp [start, SideTable.get?] at hv
  · intro o ho
    simp [start] at ho

/-- Every state of a run is sound if the calls of the run keep it so, and everything in its log has
an allocation. -/
theorem Trace.sound_of_callKept (hg : g.Upholds m.program m.body)
    (hcall : ∀ (s : RunState σ) log, m.Sound g (origin g log) holds s → m.Disciplined s →
      Sound.CallKept m host g (origin g log) holds s)
    (hst : m.StartsIn holds heap state)
    (h : m.Trace host m.Disciplined (m.start heap state) s log) :
    m.Sound g (origin g log) holds s ∧
      ∀ o x, (o, x) ∈ log → ∃ n, g.allocOf.get? x = some n ∧ origin g log o = some n := by
  induction h with
  | start => exact ⟨sound_start g hst, by simp⟩
  | @step t u log h hstep hu ih =>
    obtain ⟨hs, hlog⟩ := ih
    refine ⟨hs.step_of_callKept hg (hcall t log hs h.last) hstep h.last hu.refs, fun o x hmem => ?_⟩
    rcases hc : m.created? t with _ | ⟨o1, x1⟩
    · rw [hc] at hmem
      exact hlog o x hmem
    · rw [hc] at hmem
      obtain ⟨rest, op, shape, hr, ho, he, rfl⟩ := eval_of_created? hc
      simp only [Option.toList_some, List.singleton_append, origin_cons] at hmem ⊢
      rcases List.mem_cons.1 hmem with hnew | hold
      · cases hnew
        obtain ⟨n, hn, -⟩ := hs.exists_node_of_alloc hg hr ho (acts_of_eval he)
        exact ⟨n, hn, by rw [if_pos rfl, hn]⟩
      · obtain ⟨n, hn, horg⟩ := hlog o x hold
        refine ⟨n, hn, ?_⟩
        -- an object in the log exists, so the new one is another
        obtain ⟨-, obj, hobj, -⟩ := hs.heap.created o n horg
        rw [if_neg, horg]
        rintro rfl
        rw [Heap.get?_alloc_fst hs.heap.valid.wellFormed] at hobj
        cases hobj

theorem Trace.sound (hg : g.Solved m.program m.body) (hhost : host.Confined m.program holds)
    (hst : m.StartsIn holds heap state)
    (h : m.Trace host m.Disciplined (m.start heap state) s log) :
    m.Sound g (origin g log) holds s ∧
      ∀ o x, (o, x) ∈ log → ∃ n, g.allocOf.get? x = some n ∧ origin g log o = some n :=
  h.sound_of_callKept hg.upholds (fun _ _ hs hd => hs.callKept hg hhost hd.refs) hst

/-- A value that the terminator hands out escapes. -/
theorem Sound.visible_of_term (hs : m.Sound g org holds s) (hg : g.Solved m.program m.body) {x}
    (hterm : Graph.termConstraints (m.body.block s.frame.block).term = [.sink x .global])
    (hv : s.frame.values.get? x = some (.ref o)) : g.Visible org s.heap o := by
  have hb := hs.located.mem_order fun h => by simp [h, Graph.termConstraints] at hterm
  have hlost := hg.upholds.terms _ hb x (hterm ▸ List.mem_singleton.2 rfl)
  obtain ⟨hlive, hcov⟩ := hs.frame x o hv
  exact ⟨hlive, hcov.escaped_of_lost hs.heap.bound hlost⟩

theorem Sound.escaped_of_deopt (hs : m.Sound g org holds s) {sp d}
    (hd : m.body.deoptimize m.program s.heap s.frame.values sp = .ok (d, heap)) {roots}
    (hroots : ∀ o, roots o → heap.InGlobals m.program o ∨ holds s.host o) (hr : heap.Reach roots o)
    : g.Escaped org o := by
  obtain ⟨hold, hglobals⟩ := Body.deoptimize_old hs.heap.valid.wellFormed hd
  have hsub : g.Visible org s.heap o := by
    refine hr.subset (fun o ho => ?_) fun o obj o' hv hobj hmem => ?_
    · rcases hroots o ho with ⟨gl, hgl⟩ | ho
      · rw [Heap.global, hglobals] at hgl
        exact hs.heap.visible_of_inGlobals ⟨gl, hgl⟩
      · exact hs.held o ho
    · obtain ⟨obj0, hobj0⟩ := hv.1
      obtain ⟨obj', hobj', -, hfields⟩ := hold o obj0 hobj0
      rw [hobj] at hobj'
      cases hobj'
      rw [hfields] at hmem
      exact hs.heap.visible_of_reach (fun _ h => h) (.field (.root hv) hobj0 hmem)
  exact hsub.2

/-- What the end of a run leaves reachable from outside escapes. -/
theorem Sound.escaped_of_ends (hs : m.Sound g org holds s) (hg : g.Solved m.program m.body)
    (hhost : host.Confined m.program holds) (hty : s.frame.RefsTyped m.body) {e}
    (hend : m.Ends host s e heap state)
    (hr : heap.Reach (fun o => heap.InGlobals m.program o ∨ holds state o ∨ e.HandsOut o) o) :
    g.Escaped org o := by
  have reach : g.SoundHeap m.program org heap → (∀ o, holds state o → g.Visible org heap o) →
      (∀ o, e.HandsOut o → g.Visible org heap o) → g.Escaped org o := by
    intro hheap hheld hout
    refine (hheap.visible_of_reach (fun o ho => ?_) hr).2
    rcases ho with ho | ho | ho
    · exact hheap.visible_of_inGlobals ho
    · exact hheld o ho
    · exact hout o ho
  cases hend with
  | ret =>
    refine reach hs.heap hs.held fun o ho => ?_
    simp [Exit.HandsOut] at ho
  | retValue _ hterm hv =>
    refine reach hs.heap hs.held fun o ho => ?_
    simp only [Exit.HandsOut, Exit.ret.injEq, Option.some.injEq, reduceCtorEq, or_false] at ho
    exact hs.visible_of_term hg (by rw [hterm]; rfl) (ho ▸ hv)
  | @throw x v _ hterm hv =>
    refine reach hs.heap hs.held fun o ho => ?_
    simp only [Exit.HandsOut, reduceCtorEq, Exit.threw.injEq, false_or] at ho
    cases v <;> simp only [Thrown.ofValue, Thrown.object.injEq, reduceCtorEq] at ho
    exact hs.visible_of_term hg (by rw [hterm]; rfl) (ho ▸ hv)
  | deopt _ _ hd | leave _ _ _ hd =>
    refine hs.escaped_of_deopt hd (fun o ho => ?_) hr
    simpa [Exit.HandsOut] using ho
  | uncaught hrest ho _ ht =>
    obtain ⟨hheap, -, hheld, hthrown⟩ := hs.throws (hs.callKept hg hhost hty) hrest ho ht
    refine reach hheap hheld fun o ho => hthrown o ?_
    simpa [Exit.HandsOut] using ho

/-- Along every run, the nodes of an instruction cover the objects of the run it refers to, and an
object whose allocation does not escape is never exposed. -/
theorem pointsTo_sound {settings settings' : Settings} {changed : Bool} {budget budget' : Budget}
    (hwf : m.body.insts.WellFormed)
    (hg : Metered.Yields ((Graph.ofBody m.program m.body settings).propagate settings') budget
      (g, changed) budget')
    (hhost : host.Confined m.program holds)
    (hheap : heap.Valid m.program) (hargs : ∀ o, .ref o ∈ m.args → heap.Live o)
    (hheld : ∀ o, holds state o → heap.Live o)
    (hrun : m.Trace host m.Disciplined (m.start heap state) s log) :
    (∀ x o a, s.frame.values.get? x = some (.ref o) → (o, a) ∈ log →
      ∃ n, g.allocOf.get? a = some n ∧
        (.alloc n ∈ g.ptsOf x ∨ .phantom ∈ g.ptsOf x ∧ .none < g.escapeOf n)) ∧
    ∀ o a, (o, a) ∈ log → g.escapeOfInst? a = some .none → ¬ m.Exposed host holds s o := by
  have hg := Graph.solved_of_propagate hwf hg
  obtain ⟨hs, hlog⟩ := hrun.sound hg hhost ⟨hheap, hargs, hheld⟩
  refine ⟨fun x o a hv hmem => ?_, fun o a hmem hesc hexp => ?_⟩
  · obtain ⟨n, hn, horg⟩ := hlog o a hmem
    obtain ⟨b, hb, hstands⟩ := (hs.frame x o hv).2
    refine ⟨n, hn, ?_⟩
    rw [Graph.Stands, horg] at hstands
    rcases hstands with rfl | ⟨rfl, hpos⟩
    · exact .inl hb
    · exact .inr ⟨hb, hpos⟩
  · obtain ⟨n, hn, horg⟩ := hlog o a hmem
    have hescaped : g.Escaped (origin g log) o := by
      rcases hexp with hr | ⟨e, heap', state', hend, hr⟩
      · refine (hs.heap.visible_of_reach (fun o ho => ?_) hr).2
        rcases ho with ho | ho | ⟨x, rest, c, arg, hrest, hop, harg, hv⟩
        · exact hs.heap.visible_of_inGlobals ho
        · exact hs.held o ho
        · exact hs.visible_of_arg hg hrest hop hrun.last.refs rfl harg hv
      · exact hs.escaped_of_ends hg hhost hrun.last.refs hend hr
    rw [Graph.escapeOfInst?, hn, Option.map_some, Option.some.injEq] at hesc
    exact hescaped.ne_none horg hesc

/-- A class of nodes that refer to a next one, and a callee of which nothing is known. -/
def nodes : Program where
  classes := .ofEntries [{ name := "Node", parent := none, layout := [⟨0, 1⟩], flags := {} }]
  fields := .ofEntries [{ name := "next", ty := .ref, holder := ⟨0, 1⟩ }]
  callees := .ofEntries [{ name := "use", params := [.ref], ret := none, effects := none }]

/-- Links a node to another one, and passes to the callee what the link then refers to. -/
def linkAndPass : Machine where
  program := nodes
  body :=
    { blocks := .ofEntries
        [{ insts := [⟨0, 1⟩, ⟨1, 1⟩, ⟨2, 1⟩, ⟨3, 1⟩, ⟨4, 1⟩], term := .ret none }]
      insts := .ofEntries
        [⟨.new ⟨0, 1⟩, some .ref⟩, ⟨.new ⟨0, 1⟩, some .ref⟩,
          ⟨.storeField ⟨0, 1⟩ ⟨0, 1⟩ ⟨1, 1⟩, none⟩, ⟨.loadField ⟨0, 1⟩ ⟨0, 1⟩, some .ref⟩,
          ⟨.call { callee := ⟨0, 1⟩, args := [⟨3, 1⟩], safepoint := ⟨0, 1⟩ }, none⟩]
      states := .ofEntries [{}]
      entry := ⟨0, 1⟩
      params := []
      ret := none }
  args := []

/-- In front of the call, the load refers to the second node, which its nodes cover, and the first
node is hidden from the callee. -/
theorem pointsTo_sound_linkAndPass :
    ∃ (g : Graph) (s : RunState Unit) (log : List (ObjRef × InstId)),
      linkAndPass.Trace Host.idle linkAndPass.Disciplined (linkAndPass.start {} ()) s log ∧
      s.frame.values.get? ⟨3, 1⟩ = some (.ref ⟨1, 1⟩) ∧ linkAndPass.Passes s ⟨1, 1⟩ ∧
      (∃ n, g.allocOf.get? ⟨1, 1⟩ = some n ∧
        (.alloc n ∈ g.ptsOf ⟨3, 1⟩ ∨ .phantom ∈ g.ptsOf ⟨3, 1⟩ ∧ .none < g.escapeOf n)) ∧
      g.escapeOfInst? ⟨0, 1⟩ = some .none ∧
      ¬ linkAndPass.Exposed Host.idle (fun _ _ => False) s ⟨0, 1⟩ := by
  obtain ⟨g, changed, budget, hg, hesc⟩ :=
    Graph.exists_propagated linkAndPass.program linkAndPass.body 30
      (P := fun g => g.escapeOfInst? ⟨0, 1⟩ = some .none) (by decide +kernel)
  have t₀ : linkAndPass.Trace Host.idle linkAndPass.Disciplined (linkAndPass.start {} ()) _ _ :=
    .start (by decide +kernel)
  have t₁ := t₀.step (.enter rfl rfl) (by decide +kernel)
  have t₂ := t₁.step (.op rfl rfl rfl (.plain rfl rfl)) (by decide +kernel)
  have t₃ := t₂.step (.op rfl rfl rfl (.plain rfl rfl)) (by decide +kernel)
  have t₄ := t₃.step (.op rfl rfl rfl (.plain rfl rfl)) (by decide +kernel)
  have t₅ := t₄.step (.op rfl rfl rfl (.plain rfl rfl)) (by decide +kernel)
  obtain ⟨hpts, hhidden⟩ := pointsTo_sound (.ofEntries _) hg (Host.confined_idle _)
    (Heap.valid_empty _) (by simp [linkAndPass]) (fun _ h => h.elim) t₅
  simp only [decide_eq_true_eq] at hesc
  exact ⟨g, _, _, t₅, by decide +kernel,
    ⟨⟨4, 1⟩, [], _, ⟨3, 1⟩, rfl, rfl, by decide +kernel, by decide +kernel⟩,
    hpts ⟨3, 1⟩ ⟨1, 1⟩ ⟨1, 1⟩ (by decide +kernel) (by decide +kernel), hesc,
    hhidden ⟨0, 1⟩ ⟨0, 1⟩ (by decide +kernel) hesc⟩

end Machine

end EscapeAnalysis
