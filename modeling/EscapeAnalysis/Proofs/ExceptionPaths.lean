import EscapeAnalysis.Proofs.CheckedRuns

/-!
# Reads on exception paths

A call that throws leaves no value, yet the check takes it to be available wherever its block
dominates, on the edge to the handler too. A handler that the block of the call does not dominate,
and that does not take the result over in a phi, never reads it (`Machine.unread_of_throw`); one
that the block dominates may (`Machine.read_of_throw_askAndReturn`).
-/

namespace EscapeAnalysis

open Body

namespace Machine

variable {σ : Type}

/-- The instructions whose values the next step of the run asks for: inputs of phis, operands, or
the debug state with which the run leaves compiled code. -/
def reads (m : Machine) (s : RunState σ) : List InstId :=
  match s.rest with
  | none => (m.body.phis s.frame.block).filterMap fun x =>
      match m.body.op? x with
      | some (.phi inputs) => (inputs.find? fun e => s.frame.pred = some e.1).map Prod.snd
      | _ => none
  | some (x :: _) =>
    match m.body.op? x with
    | none => []
    | some op =>
      match m.leavesAt? op with
      | some sp => (m.body.state sp).insts
      | none => op.operands
  | some [] =>
    match (m.body.block s.frame.block).term with
    | .deopt sp => (m.body.state sp).insts
    | term => term.operand?.toList

/-- Steps none of which runs instruction `x`. -/
inductive Sparing (m : Machine) (host : Host σ) (x : InstId) : RunState σ → RunState σ → Prop
  | refl (s : RunState σ) : Sparing m host x s s
  | tail {s t u} (h : Sparing m host x s t) (hs : m.Step host t u)
      (hx : ∀ rest, t.rest ≠ some (x :: rest)) : Sparing m host x s u

variable {m : Machine} {host : Host σ} {s t u : RunState σ} {x y : InstId}

theorem Located.sparing (hl : m.Located s) (h : m.Sparing host x s t) : m.Located t := by
  induction h with
  | refl => exact hl
  | tail _ hs _ ih => exact ih.step hs

section Checked

variable (hco : m.body.Coherent) (hc : m.body.Checked)

theorem get?_sites_of_mem (hco : m.body.Coherent) (honce : m.body.ObservedOnce) (site : Site) {sp}
    (hsite : m.body.Observes sp site) (hy : y ∈ (m.body.state sp).insts) :
    m.body.sites.get? sp = some site := by
  rcases hs : m.body.states.get? sp with _ | state
  · rw [Body.state, hs] at hy
    cases hy
  · exact get?_sites hco.toWellFormed.states hco.observed hs hsite
      fun site' h => honce sp site' site h hsite

include hco hc in
theorem reached_of_mem_reads (hst : m.body.StatesChecked) (honce : m.body.ObservedOnce)
    (hl : m.Located s) (h : y ∈ m.reads s) :
    s.frame.block ∈ m.body.order ∧ m.Reached s y := by
  unfold reads at h
  split at h
  · rename_i hr
    obtain ⟨x, hx, hin⟩ := List.mem_filterMap.1 h
    split at hin
    · rename_i inputs hop
      obtain ⟨⟨p, y⟩, hfind, rfl⟩ := Option.map_eq_some_iff.1 hin
      have hp : s.frame.pred = some p := by simpa using List.find?_some hfind
      have hmem := mem_insts_of_mem_phis hx
      have hb := hl.mem_order_of_mem hmem
      obtain ⟨i, hi⟩ := List.mem_iff_getElem?.1 hmem
      obtain ⟨op, hop', hcheck⟩ := hc.inst _ hb i x hi
      obtain rfl : op = .phi inputs := by simpa [hop] using hop'.symm
      exact ⟨hb, (reached_of_pred hr hp).2
        ((hcheck.phi inputs rfl).available _ (List.mem_of_find?_eq_some hfind))⟩
    · cases hin
  · rename_i x rest hr
    obtain ⟨hb, hx⟩ := hl.mem_insts hr
    have hpos := getElem?_position (hl.rest _ hr)
    refine ⟨hb, (reached_of_rest hr).2 ?_⟩
    split at h
    · cases h
    · rename_i op ho
      split at h
      · rename_i sp hleave
        have hsp : op.safepoint? = some sp := by
          simp only [leavesAt?, Option.filter_eq_some_iff] at hleave
          exact hleave.1
        have hget := get?_sites_of_mem hco honce (.inst s.frame.block x) ⟨hx, by simp [ho, hsp]⟩ h
        obtain ⟨inst, hinst⟩ := live_of_op? ho
        have hav := hst.stateInst sp _ x hget hb y h
        rwa [hc.placement hco.toWellFormed hco.issued hinst hpos] at hav
      · obtain ⟨op', ho', hcheck⟩ := hc.inst _ hb _ x hpos
        obtain rfl : op' = op := by simpa [ho'] using ho
        have hphi := hc.not_isPhi_of_mem_code hb ((hl.rest _ hr).subset (by simp)) ho
        exact hcheck.operands hphi y h
  · rename_i hr
    split at h
    · rename_i sp hterm
      have hb := hl.mem_order fun hu => by simp [hu] at hterm
      have hget := get?_sites_of_mem hco honce (.term s.frame.block) hterm h
      exact ⟨hb, (reached_of_rest hr).2 (hst.stateTerm sp _ hget hb y h)⟩
    · have hterm : (m.body.block s.frame.block).term.operand? = some y := by simpa using h
      have hb := hl.mem_order fun hu => by simp [hu, Terminator.operand?] at hterm
      exact ⟨hb, (reached_of_rest hr).2 (hc.term _ hb y hterm)⟩

theorem available_of_enter {frame} (hf : m.Enters s frame) (hy : m.Reached (m.inside s frame) y)
    (hphi : y ∉ m.body.phis s.frame.block) : m.body.Available y s.frame.block 0 := by
  obtain ⟨incoming, -, -, rfl⟩ := enterPhis_spec hf
  rw [reached_of_rest rfl, position_code] at hy
  exact hy.of_phiCount hphi

include hco hc

theorem reached_of_step (hl : m.Located s) (h : m.Step host s t)
    (hb : t.frame.block ∈ m.body.order) (hphi : m.body.isPhi y = false)
    (hy : m.Reached t y) : m.Reached s y ∨ ∃ rest, s.Next y rest := by
  cases h with
  | enter hr hf =>
    have hav := available_of_enter hf hy fun hmem => by
      rw [isPhi_of_mem_phis hmem] at hphi
      cases hphi
    obtain ⟨incoming, -, -, rfl⟩ := enterPhis_spec hf
    exact .inl (hl.reached hco.toWellFormed hr hb hav)
  | @op x rest op v heap state hr ho hleave hd =>
    have hsuf := hl.rest _ hr
    rw [reached_of_rest rfl, Frame.block_setResult, position_succ hsuf] at hy
    rcases hy.of_succ with hy | he
    · exact .inl ((reached_of_rest hr).2 hy)
    · obtain rfl : x = y := by simpa [he] using (getElem?_position hsuf).symm
      exact .inr ⟨rest, hr⟩
  | @caught x rest op th heap state normal handler hr ho hleave ht hterm =>
    obtain rfl := rest_eq_nil_of_invoke hc hl hr hterm
    have hsuf := hl.rest _ hr
    have hpos := position_succ hsuf
    rw [position_nil] at hpos
    rw [reached_of_pred rfl rfl, hpos] at hy
    rcases hy.of_succ with hy | he
    · exact .inl ((reached_of_rest hr).2 hy)
    · obtain rfl : x = y := by simpa [he] using (getElem?_position hsuf).symm
      exact .inr ⟨[], hr⟩
  | goTo hr htake => exact .inl ((reached_of_rest hr).2 hy)

/-- What is not available where a block starts becomes available again by being run only. -/
theorem Sparing.not_reached (hl : m.Located t) (ht : t.rest = none) (hphi : m.body.isPhi y = false)
    (hav : ¬ m.body.Available y t.frame.block 0) (h : m.Sparing host y t u) :
    u = t ∨ (u.frame.block ∈ m.body.order → ¬ m.Reached u y) := by
  induction h with
  | refl => exact .inl rfl
  | @tail v u h hs hx ih =>
    refine .inr fun hb hreached => ?_
    rcases ih with rfl | hnot
    · cases hs with
      | enter hr hf =>
        refine hav (available_of_enter hf hreached fun hmem => ?_)
        rw [isPhi_of_mem_phis hmem] at hphi
        cases hphi
      | op hr | caught hr | goTo hr => simp [ht] at hr
    · have hlv := hl.sparing h
      rcases reached_of_step hco hc hlv hs hb hphi hreached with hv | ⟨rest, hrest⟩
      · refine hnot ?_ hv
        cases hs with
        | enter hr hf =>
          obtain ⟨incoming, -, -, rfl⟩ := enterPhis_spec hf
          exact hb
        | op hr => exact (hlv.mem_insts hr).1
        | caught hr => exact (hlv.mem_insts hr).1
        | goTo hr htake => exact hlv.mem_order_of_targets htake.mem_targets
      · exact hx rest hrest

end Checked

/-- The call that ends a block throws, and control passes to its handler. Unless the handler takes
the result of the call over in a phi, or the block of the call strictly dominates the handler, the
result is not read until the call runs again. -/
theorem unread_of_throw (hco : m.body.Coherent) (hcheck : m.body.check m.program = .ok ())
    (honce : m.body.ObservedOnce) {heap : Heap} {state : σ}
    (hrun : m.Steps host (m.start heap state) s) {call : InstId} {rest : List InstId}
    (hcall : s.rest = some (call :: rest)) (hthrow : m.Step host s t) (ht : t.rest = none)
    (hphi : call ∉ m.reads t)
    (hdom : m.body.flow.Dom s.frame.block t.frame.block → s.frame.block = t.frame.block)
    (hpath : m.Sparing host call t u) : call ∉ m.reads u := by
  have hc := checked_of_check hco.toWellFormed hco.issued hcheck
  have hst := statesChecked_of_check hco.toWellFormed hcheck
  have hls := (located_start m heap state).steps hrun
  have hl := hls.step hthrow
  obtain ⟨hb, -⟩ := hls.mem_insts hcall
  have hpos := getElem?_position (hls.rest _ hcall)
  obtain ⟨op, hop, -⟩ := hc.inst _ hb _ call hpos
  have hcode : m.body.isPhi call = false := by
    rw [isPhi, hop]
    exact hc.not_isPhi_of_mem_code hb ((hls.rest _ hcall).subset (by simp)) hop
  have hav : ¬ m.body.Available call t.frame.block 0 := by
    rintro ⟨d, j, hj, ⟨-, hlt⟩ | ⟨hne, hd⟩⟩
    · omega
    · obtain ⟨inst, hinst⟩ := live_of_op? hop
      obtain ⟨rfl, -⟩ := hc.once call inst hinst d _ j _ hj hpos
      exact hne (hdom hd)
  intro hread
  obtain ⟨hbu, hreached⟩ := reached_of_mem_reads hco hc hst honce (hl.sparing hpath) hread
  rcases Sparing.not_reached hco hc hl ht hcode hav hpath with rfl | hnot
  · exact hphi hread
  · exact hnot hbu hreached

/-- A callee that has an int. -/
def asking : Program where
  callees := .ofEntries [{ name := "ask", params := [], ret := some .int, effects := none }]

/-- A host whose callees all throw. -/
def throwingHost : Host Unit := ⟨fun _ _ _ heap state => .ok (.throw .null, heap, state)⟩

/-- Asks if its argument says so, and falls back on a constant if that throws. -/
def askOrDefault : Machine where
  program := asking
  body :=
    { blocks := .ofEntries
        [{ insts := [⟨0, 1⟩, ⟨1, 1⟩], term := .branch ⟨0, 1⟩ ⟨1, 1⟩ ⟨3, 1⟩ },
          { insts := [⟨2, 1⟩], term := .invoke ⟨2, 1⟩ ⟨2, 1⟩ ⟨3, 1⟩ },
          { term := .ret (some ⟨2, 1⟩) },
          { insts := [⟨3, 1⟩], term := .ret (some ⟨3, 1⟩) }]
      insts := .ofEntries
        [⟨.param 0, some .int⟩, ⟨.const (.int 7), some .int⟩,
          ⟨.call { callee := ⟨0, 1⟩, args := [], safepoint := ⟨0, 1⟩ }, some .int⟩,
          ⟨.phi [(⟨0, 1⟩, ⟨0, 1⟩), (⟨1, 1⟩, ⟨1, 1⟩)], some .int⟩]
      states := .ofEntries [{ locals := [.value ⟨0, 1⟩] }]
      entry := ⟨0, 1⟩
      params := [.int]
      ret := some .int }
  args := [.int 1]

theorem unread_of_throw_askOrDefault :
    askOrDefault.body.check askOrDefault.program = .ok () ∧
    ∃ s t u : RunState Unit, askOrDefault.Steps throwingHost (askOrDefault.start {} ()) s ∧
      s.rest = some [⟨2, 1⟩] ∧ askOrDefault.Step throwingHost s t ∧ t.rest = none ∧
      askOrDefault.Sparing throwingHost ⟨2, 1⟩ t u ∧ ⟨3, 1⟩ ∈ askOrDefault.reads u ∧
      ⟨2, 1⟩ ∉ askOrDefault.reads u := by
  have hcheck : askOrDefault.body.check askOrDefault.program = .ok () := by cbv
  have hco : askOrDefault.body.Coherent :=
    coherent_of_live (.ofEntries rfl) (by decide +kernel) (by decide +kernel)
  have t₀ : askOrDefault.Steps throwingHost (askOrDefault.start {} ()) _ := .refl _
  have t₁ := t₀.tail (.enter rfl rfl)
  have t₂ := t₁.tail (.op rfl rfl rfl (.plain rfl rfl))
  have t₃ := t₂.tail (.op rfl rfl rfl (.plain rfl rfl))
  have t₄ := t₃.tail (.goTo rfl (.branch (n := 1) rfl))
  have t₅ := t₄.tail (.enter rfl rfl)
  -- control can also come to the handler from the entry
  have hdom : ¬ askOrDefault.body.flow.Dom ⟨1, 1⟩ ⟨3, 1⟩ := fun h =>
    absurd (h _ (.step .entry ⟨by decide +kernel, by decide +kernel⟩)) (by decide +kernel)
  refine ⟨hcheck, _, _, _, t₅, rfl, .caught rfl rfl rfl (.call rfl rfl) rfl, rfl,
    .tail (.refl _) (.enter rfl rfl) (by simp), by decide +kernel, ?_⟩
  exact unread_of_throw hco hcheck (by decide +kernel) t₅ rfl
    (.caught rfl rfl rfl (.call rfl rfl) rfl) rfl (by decide +kernel) (fun h => absurd h hdom)
    (.tail (.refl _) (.enter rfl rfl) (by simp))

/-- Returns the answer of the callee, in the handler too. -/
def askAndReturn : Machine where
  program := asking
  body :=
    { blocks := .ofEntries
        [{ insts := [⟨0, 1⟩], term := .invoke ⟨0, 1⟩ ⟨1, 1⟩ ⟨2, 1⟩ },
          { term := .ret (some ⟨0, 1⟩) },
          { term := .ret (some ⟨0, 1⟩) }]
      insts := .ofEntries
        [⟨.call { callee := ⟨0, 1⟩, args := [], safepoint := ⟨0, 1⟩ }, some .int⟩]
      states := .ofEntries [{}]
      entry := ⟨0, 1⟩
      params := []
      ret := some .int }
  args := []

/-- The check accepts a body that reads the result of a call in a handler its block dominates, and
the run fails there. -/
theorem read_of_throw_askAndReturn :
    askAndReturn.body.check askAndReturn.program = .ok () ∧ askAndReturn.body.ObservedOnce ∧
    throwingHost.Answers askAndReturn.program ∧
    (∃ s t u : RunState Unit, askAndReturn.Steps throwingHost (askAndReturn.start {} ()) s ∧
      s.rest = some [⟨0, 1⟩] ∧ askAndReturn.Step throwingHost s t ∧ t.rest = none ∧
      askAndReturn.Sparing throwingHost ⟨0, 1⟩ t u ∧ ⟨0, 1⟩ ∈ askAndReturn.reads u) ∧
    askAndReturn.run throwingHost 9 {} () = .error (.uncomputed ⟨0, 1⟩) := by
  have t₀ : askAndReturn.Steps throwingHost (askAndReturn.start {} ()) _ := .refl _
  have t₁ := t₀.tail (.enter rfl rfl)
  refine ⟨by cbv, by decide +kernel, ?_, ⟨_, _, _, t₁, rfl,
    .caught rfl rfl rfl (.call rfl rfl) rfl, rfl, .tail (.refl _) (.enter rfl rfl) (by simp),
    by decide +kernel⟩, rfl⟩
  rintro c args heap state v heap' state' hcall
  cases hcall

end Machine

end EscapeAnalysis
