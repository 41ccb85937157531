import EscapeAnalysis.Proofs.Monitors
import EscapeAnalysis.Proofs.LockErasure
import EscapeAnalysis.Proofs.Obstacles

/-!
# The monitors that a run holds

A cast has the value of what it casts (`Machine.Forwarding`), so an operation on the monitor of an
elided allocation acts on the object that the allocation made last. That object is locked as often
as the level of the allocation says, and the older ones are not locked at all (`Machine.Leveled`).
-/

namespace EscapeAnalysis

open Body

namespace Machine

variable {σ : Type} {m : Machine} {host : Host σ} {holds : σ → ObjRef → Prop} {s t : RunState σ}
  {log : List (ObjRef × InstId)} {o : ObjRef} {x y z : InstId} {rest : List InstId} {op : Op}
  {v : Option Value} {heap : Heap} {state : σ} {f : Frame} {eff : Effect}

theorem Located.nodup_phis (hc : m.body.Checked) (hl : m.Located s) :
    (m.body.phis s.frame.block).Nodup := by
  rcases hl.block with hb | hnone
  · exact hc.nodup_phis hb
  · simp [Body.phis, block_of_not_live hnone, default, instInhabitedBlock.default]

theorem does_checkCast {cls} (hd : m.Does host s x (.checkCast y cls) v heap state) :
    ∃ w, v = some w ∧ s.frame.values.get? y = some w := by
  cases hd with
  | plain _ he =>
    obtain ⟨w, hw, rfl⟩ := eval_checkCast he
    exact ⟨w, rfl, hw⟩

section Casts

variable (hwf : m.body.WellFormed) (hc : m.body.Checked)

/-- A cast that is available where the run stands has the value of what it casts. -/
def Forwarding (m : Machine) (s : RunState σ) : Prop :=
  s.frame.block ∈ m.body.flow.order.blocks → ∀ y z, m.body.castSource? y = some z →
    m.Reached s y → s.frame.values.get? y = s.frame.values.get? z

theorem forwarding_start (m : Machine) (heap : Heap) (state : σ) :
    m.Forwarding (m.start heap state) :=
  fun _ _ _ _ h => h.elim

include hwf hc in
theorem Forwarding.enter {frame} (hl : m.Located s) (hf : m.Framed s) (h : m.Forwarding s)
    (hr : s.rest = none) (hphis : m.Enters s frame) :
    m.Forwarding (m.inside s frame) := by
  intro hb y z hyz hy
  obtain ⟨incoming, -, -, hframe⟩ := enterPhis_spec hphis
  have hblock : s.frame.block ∈ m.body.order := by simpa [hframe] using hb
  obtain ⟨cls, hop⟩ := castSource?_eq_some.1 hyz
  obtain ⟨hkeep, -⟩ := hf.enterPhis hwf (hc.nodup_phis hblock) hphis
  have hphi : y ∉ m.body.phis s.frame.block := by
    intro hmem
    have := (isPhi_of_op? hop).symm.trans (isPhi_of_mem_phis hmem)
    cases this
  have hav : m.body.Available y s.frame.block 0 := by
    refine Body.Available.of_phiCount ?_ hphi
    simpa [Reached, hframe, position_code] using hy
  -- what the cast reads is available on entry, so it is no phi of the block
  have hphi' : z ∉ m.body.phis s.frame.block := by
    intro hmem
    obtain ⟨inputs, hop'⟩ := isPhi_iff.1 (isPhi_of_mem_phis hmem)
    obtain ⟨k, hk⟩ := List.mem_iff_getElem?.1 (mem_insts_of_mem_phis hmem)
    exact hc.not_available hop' hk (Nat.zero_le k)
      (hc.available_of_operand hblock hop rfl (by simp [Op.operands]) hav)
  rw [hkeep y hphi, hkeep z hphi']
  exact h hblock y z hyz (hl.reached hwf hr hblock hav)

include hwf hc in
theorem Forwarding.over {v heap state} (hl : m.Located s) (hf : m.Framed s) (h : m.Forwarding s)
    (hr : s.Next x rest) (ho : m.body.op? x = some op) (hd : m.Does host s x op v heap state) :
    m.Forwarding (s.past x v rest heap state) := by
  intro hb y z hyz hy
  have hsuf := hl.rest _ hr
  have hx := getElem?_position hsuf
  simp only [Frame.block_setResult] at hb
  rw [reached_of_rest rfl, Frame.block_setResult, position_succ hsuf] at hy
  obtain ⟨cls, hop⟩ := castSource?_eq_some.1 hyz
  show (s.frame.setResult x v).values.get? y = (s.frame.setResult x v).values.get? z
  rw [hf.get?_setResult hwf ho, hf.get?_setResult hwf ho]
  by_cases hyx : y = x
  · subst hyx
    obtain rfl : op = .checkCast z cls := by simpa [ho] using hop
    obtain ⟨w, rfl, hw⟩ := does_checkCast hd
    rw [if_pos rfl, if_neg, hw]
    · rfl
    · rintro rfl
      obtain ⟨op', hop', hcheck⟩ := hc.inst _ hb _ _ hx
      obtain rfl : op' = .checkCast z cls := by simpa [ho] using hop'.symm
      exact hc.not_available ho hx (Nat.le_refl _) (hcheck.operands rfl z (by simp [Op.operands]))
  · have hav : m.body.Available y s.frame.block
        (m.body.position s.frame.block (some (x :: rest))) :=
      hy.of_succ.resolve_right fun he => hyx (by simpa [he] using hx)
    rw [if_neg hyx, if_neg]
    · exact h hb y z hyz ((reached_of_rest hr).2 hav)
    · rintro rfl
      exact hc.not_available ho hx (Nat.le_refl _)
        (hc.available_of_operand hb hop rfl (by simp [Op.operands]) hav)

include hwf hc in
theorem Forwarding.step (hl : m.Located s) (hf : m.Framed s) (h : m.Forwarding s)
    (hstep : m.Step host s t) : m.Forwarding t := by
  cases hstep with
  | enter hr hphis => exact h.enter hwf hc hl hf hr hphis
  | op hr ho hleave hd => exact h.over hwf hc hl hf hr ho hd
  | @caught x rest op t heap state normal handler hr ho hleave ht hterm =>
    intro _ y z hyz hy
    have hblock := (hl.mem_insts hr).1
    have hsuf := hl.rest _ hr
    obtain rfl := rest_eq_nil_of_invoke hc hl hr hterm
    have hpos := position_succ hsuf
    rw [position_nil] at hpos
    rw [reached_of_pred rfl rfl, hpos] at hy
    refine h hblock y z hyz ((reached_of_rest hr).2 (hy.of_succ.resolve_right fun he => ?_))
    -- the call of the `invoke` is no cast
    obtain rfl : x = y := by simpa [he] using (getElem?_position hsuf).symm
    obtain ⟨⟨c, hop⟩, -⟩ := hc.invoke _ hblock x normal handler hterm
    obtain ⟨cls, hop'⟩ := castSource?_eq_some.1 hyz
    simp [hop] at hop'
  | goTo hr hb =>
    intro _ y z hyz hy
    exact h (hl.mem_order_of_targets hb.mem_targets) y z hyz ((reached_of_rest hr).2 hy)

include hc in
theorem Forwarding.underlying (h : m.Forwarding s) (hr : s.rest = some rest)
    (hb : s.frame.block ∈ m.body.order)
    (hx : m.body.Available x s.frame.block (m.body.position s.frame.block (some rest))) :
    s.frame.values.get? (m.body.underlying x) = s.frame.values.get? x := by
  have hend : m.body.Available (m.body.underlying x) s.frame.block
        (m.body.position s.frame.block (some rest)) ∧
      s.frame.values.get? (m.body.underlying x) = s.frame.values.get? x := by
    refine chainEnd_induction (P := fun y =>
      m.body.Available y s.frame.block (m.body.position s.frame.block (some rest)) ∧
        s.frame.values.get? y = s.frame.values.get? x) (fun y z hy hyz => ?_) _ x ⟨hx, rfl⟩
    obtain ⟨cls, hop⟩ := castSource?_eq_some.1 hyz
    refine ⟨hc.available_of_operand hb hop rfl (by simp [Op.operands]) hy.1, ?_⟩
    rw [← hy.2, h hb y z hyz ((reached_of_rest hr).2 hy.1)]
  exact hend.2

/-- What is an allocation behind casts holds references only. -/
def DirectRefs (m : Machine) (s : RunState σ) : Prop :=
  ∀ y op v, m.body.op? (m.body.underlying y) = some op → op.isAlloc = true →
    s.frame.values.get? y = some v → ∃ o, v = .ref o

theorem directRefs_start (m : Machine) (heap : Heap) (state : σ) :
    m.DirectRefs (m.start heap state) := by
  intro y op v _ _ hv
  simp [start, show (SideTable.get? {} y : Option Value) = none from rfl] at hv

theorem DirectRefs.step (h : m.DirectRefs s) (hstep : m.Step host s t) : m.DirectRefs t := by
  intro y op v hop halloc hv
  have hnext : m.body.castSource? (m.body.underlying y) = none := by
    rw [castSource?, hop]
    cases op <;> first | rfl | cases halloc
  cases hstep with
  | enter hr hf =>
    obtain ⟨incoming, hphis, -, rfl⟩ := enterPhis_spec hf
    refine (SideTable.mem_of_get?_foldl_insert hv).elim (fun hmem => ?_) (h y op v hop halloc)
    -- a phi is no cast, hence not behind one
    have hy : y ∈ m.body.phis s.frame.block := hphis ▸ List.mem_map_of_mem hmem
    obtain ⟨inputs, hphi⟩ := isPhi_iff.1 (isPhi_of_mem_phis hy)
    rw [Body.underlying, chainEnd_of_none (by rw [castSource?, hphi]), hphi] at hop
    cases hop
    cases halloc
  | @op x rest op' w heap state hr ho hleave hd =>
    rcases w with _ | w
    · exact h y op v hop halloc hv
    · rcases SideTable.get?_insert_cases s.frame.values x w hv with ⟨rfl, rfl⟩ | hold
      · rcases hcast : m.body.castSource? y with _ | z
        · rw [Body.underlying, chainEnd_of_none hcast, ho] at hop
          cases hop
          obtain ⟨shape, -, he⟩ := eval_of_isAlloc halloc hd
          exact ⟨_, Option.some.inj he⟩
        · obtain ⟨cls, hop'⟩ := castSource?_eq_some.1 hcast
          obtain rfl : op' = .checkCast z cls := by simpa [ho] using hop'
          obtain ⟨w', he, hz⟩ := does_checkCast hd
          cases he
          refine h z op v ?_ halloc hz
          rw [Body.underlying, chainEnd_of_next hcast hnext]
          exact hop
      · exact h y op v hop halloc hold
  | caught | goTo => exact h y op v hop halloc hv

end Casts

theorem setLocks_of_eval {h obj d} (hmon : op.monitor? = some (obj, d))
    (he : m.eval f h x op = .ok eff) :
    ∃ o ob k, f.values.get? obj = some (.ref o) ∧ h.get? o = some ob ∧ eff = .setLocks o k ∧
      (k.toNat : Int) = ob.locks.toNat + d := by
  obtain ⟨rfl, rfl⟩ | ⟨rfl, rfl⟩ := Op.of_monitor? hmon
  · simp only [eval, Except.bind_eq_ok, target_eq_ok, object_eq_ok] at he
    obtain ⟨o, ho, ob, hob, he⟩ := he
    split at he
    · cases he
    · cases he
      have hroom : ob.isFull = false := by simpa using ‹¬ ob.isFull = true›
      exact ⟨o, ob, _, ho, hob, rfl, by rw [Object.toNat_locks_add_one hroom]; rfl⟩
  · simp only [eval, Except.bind_eq_ok, target_eq_ok, object_eq_ok] at he
    obtain ⟨o, ho, ob, hob, he⟩ := he
    split at he
    · cases he
    · rename_i hlocks
      cases he
      exact ⟨o, ob, _, ho, hob, rfl, by rw [← Object.toNat_locks_sub_one hlocks]; omega⟩

theorem ne_setLocks_of_eval {h} (hmon : op.monitor? = none) (he : m.eval f h x op = .ok eff)
    (k : UInt32) : eff ≠ .setLocks o k := by
  rintro rfl
  cases acts_of_eval he <;> cases hmon

theorem locksOf_of_created (hwf : s.heap.objects.WellFormed) (hr : s.Next x rest)
    (ho : m.body.op? x = some op) (hd : m.Does host s x op v heap state)
    (hc : m.created? s = some (o, y)) : y = x ∧ heap.locksOf o = 0 := by
  obtain ⟨rest', op', shape, hr', ho', he, rfl⟩ := eval_of_created? hc
  obtain ⟨rfl, rfl, rfl⟩ := next_unique hr ho hr' ho'
  refine ⟨rfl, ?_⟩
  cases hd with
  | call => cases acts_of_eval he
  | plain _ he' =>
    rw [he] at he'
    cases he'
    change (s.heap.alloc m.program shape).2.locksOf _ = 0
    rw [Heap.locksOf_alloc hwf, Heap.locksOf, Heap.get?_alloc_fst hwf]
    rfl

section Levels

variable {E : Elision m.program m.body} {org : ObjRef → Option Nat} {n : Nat}
  {level : BlockId → Int} {heap : Heap} {state : σ}

/-- The objects of an elided allocation are locked as often as its level says if they are the ones
made last, and otherwise not at all. -/
def Leveled (m : Machine) (E : Elision m.program m.body) (org : ObjRef → Option Nat)
    (s : RunState σ) : Prop :=
  s.frame.block ∈ m.body.order → ∀ n ∈ E.sites, ∀ level,
    (E.graph.knownOps m.body).Levels m.body (.alloc n) level → ∀ o, org o = some n → (s.heap.locksOf o : Int) =
      if s.frame.values.get? (E.site n) = some (.ref o) then
        (E.graph.knownOps m.body).levelAt m.body (.alloc n) level s.frame.block
          (m.body.position s.frame.block s.rest)
      else 0

theorem leveled_start (E : Elision m.program m.body) (heap : Heap) (state : σ) :
    m.Leveled E (origin E.graph []) (m.start heap state) := by
  intro _ n _ level _ o horg
  simp [origin] at horg

theorem Sound.alloc_mem_ptsOf (hs : m.Sound E.graph org holds s) (hn : n ∈ E.sites)
    (hv : s.frame.values.get? x = some (.ref o)) (horg : org o = some n) :
    .alloc n ∈ E.graph.ptsOf x := by
  obtain ⟨b, hb, hstands⟩ := (hs.frame x o hv).2
  exact hstands.eq_alloc horg (E.escapeOf_of_mem_sites hn) ▸ hb

section Op

variable (hs : m.Surveyed E.graph org holds s) (hfwd : m.Forwarding s)
  (hr : s.Next x rest) (ho : m.body.op? x = some op) (hn : n ∈ E.sites) {obj : InstId}
  {v : Option Value}
include hs hr

include ho in
theorem available_of_monitor {d} (hmon : op.monitor? = some (obj, d)) :
    m.body.Available obj s.frame.block (m.body.position s.frame.block (some (x :: rest))) :=
  E.checked.available_of_monitor (hs.sound.located.mem_insts hr).1
    (getElem?_position (hs.sound.located.rest _ hr)) ho hmon

include hfwd ho in
/-- The operand of an operation on the monitor of an elided allocation is the object that the
allocation made last. -/
theorem value_of_monitor {d} (hmon : op.monitor? = some (obj, d))
    (hunder : m.body.underlying obj = E.site n) :
    s.frame.values.get? (E.site n) = s.frame.values.get? obj := by
  rw [← hunder]
  exact hfwd.underlying E.checked hr (hs.sound.located.mem_insts hr).1
    (available_of_monitor hs hr ho hmon)

include hn in
theorem levelAt_site (hx : E.site n = x)
    (hl : (E.graph.knownOps m.body).Levels m.body (.alloc n) level) :
    (E.graph.knownOps m.body).levelAt m.body (.alloc n) level s.frame.block
      (m.body.position s.frame.block (some (x :: rest))) = 0 := by
  obtain ⟨op, hop, -⟩ := E.op?_site hn
  refine hl.levelAt_eq_zero (fun b hb j y hy hne => E.available_site hn hb hy hne) E.checked
    (live_of_op? hop) (hs.sound.located.mem_insts hr).1 (E.checked.not_available hop ?_
      (Nat.le_refl _))
  rw [hx]
  exact getElem?_position (hs.sound.located.rest _ hr)

include ho hn in
theorem locksOf_of_does (hhost : host.Confined m.program holds) (hty : s.frame.RefsTyped m.body)
    (hmon : op.monitor? = none) (hd : m.Does host s x op v heap state) (horg : org o = some n) :
    heap.locksOf o = s.heap.locksOf o := by
  cases hd with
  | @plain _ eff _ he =>
    cases eff with
    | none | value | setGlobal => rfl
    | alloc shape => exact Heap.locksOf_alloc hs.sound.heap.valid.wellFormed o
    | write o' first vs => exact Heap.locksOf_modify_fields ..
    | setLocks o' k => exact absurd rfl (ne_setLocks_of_eval hmon he k)
  | call ha hh =>
    rw [Heap.locksOf, hs.get?_of_call E.solved hr ho hhost hty rfl ha hh horg
      (E.escapeOf_of_mem_sites hn), Heap.locksOf]

include hfwd ho hn in
/-- An operation changes the locks of the object that the allocation made last as the level says,
and of no other object that it has made. -/
theorem locksOf_add_delta (hhost : host.Confined m.program holds) (hty : s.frame.RefsTyped m.body)
    (hd : m.Does host s x op v heap state) (horg : org o = some n) :
    (heap.locksOf o : Int) = s.heap.locksOf o +
      if s.frame.values.get? (E.site n) = some (.ref o) then
        (E.graph.knownOps m.body).delta (.alloc n) x
      else 0 := by
  have hb := (hs.sound.located.mem_insts hr).1
  have hmem := List.mem_of_getElem? (getElem?_position (hs.sound.located.rest _ hr))
  rcases hmon : op.monitor? with _ | ⟨obj, d⟩
  · rw [locksOf_of_does hs hr ho hn hhost hty hmon hd horg, E.delta_eq_zero hn ho hmon, ite_self,
      Int.add_zero]
  cases hd with
  | call => cases hmon
  | plain _ he =>
    obtain ⟨o', ob, k, hv, hob, rfl, hk⟩ := setLocks_of_eval hmon he
    simp only [Effect.apply]
    have hvalue : m.body.underlying obj = E.site n →
        s.frame.values.get? (E.site n) = some (.ref o') := fun hunder =>
      (value_of_monitor hs hfwd hr ho hmon hunder).trans hv
    have hmon' : (m.body.op? x).bind Op.monitor? = some (obj, d) := by simp [ho, hmon]
    by_cases hoo : o = o'
    · subst hoo
      have hpts := hs.sound.alloc_mem_ptsOf hn hv horg
      obtain ⟨hunder, -⟩ := E.direct hn (mem_monitorUses.2 ⟨_, d, hmem, hmon'⟩) hpts
      rw [if_pos (hvalue hunder), E.delta_eq hn hb hmem hmon' hpts, Heap.locksOf_of_get? hob, ← hk,
        Heap.locksOf, Heap.get?_modify, if_pos rfl, hob]
      rfl
    · rw [Heap.locksOf, Heap.get?_modify, if_neg hoo, ← Heap.locksOf]
      split
      · rename_i hsite
        have hzero : (E.graph.knownOps m.body).delta (.alloc n) x = 0 := by
          refine Classical.byContradiction fun hne => hoo ?_
          obtain ⟨_, -, obj', d', -, hop', hunder, -⟩ := E.of_delta_ne_zero hn hne
          rw [hmon'] at hop'
          cases hop'
          simpa [hsite] using hvalue hunder
        rw [hzero, Int.add_zero]
      · rw [Int.add_zero]

include hfwd ho in
/-- An operation that is elided changes the locks of an object of the run, unless there are too many
of them. -/
theorem eval_of_gone (h : m.Leveled E org s) (hgone : x ∈ E.gone) :
    ∃ o k, (∃ n ∈ E.sites, org o = some n) ∧ (m.eval s.frame s.heap x op = .ok (.setLocks o k) ∨
      m.eval s.frame s.heap x op = .error (.error (.lockOverflow o))) := by
  have hb := (hs.sound.located.mem_insts hr).1
  have hx := getElem?_position (hs.sound.located.rest _ hr)
  obtain ⟨op', obj, d, hop', hmon, n, hn, hunder⟩ := E.of_mem_gone hb hx hgone
  obtain rfl : op' = op := by simpa [hop'] using ho
  -- the allocation has run, and the operand is the object that it made last
  obtain ⟨op0, hop0, halloc⟩ := E.op?_site hn
  have hvalue := value_of_monitor hs hfwd hr ho hmon hunder
  have hav : m.Reached s (E.site n) := (reached_of_rest hr).2
    (hunder ▸ E.checked.available_underlying hb (available_of_monitor hs hr ho hmon))
  have hyields : op0.yields = true := by cases op0 <;> first | rfl | cases halloc
  obtain ⟨v, hsite⟩ := hs.computed hb (E.site n) op0 hav hop0 hyields
  obtain ⟨o, n', rfl, hn', horg⟩ := hs.allocs (E.site n) op0 v hop0 halloc hsite
  obtain rfl : n = n' := by simpa [E.allocOf_site hn] using hn'
  have hv : s.frame.values.get? obj = some (.ref o) := hvalue.symm.trans hsite
  obtain ⟨ob, hob⟩ := (hs.sound.frame obj o hv).1
  obtain ⟨rfl, rfl⟩ | ⟨rfl, rfl⟩ := Op.of_monitor? hmon
  · refine ⟨o, ob.locks + 1, ⟨n, hn, horg⟩, ?_⟩
    have heval : m.eval s.frame s.heap x (.monitorEnter obj) =
        if ob.isFull then fail (.lockOverflow o) else pure (.setLocks o (ob.locks + 1)) := by
      rw [eval, target_eq_ok.2 hv]
      show (object s.heap o >>= _) = _
      rw [object_eq_ok.2 hob]
      rfl
    rw [heval]
    cases ob.isFull
    · exact .inl rfl
    · exact .inr rfl
  · obtain ⟨level, hl⟩ := E.exists_levels hn
    have hlevel := h hb n hn level hl o horg
    rw [if_pos hsite, hr, Heap.locksOf_of_get? hob] at hlevel
    have hstays := hl.nonneg _ hb (m.body.position s.frame.block (some (x :: rest)) + 1)
    rw [← MonitorOps.levelAt, MonitorOps.levelAt_succ hx, ← hlevel,
      E.delta_eq hn hb (List.mem_of_getElem? hx) (by rw [ho]; rfl)
        (hs.sound.alloc_mem_ptsOf hn hv horg)] at hstays
    refine ⟨o, ob.locks - 1, ⟨n, hn, horg⟩, .inl ?_⟩
    simp only [eval, Except.bind_eq_ok, target_eq_ok, object_eq_ok]
    refine ⟨o, hv, ob, hob, if_neg fun hzero => ?_⟩
    rw [hzero] at hstays
    exact absurd hstays (by decide)

end Op

section Step

variable (hs : m.Surveyed E.graph (origin E.graph log) holds s) (hfwd : m.Forwarding s)
  (hhost : host.Confined m.program holds) (hty : s.frame.RefsTyped m.body)
  (h : m.Leveled E (origin E.graph log) s)
include hs hfwd hhost hty h

theorem Leveled.over (hr : s.Next x rest) (ho : m.body.op? x = some op) {v}
    (hd : m.Does host s x op v heap state) :
    m.Leveled E (origin E.graph ((m.created? s).toList ++ log))
      (s.past x v rest heap state) := by
  intro _ n hn level hl o horg'
  have hb := (hs.sound.located.mem_insts hr).1
  have hsuf := hs.sound.located.rest _ hr
  have hx := getElem?_position hsuf
  simp only [Frame.block_setResult]
  rw [position_succ hsuf, MonitorOps.levelAt_succ hx, hs.framed.get?_setResult E.wf ho]
  by_cases horg : origin E.graph log o = some n
  · have ih := h hb n hn level hl o horg
    rw [hr] at ih
    rw [locksOf_add_delta hs hfwd hr ho hn hhost hty hd horg, ih]
    by_cases hsite : E.site n = x
    · rw [levelAt_site hs hr hn hsite hl, ← hsite, E.delta_site hn]
      simp
    · rw [if_neg hsite]
      split <;> simp
  · -- the object is new
    rcases hc : m.created? s with _ | ⟨o1, x1⟩
    · rw [hc] at horg'
      exact absurd horg' horg
    · rw [hc] at horg'
      simp only [Option.toList_some, List.singleton_append, origin_cons] at horg'
      split at horg'
      · rename_i heq
        subst heq
        obtain ⟨rfl, hlocks⟩ := locksOf_of_created hs.sound.heap.valid.wellFormed hr ho hd hc
        have hsite := E.site_eq horg'
        rw [hlocks, levelAt_site hs hr hn hsite hl, ← hsite, E.delta_site hn]
        simp
      · exact absurd horg' horg

theorem Leveled.step (hstep : m.Step host s t) :
    m.Leveled E (origin E.graph ((m.created? s).toList ++ log)) t := by
  cases hstep with
  | op hr ho hleave hd => exact h.over hs hfwd hhost hty hr ho hd
  | @enter frame hr hf =>
    rw [created?, hr]
    have hblock : frame.block = s.frame.block := by
      obtain ⟨_, -, -, rfl⟩ := enterPhis_spec hf
      rfl
    intro hb n hn level hl o horg
    have ih := h (hblock ▸ hb) n hn level hl o horg
    obtain ⟨hkeep, -⟩ := hs.framed.enterPhis E.wf (hs.sound.located.nodup_phis E.checked) hf
    obtain ⟨op, hop, halloc⟩ := E.op?_site hn
    have hsite : E.site n ∉ m.body.phis s.frame.block := by
      intro hmem
      have hphi := (isPhi_of_op? hop).symm.trans (isPhi_of_mem_phis hmem)
      cases op <;> simp_all [Op.isPhi, Op.isAlloc]
    -- the phis do nothing to monitors
    have hlevel : (E.graph.knownOps m.body).levelAt m.body (.alloc n) level s.frame.block
        (m.body.phiCount s.frame.block) = level s.frame.block := by
      rw [MonitorOps.levelAt, phiCount, insts_eq, List.take_left]
      refine MonitorOps.run_eq_of_delta (fun y hy => ?_) _
      obtain ⟨inputs, hphi⟩ := isPhi_iff.1 (isPhi_of_mem_phis hy)
      exact E.delta_eq_zero hn hphi rfl
    rw [hr] at ih
    simp only [hkeep _ hsite, hblock, position_code, hlevel]
    exact ih
  | @caught x rest op t heap state normal handler hr ho hleave ht hterm =>
    rw [created?_of_throws hr ho ht]
    intro hhandler n hn level hl o horg
    have hb := (hs.sound.located.mem_insts hr).1
    have hsuf := hs.sound.located.rest _ hr
    obtain ⟨⟨c, hcall⟩, -⟩ := E.checked.invoke _ hb x normal handler hterm
    obtain rfl : op = .call c := by simpa [ho] using hcall
    have ih := h hb n hn level hl o horg
    have e : m.body.flow.Edge s.frame.block handler :=
      edge_iff.2 ⟨by simp [flow, hterm, Terminator.targets], E.wf.live_of_mem_order hhandler⟩
    -- the level of the handler is that behind the call
    have hlevel : level handler = (E.graph.knownOps m.body).levelAt m.body (.alloc n) level
        s.frame.block (m.body.position s.frame.block s.rest) := by
      rw [hl.edge _ hb handler e, ← MonitorOps.levelAt_length,
        hr, ← position_nil, ← rest_eq_nil_of_invoke E.checked hs.sound.located hr hterm,
        position_succ hsuf, MonitorOps.levelAt_succ (getElem?_position hsuf),
        E.delta_eq_zero hn ho rfl, Int.add_zero]
    cases ht with
    | plain hc => cases hc
    | call ha hh =>
      rw [Heap.locksOf, hs.get?_of_call E.solved hr ho hhost hty rfl ha hh horg
        (E.escapeOf_of_mem_sites hn), ← Heap.locksOf, ih, ← hlevel]
      rfl
  | @goTo b hr hb =>
    rw [created?, hr]
    intro hblock n hn level hl o horg
    have hs' := hs.sound.located.mem_order_of_targets hb.mem_targets
    have ih := h hs' n hn level hl o horg
    have e : m.body.flow.Edge s.frame.block b :=
      edge_iff.2 ⟨hb.mem_targets, E.wf.live_of_mem_order hblock⟩
    rw [hr, position_nil, MonitorOps.levelAt_length, ← hl.edge _ hs' b e] at ih
    exact ih

end Step

/-- What is known about the monitors of elided allocations where a run stands. -/
structure Tracked (m : Machine) (E : Elision m.program m.body) (org : ObjRef → Option Nat)
    (holds : σ → ObjRef → Prop) (s : RunState σ) : Prop where
  surveyed : m.Surveyed E.graph org holds s
  forwarding : m.Forwarding s
  directRefs : m.DirectRefs s
  leveled : m.Leveled E org s

theorem tracked_start (E : Elision m.program m.body) (hst : m.StartsIn holds heap state) :
    m.Tracked E (origin E.graph []) holds (m.start heap state) where
  surveyed := surveyed_start E.graph hst
  forwarding := forwarding_start m heap state
  directRefs := directRefs_start m heap state
  leveled := leveled_start E heap state

theorem Tracked.step (hhost : host.Confined m.program holds)
    (h : m.Tracked E (origin E.graph log) holds s) (hs : m.Disciplined s) (ht : m.Disciplined t)
    (hstep : m.Step host s t) :
    m.Tracked E (origin E.graph ((m.created? s).toList ++ log)) holds t where
  surveyed := h.surveyed.step E.wf E.checked E.solved hhost hs ht hstep
  forwarding :=
    h.forwarding.step E.wf E.checked h.surveyed.sound.located h.surveyed.framed hstep
  directRefs := h.directRefs.step hstep
  leveled := h.leveled.step h.surveyed h.forwarding hhost hs.refs hstep

end Levels

end Machine

end EscapeAnalysis
