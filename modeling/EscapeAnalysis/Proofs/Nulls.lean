import EscapeAnalysis.Proofs.PointsTo

/-!
# Where nulls come from

The graph follows every null that an instruction brings in, through stores, copies, casts, phis and
loads (`NodeSet.MayBeNull`). It does not follow the nulls that the slots of a new object start with
(`Machine.pristine`). A run that loads no such slot keeps all its nulls accounted for
(`Machine.nulls_sound`).
-/

namespace EscapeAnalysis

open List EscapeAnalysis.Graph

/-- The nodes account for null. -/
def NodeSet.MayBeNull (s : NodeSet) : Prop := .null ∈ s ∨ .phantom ∈ s

theorem NodeSet.MayBeNull.mono {s t : NodeSet} (h : s.MayBeNull) (hst : ∀ b ∈ s, b ∈ t) :
    t.MayBeNull := h.imp (hst _) (hst _)

/-- Only instructions of reference type hold null. -/
def Frame.NullsTyped (body : Body) (f : Frame) : Prop :=
  ∀ x, f.values.get? x = some .null → body.isRef x = true

theorem Frame.nullsTyped_iff {body} {f : Frame} : f.NullsTyped body ↔
    ∀ e ∈ f.values.toList, e.2 = .null → body.isRef e.1 = true := by
  constructor
  · rintro h ⟨x, v⟩ he rfl
    exact h x (SideTable.mem_toList_iff.1 he)
  · exact fun h x hx => h (x, .null) (SideTable.mem_toList_iff.2 hx) rfl

def Heap.blankSlots (p : Program) (shape : Shape) : List Nat :=
  (List.range (freshFields p shape).size).filter fun i => (freshFields p shape)[i]? = some .null

theorem Heap.mem_blankSlots {p shape i} :
    i ∈ blankSlots p shape ↔ (freshFields p shape)[i]? = some .null := by
  simp only [blankSlots, mem_filter, mem_range, decide_eq_true_eq, and_iff_right_iff_imp]
  exact fun h => (Array.getElem?_eq_some_iff.1 h).1

/-- Which of the `n` elements that an operation copies come from the slots in `l`. -/
def Op.copiedFrom (f : Frame) (n : Nat) (l : List (ObjRef × Nat)) : Op → List Nat
  | .arrayCopy src srcPos _ _ _ =>
    match f.values.get? src, f.values.get? srcPos with
    | some (.ref o), some (.int i) => (List.range n).filter fun k => (o, i.toInt.toNat + k) ∈ l
    | _, _ => []
  | _ => []

/-- The slots that still hold the null of a new object after an effect of `op`, where those in `l`
do before it. -/
def Effect.pristine (p : Program) (f : Frame) (h : Heap) (op : Op) (l : List (ObjRef × Nat)) :
    Effect → List (ObjRef × Nat)
  | .alloc shape => (Heap.blankSlots p shape).map ((h.alloc p shape).1, ·) ++ l
  | .write o first vs =>
    (op.copiedFrom f vs.length l).map (fun k => (o, first + k)) ++
      l.filter fun e => ¬ (e.1 = o ∧ first ≤ e.2 ∧ e.2 < first + vs.length)
  | _ => l

namespace Graph

variable {g : Graph} {p : Program} {org : ObjRef → Option Nat} {o : ObjRef} {i : Nat}
  {t : NodeSet} {b : Node} {access : Access}

/-- The cells of its allocation account for null in slot `i` of an object that does not escape. -/
def HoldsNull (g : Graph) (p : Program) (org : ObjRef → Option Nat) (o : ObjRef) (i : Nat) : Prop :=
  ∀ n, org o = some n → g.escapeOf n = .none → (g.slotNodes p n i).MayBeNull

theorem Escaped.holdsNull (he : g.Escaped org o) : g.HoldsNull p org o i :=
  fun _ hn hne => absurd hne (he.ne_none hn)

theorem mayBeNull_found (hs : g.Stands org o b) (hh : g.HoldsNull p org o i) :
    (g.found p i b).MayBeNull := by
  rcases hs.found_cases p i with ⟨-, hmem⟩ | ⟨n, hn, he, heq⟩
  · exact .inr hmem
  · exact heq ▸ hh n hn he

theorem holdsNull_of_stored {touches : Shape → Nat → Prop} (hs : g.Stands org o b)
    (ht : ∀ shape, touches shape i → access.Touches p shape i) (hb : g.Touched p touches i b)
    (hst : g.Stored g.facts access t b) (hv : t.MayBeNull) : g.HoldsNull p org o i := by
  rcases hs.alloc_or_escaped with ⟨n, hn, rfl⟩ | ⟨-, he⟩
  · intro n' hn' _
    rw [hn] at hn'
    cases hn'
    obtain ⟨c, hin, hsub⟩ := subset_slotNodes_of_stored ht hb hst
    exact hv.mono fun k hk => hsub k (hin k hk)
  · exact he.holdsNull

end Graph

namespace Machine

variable {σ : Type} {m : Machine} {x : InstId} {op : Op}

def slotLoaded? (m : Machine) (s : RunState σ) : Option (ObjRef × Nat) :=
  match s.rest with
  | some (x :: _) =>
    match m.body.op? x with
    | some (.loadField obj field) =>
      match s.frame.values.get? obj with
      | some (.ref o) =>
        ((s.heap.get? o).bind fun ob => (slotOf m.program ob field).toOption).map (o, ·)
      | _ => none
    | some (.loadElem array index) =>
      match s.frame.values.get? array, s.frame.values.get? index with
      | some (.ref o), some (.int n) => some (o, n.toInt.toNat)
      | _, _ => none
    | _ => none
  | _ => none

/-- The slots that still hold the null of a new object after the next step, where `l` does
before it. -/
def pristine (m : Machine) (s : RunState σ) (l : List (ObjRef × Nat)) : List (ObjRef × Nat) :=
  match s.rest with
  | some (x :: _) =>
    match m.body.op? x with
    | some op =>
      match m.eval s.frame s.heap x op with
      | .ok eff => Effect.pristine m.program s.frame s.heap op l eff
      | .error _ => l
    | none => l
  | _ => l

/-- A state that respects types, also for null, and whose next instruction loads a slot in `l` from
an escaping object only. -/
structure Careful (m : Machine) (g : Graph) (org : ObjRef → Option Nat) (s : RunState σ)
    (l : List (ObjRef × Nat)) : Prop where
  disciplined : m.Disciplined s
  nulls : s.frame.NullsTyped m.body
  loads : ∀ o i, m.slotLoaded? s = some (o, i) → (o, i) ∈ l → g.Escaped org o

theorem careful_of_not_mem {g} {org : ObjRef → Option Nat} {s : RunState σ} {l}
    (h : m.Disciplined s ∧
      (∀ e ∈ s.frame.values.toList, e.2 = .null → m.body.isRef e.1 = true) ∧
      ∀ e ∈ m.slotLoaded? s, e ∉ l) : m.Careful g org s l :=
  ⟨h.1, Frame.nullsTyped_iff.2 h.2.1, fun o i he hmem => absurd hmem (h.2.2 (o, i) he)⟩

/-- A run of careful states, with a log of the objects it creates and the slots that still hold the
null of a new object. -/
inductive CarefulTrace (m : Machine) (g : Graph) (host : Host σ) (s : RunState σ) :
    RunState σ → List (ObjRef × InstId) → List (ObjRef × Nat) → Prop
  | start (h : m.Careful g (origin g []) s []) : CarefulTrace m g host s s [] []
  | step {t u : RunState σ} {log l} (h : CarefulTrace m g host s t log l) (hs : m.Step host t u)
      (hu : m.Careful g (origin g ((m.created? t).toList ++ log)) u (m.pristine t l)) :
      CarefulTrace m g host s u ((m.created? t).toList ++ log) (m.pristine t l)

section Careful

variable {host : Host σ} {g : Graph} {org : ObjRef → Option Nat} {holds : σ → ObjRef → Prop}
  {s t : RunState σ} {log : List (ObjRef × InstId)} {l : List (ObjRef × Nat)} {rest : List InstId}
  {heap : Heap} {state : σ}

theorem CarefulTrace.last (h : m.CarefulTrace g host s t log l) :
    m.Careful g (origin g log) t l := by
  cases h with
  | start h => exact h
  | step _ _ hu => exact hu

theorem CarefulTrace.trace (h : m.CarefulTrace g host s t log l) :
    m.Trace host m.Disciplined s t log := by
  induction h with
  | start h => exact .start h.disciplined
  | step _ hs hu ih => exact ih.step hs hu.disciplined

theorem pristine_of_eval (hr : s.Next x rest) (ho : m.body.op? x = some op) {eff}
    (he : m.eval s.frame s.heap x op = .ok eff) (l : List (ObjRef × Nat)) :
    m.pristine s l = Effect.pristine m.program s.frame s.heap op l eff := by
  simp only [pristine, hr, ho, he]

theorem pristine_of_throws (hr : s.Next x rest) (ho : m.body.op? x = some op) {th}
    (ht : m.Throws host s x op th heap state) (l : List (ObjRef × Nat)) : m.pristine s l = l := by
  cases ht with
  | plain _ he => simp only [pristine, hr, ho, he]
  | call => exact pristine_of_eval hr ho rfl l

/-- Every null is accounted for, but for those in the slots in `l`. -/
structure NullSound (m : Machine) (g : Graph) (org : ObjRef → Option Nat) (s : RunState σ)
    (l : List (ObjRef × Nat)) : Prop where
  frame : ∀ x, s.frame.values.get? x = some .null → (g.ptsOf x).MayBeNull
  slots : ∀ o obj i, s.heap.get? o = some obj → obj.fields[i]? = some .null → (o, i) ∉ l →
    g.HoldsNull m.program org o i

namespace NullSound

variable {org' : ObjRef → Option Nat} {frame : Frame}

theorem mayBeNull_of_seed (hs : m.Sound g org holds s) (hg : g.Solved m.program m.body)
    (hr : s.Next x rest)
    (hseed : Graph.seed? m.body x = some (.singleton .phantom)) : (g.ptsOf x).MayBeNull :=
  .inr ((hs.accounts hg hr).seed _ hseed _ (NodeSet.mem_singleton.2 rfl))

theorem mayBeNull_of_copy {y ts} (hn : m.NullSound g org s l) (hpts : g.facts.pts.get? x = some ts)
    (hsat : g.Satisfied g.facts (.copy x y)) (hy : s.frame.values.get? y = some .null) :
    (g.ptsOf x).MayBeNull := by
  rw [ptsOf, ptsOf_eq hpts]
  exact (hn.frame y hy).mono fun b hb => hsat ts hpts b hb

section Effects

variable (hs : m.Sound g org holds s) (hn : m.NullSound g org s l) (hg : g.Solved m.program m.body)
  (hr : s.Next x rest) {base : InstId} {o : ObjRef} {obj : Object} {i : Nat}
include hs hn hg hr

theorem mayBeNull_of_slot (hx : m.body.isRef x = true) (access : Access)
    (hc : constraintsOf m.program m.body x = [.load x base access])
    (hbase : s.frame.values.get? base = some (.ref o)) (hobj : s.heap.get? o = some obj)
    (hi : obj.fields[i]? = some .null) (hl : (o, i) ∈ l → g.Escaped org o)
    (ht : access.Touches m.program obj.shape i) : (g.ptsOf x).MayBeNull := by
  have hh : g.HoldsNull m.program org o i := by
    by_cases hmem : (o, i) ∈ l
    · exact (hl hmem).holdsNull
    · exact hn.slots o obj i hobj hi hmem
  obtain ⟨b, hb, hstands, htouched⟩ :=
    hs.exists_touched (access.Touches m.program) hbase hobj ht (Array.getElem?_eq_some_iff.1 hi).1
  exact (mayBeNull_found hstands hh).mono (found_subset_of_load (fun _ h => h)
    ((hs.accounts hg hr).ref hx) (hs.satisfied_of_mem hg hr (hc ▸ mem_singleton.2 rfl)) hb
    htouched)

theorem holdsNull_of_store {value} (access : Access)
    (hc : constraintsOf m.program m.body x = [.store base access value])
    (hbase : s.frame.values.get? base = some (.ref o)) (hobj : s.heap.get? o = some obj)
    (hv : s.frame.values.get? value = some .null) (ht : access.Touches m.program obj.shape i)
    (hi : i < obj.fields.size) : g.HoldsNull m.program org o i := by
  have hsat : g.Satisfied g.facts (.store base access value) :=
    hs.satisfied_of_mem hg hr (hc ▸ mem_singleton.2 rfl)
  obtain ⟨b, hb, hstands, htouched⟩ :=
    hs.exists_touched (access.Touches m.program) hbase hobj ht hi
  exact holdsNull_of_stored hstands (fun _ h => h) htouched (hsat b hb) (hn.frame value hv)

variable (ho : m.body.op? x = some op)
include ho

theorem mayBeNull_of_value (hc : m.Careful g org s l) (hx : m.body.isRef x = true)
    (ha : Acts m s.frame s.heap op (.value .null)) : (g.ptsOf x).MayBeNull := by
  generalize he : Effect.value .null = eff at ha
  cases ha with
  | none | new | newArray | storeField | storeElem | rawStore | arrayCopy | arrayFill
  | storeGlobal | monitorEnter | monitorExit => cases he
  | plain _ hnull =>
    obtain rfl := hnull (Effect.value.inj he).symm
    exact .inl
      ((hs.accounts hg hr).seed _ (by rw [Graph.seed?, ho]) _ (NodeSet.mem_singleton.2 rfl))
  | param | loadGlobal | exception =>
    exact mayBeNull_of_seed hs hg hr (by simp [Graph.seed?, ho, hx])
  | @loadField _ _ o _ _ idx _ hbase hobj hshape hidx hv =>
    cases he
    have hload : m.slotLoaded? s = some (o, idx) := by
      simp only [slotLoaded?, hr, ho, hbase, hobj, Option.bind_some,
        slotOf_eq_ok.2 ⟨_, hshape, hidx⟩, Except.toOption, Option.map_some]
    exact hn.mayBeNull_of_slot hs hg hr hx (.field _) (by simp [constraintsOf, ho, hx]) hbase
      hobj hv (hc.loads _ _ hload) ⟨_, hshape, Program.layout_of_fieldIndex? hidx⟩
  | @loadElem _ _ o _ n _ hbase hobj hidx hv hpos =>
    cases he
    have hload : m.slotLoaded? s = some (o, n.toInt.toNat) := by
      simp only [slotLoaded?, hr, ho, hbase, hidx]
    have helem : m.body.ElemAt _ _ _ :=
      ⟨hc.disciplined.arrays _ _ _ _ _ _ hr ho hbase hobj, hs.mayBe hidx hpos⟩
    exact hn.mayBeNull_of_slot hs hg hr hx (.elem _) (by simp [constraintsOf, ho, hx]) hbase
      hobj hv (hc.loads _ _ hload) helem.touches
  | checkCast hv =>
    cases he
    obtain ⟨ts, hpts⟩ := (hs.accounts hg hr).ref hx
    exact hn.mayBeNull_of_copy hpts
      (hs.satisfied_of_mem hg hr (by simp [constraintsOf, ho])) hv

/-- The null that an operation writes is accounted for, or was copied from a slot in `l`. -/
theorem holdsNull_of_write (hty : s.frame.NullsTyped m.body) {first vs}
    (ha : Acts m s.frame s.heap op (.write o first vs)) (hobj : s.heap.get? o = some obj)
    (hfirst : first ≤ i) (hi : i < obj.fields.size) (hv : vs[i - first]? = some .null)
    (hl : i - first ∉ op.copiedFrom s.frame vs.length l) : g.HoldsNull m.program org o i := by
  cases ha with
  | storeField hbase hval hob hshape hidx =>
    cases hobj.symm.trans hob
    obtain ⟨rfl, hw⟩ := eq_of_getElem?_singleton hfirst hv
    rw [Value.narrow_eq_null] at hw
    subst hw
    exact hn.holdsNull_of_store hs hg hr (.field _) (by simp [constraintsOf, ho, hty _ hval])
      hbase hobj hval ⟨_, hshape, Program.layout_of_fieldIndex? hidx⟩ hi
  | storeElem hbase hn' hob helem hval hpos =>
    cases hobj.symm.trans hob
    obtain ⟨rfl, hw⟩ := eq_of_getElem?_singleton hfirst hv
    rw [Value.narrow_eq_null] at hw
    subst hw
    have helem' : m.body.ElemAt _ _ _ := ⟨Option.isSome_of_eq_some helem, hs.mayBe hn' hpos⟩
    exact hn.holdsNull_of_store hs hg hr (.elem _) (by simp [constraintsOf, ho, hty _ hval])
      hbase hobj hval helem'.touches hi
  | rawStore =>
    exact absurd rfl (plain_of_mem_rawElements (mem_of_getElem? hv)).1
  | arrayFill hbase hval hob helem =>
    cases hobj.symm.trans hob
    have hw := (eq_of_mem_replicate (mem_of_getElem? hv)).symm
    rw [Value.narrow_eq_null] at hw
    subst hw
    exact hn.holdsNull_of_store hs hg hr .allElems (by simp [constraintsOf, ho, hty _ hval])
      hbase hobj hval (Option.isSome_of_eq_some helem) hi
  | arrayCopy hsrc hdst hpos hpos' hlen hsource hdest helem hin =>
    cases hobj.symm.trans hdest
    obtain ⟨k, rfl⟩ := Nat.exists_eq_add_of_le hfirst
    rw [Nat.add_sub_cancel_left] at hv hl
    have hlt := (List.getElem?_eq_some_iff.1 hv).1
    -- the element was null in the source too, where it was not in `l`
    rw [List.getElem?_take] at hv
    split at hv
    · rename_i hk
      rw [List.getElem?_drop, Array.getElem?_toList] at hv
      simp only [Op.copiedFrom, hsrc, hpos, mem_filter, mem_range, hlt, true_and,
        decide_eq_true_eq] at hl
      obtain ⟨range, hc, hrange⟩ := constraintsOf_arrayCopy m.program m.body ho
      have hsat := hs.satisfied_of_mem hg hr (hc ▸ mem_singleton.2 rfl)
      have harr : obj.elem?.isSome := helem.2 ▸ helem.1
      obtain ⟨b, hb, hstands, htouched⟩ := hs.exists_touched (Access.allElems.Touches m.program)
        hsrc hsource helem.1 (Array.getElem?_eq_some_iff.1 hv).1
      obtain ⟨d, hd, hstands', htouched'⟩ := hs.exists_touched
        (Access.allElems.Touches m.program) hdst hobj harr hi
      have hfound := mayBeNull_found hstands (hn.slots _ _ _ hsource hv hl)
      rcases stored_of_copied hrange hsat hb hd (hs.mayBe hpos hin.1) (hs.mayBe hpos' hin.2.1)
        (hs.mayBe hlen hin.2.2) hk with hst | hst
      · exact holdsNull_of_stored hstands' (Access.touches_any _) htouched' hst
          (hfound.mono (found_subset_readNode (fun _ h => h) htouched))
      · exact holdsNull_of_stored hstands' (Access.touches_self _) htouched' hst
          (hfound.mono (found_subset_readNode (Access.touches_self _) htouched))
    · cases hv

end Effects

/-- What has to be shown of a state after a step: a null was there before, and not in a slot in `l`,
or is accounted for. -/
theorem update {l'} (hn : m.NullSound g org s l)
    (hframe : ∀ y, t.frame.values.get? y = some .null → s.frame.values.get? y = some .null ∨
      (g.ptsOf y).MayBeNull)
    (hslots : ∀ o obj i, t.heap.get? o = some obj → obj.fields[i]? = some .null → (o, i) ∉ l' →
      (org' o = org o ∧ (o, i) ∉ l ∧ ∃ obj, s.heap.get? o = some obj ∧ obj.fields[i]? = some .null)
      ∨ g.HoldsNull m.program org' o i) : m.NullSound g org' t l' := by
  refine ⟨fun y hy => (hframe y hy).elim (hn.frame y) id, fun o obj i hobj hi hl => ?_⟩
  rcases hslots o obj i hobj hi hl with ⟨horg, hl, obj0, hobj0, hi0⟩ | hnew
  · intro n hon
    exact hn.slots o obj0 i hobj0 hi0 hl n (horg ▸ hon)
  · exact hnew

theorem update_frame (hn : m.NullSound g org s l)
    (hheap : ∀ o obj, t.heap.get? o = some obj →
      ∃ obj0, s.heap.get? o = some obj0 ∧ obj0.fields = obj.fields)
    (hframe : ∀ y, t.frame.values.get? y = some .null →
      s.frame.values.get? y = some .null ∨ (g.ptsOf y).MayBeNull) : m.NullSound g org t l := by
  refine hn.update hframe fun o obj i hobj hi hl => .inl ⟨rfl, hl, ?_⟩
  obtain ⟨obj0, hobj0, he⟩ := hheap o obj hobj
  exact ⟨obj0, hobj0, he ▸ hi⟩

section

variable (hs : m.Sound g org holds s) (hn : m.NullSound g org s l)
include hs hn

theorem create {shape}
    (horg : ∀ o, o ≠ (s.heap.alloc m.program shape).1 → org' o = org o) (n : Nat) :
    m.NullSound g org'
      { frame := s.frame.set x (.ref (s.heap.alloc m.program shape).1), rest := some rest
        heap := { (s.heap.alloc m.program shape).2 with allocations := n }, host := s.host }
      (Effect.pristine m.program s.frame s.heap op l (.alloc shape)) := by
  refine hn.update (fun y hy => ?_) fun o obj i hobj hi hl => .inl ?_
  · rcases SideTable.get?_insert_cases s.frame.values x _ hy with ⟨-, hv⟩ | hold
    · cases hv
    · exact .inl hold
  · simp only [Effect.pristine, mem_append, mem_map, Prod.mk.injEq, not_or] at hl
    change (s.heap.alloc m.program shape).2.get? o = some obj at hobj
    rw [Heap.get?_alloc hs.heap.valid.wellFormed] at hobj
    split at hobj
    · rename_i he
      cases hobj
      exact absurd ⟨i, Heap.mem_blankSlots.2 hi, he.symm, rfl⟩ hl.1
    · rename_i he
      exact ⟨horg o he, hl.2, obj, hobj, hi⟩

variable (hg : g.Solved m.program m.body)
include hg

theorem enter (hf : m.Enters s frame) (hty : frame.NullsTyped m.body) :
    m.NullSound g org (m.inside s frame) l := by
  obtain ⟨incoming, hphis, hin, rfl⟩ := enterPhis_spec hf
  refine hn.update_frame (fun o obj hobj => ⟨obj, hobj, rfl⟩) fun x hx => ?_
  rcases SideTable.mem_of_get?_foldl_insert hx with hmem | hold
  · obtain ⟨pred, -, hinput⟩ := hin _ hmem
    obtain ⟨inputs, y, hop, hfind, hy⟩ := phiInput_eq_ok.1 hinput
    have hxb : x ∈ (m.body.block s.frame.block).insts :=
      Body.mem_insts_of_mem_phis (hphis ▸ mem_map_of_mem hmem)
    have hacc := hg.read.insts _ (hs.located.mem_order_of_mem hxb) x hxb
    have href := hty x hx
    obtain ⟨ts, hpts⟩ := hacc.ref href
    refine .inr (hn.mayBeNull_of_copy hpts (hg.closed.satisfied _ (hacc.constraints _ ?_)) hy)
    rw [constraintsOf, hop]
    simp only [href, if_true, mem_map]
    exact ⟨_, mem_of_find?_eq_some hfind, rfl⟩
  · exact .inl hold

theorem of_call (hhost : host.Confined m.program holds) (hr : s.Next x rest) {c args reply rest'}
    (ho : m.body.op? x = some (.call c)) (hty : s.frame.RefsTyped m.body)
    (ha : c.args.mapM s.frame.get = .ok args) {heap state}
    (hh : host.call m.program c.callee args s.heap s.host = .ok (reply, heap, state))
    (hframe : ∀ y, frame.values.get? y = some .null → s.frame.values.get? y = some .null ∨ (g.ptsOf
      y).MayBeNull) : m.NullSound g org { frame, rest := rest', heap, host := state } l := by
  have hw := hhost _ _ _ _ _ _ _ hs.heap.valid.wellFormed hh
  have hargs := hs.visible_of_args hg hr ho hty rfl ha
  refine hn.update hframe fun o obj i hobj hi hl => ?_
  rcases escaped_or g org o with he | ⟨n, hon, hne⟩
  · exact .inr he.holdsNull
  · obtain ⟨-, obj0, hobj0, -⟩ := hs.heap.created o n hon
    by_cases hk : Host.Known m.program holds args s.heap s.host o
    · exact .inr (hs.heap.visible_of_handsOn hs.held hargs hw (.inl hk)).2.holdsNull
    · have hsame := hw.untouched o obj0 hobj0 hk
      obtain rfl := Option.mem_unique hobj hsame
      exact .inl ⟨rfl, hl, obj, hobj0, hi⟩

theorem write (hr : s.Next x rest) (ho : m.body.op? x = some op)
    (hty : s.frame.NullsTyped m.body) {o first vs}
    (he : m.eval s.frame s.heap x op = .ok (.write o first vs)) :
    m.NullSound g org
      { frame := s.frame, rest := some rest
        heap := s.heap.modify o fun obj => { obj with fields := writeSlots obj.fields first vs }
        host := s.host }
      (Effect.pristine m.program s.frame s.heap op l (.write o first vs)) := by
  refine hn.update (fun y hy => .inl hy) fun o' obj i hobj hi hl => ?_
  simp only [Effect.pristine, mem_append, mem_map, mem_filter, Prod.mk.injEq, not_or,
    not_and, decide_eq_true_eq, not_exists] at hl
  change (s.heap.modify o _).get? o' = some obj at hobj
  rw [Heap.get?_modify] at hobj
  split at hobj
  · rename_i heq
    subst heq
    obtain ⟨obj0, hobj0, rfl⟩ := Option.map_eq_some_iff.1 hobj
    simp only [getElem?_writeSlots] at hi
    split at hi
    · rename_i hin
      refine .inr
        (hn.holdsNull_of_write hs hg hr ho hty (acts_of_eval he) hobj0 hin.1 hin.2.2 hi
          fun hcopied => ?_)
      exact hl.1 _ hcopied rfl (by omega)
    · rename_i hout
      refine .inl ⟨rfl, fun hmem => hl.2 hmem fun _ hfirst hlast => hout ⟨hfirst, hlast, ?_⟩, obj0,
        hobj0, hi⟩
      exact (Array.getElem?_eq_some_iff.1 hi).1
  · rename_i hne
    exact .inl ⟨rfl, fun hmem => hl.2 hmem fun h => absurd h hne, obj, hobj, hi⟩

end

theorem step (hs : m.Sound g (origin g log) holds s) (hn : m.NullSound g (origin g log) s l)
    (hg : g.Solved m.program m.body) (hhost : host.Confined m.program holds)
    (hstep : m.Step host s t) (hc : m.Careful g (origin g log) s l)
    (hty : t.frame.NullsTyped m.body) :
    m.NullSound g (origin g ((m.created? s).toList ++ log)) t (m.pristine s l) := by
  cases hstep with
  | enter hr hf =>
    rw [created?, pristine, hr]
    exact hn.enter hs hg hf hty
  | @op x rest op v heap state hr ho hleave hdoes =>
    cases hdoes with
    | plain hcall he =>
      rename_i eff
      rw [created?_of_eval hr ho he, pristine_of_eval hr ho he]
      rcases eff with _ | v | shape | ⟨o, first, vs⟩ | ⟨o, n⟩ | ⟨gl, v⟩
      · exact hn.update_frame (fun o obj hobj => ⟨obj, hobj, rfl⟩) fun y hy => .inl hy
      · refine hn.update_frame (fun o obj hobj => ⟨obj, hobj, rfl⟩) fun y hy => ?_
        rcases SideTable.get?_insert_cases s.frame.values x v hy with ⟨rfl, rfl⟩ | hold
        · exact .inr (hn.mayBeNull_of_value hs hg hr ho hc (hty _ hy) (acts_of_eval he))
        · exact .inl hold
      · refine hn.create hs (fun o hne => ?_) _
        simp only [Option.toList_some, singleton_append, origin_cons, if_neg hne]
      · exact hn.write hs hg hr ho hc.nulls he
      · refine hn.update_frame (fun o' obj hobj => ?_) fun y hy => .inl hy
        change (s.heap.modify o _).get? o' = some obj at hobj
        rw [Heap.get?_modify] at hobj
        split at hobj
        · obtain ⟨obj0, hobj0, rfl⟩ := Option.map_eq_some_iff.1 hobj
          exact ⟨obj0, hobj0, rfl⟩
        · exact ⟨obj, hobj, rfl⟩
      · exact hn.update_frame (fun o obj hobj => ⟨obj, hobj, rfl⟩) fun y hy => .inl hy
    | call ha hh =>
      rw [created?_of_eval hr ho rfl, pristine_of_eval hr ho rfl]
      refine hn.of_call hs hg hhost hr ho hc.disciplined.refs ha hh fun y hy => ?_
      rcases v with _ | v
      · exact .inl hy
      · rcases SideTable.get?_insert_cases s.frame.values x v hy with ⟨rfl, -⟩ | hold
        · refine .inr (mayBeNull_of_seed hs hg hr ?_)
          rw [Graph.seed?, ho]
          exact if_pos (hty _ hy)
        · exact .inl hold
  | caught hr ho hleave ht hterm =>
    rw [created?_of_throws hr ho ht, pristine_of_throws hr ho ht]
    cases ht with
    | plain => exact hn.update_frame (fun o obj hobj => ⟨obj, hobj, rfl⟩) fun y hy => .inl hy
    | call ha hh => exact hn.of_call hs hg hhost hr ho hc.disciplined.refs ha hh fun y hy => .inl hy
  | goTo hr hb =>
    rw [created?, pristine, hr]
    exact hn.update_frame (fun o obj hobj => ⟨obj, hobj, rfl⟩) fun y hy => .inl hy

end NullSound

theorem CarefulTrace.nullSound (hg : g.Solved m.program m.body)
    (hhost : host.Confined m.program holds) (hst : m.StartsIn holds heap state)
    (h : m.CarefulTrace g host (m.start heap state) s log l) :
    m.NullSound g (origin g log) s l := by
  induction h with
  | start =>
    refine ⟨fun x hx => ?_, fun o obj i _ _ _ n hn => ?_⟩
    · simp [Machine.start, SideTable.get?] at hx
    · simp [origin] at hn
  | step h hstep hu ih =>
    exact ih.step (h.trace.sound hg hhost hst).1 hg hhost hstep h.last hu.nulls

/-- An instruction that holds null may be null by its nodes, or has the phantom among them, in every
run that loads none of the nulls that new objects start with, escaping ones apart. -/
theorem nulls_sound {settings settings' : Settings} {changed : Bool} {budget budget' : Budget}
    (hwf : m.body.insts.WellFormed)
    (hg : Metered.Yields ((Graph.ofBody m.program m.body settings).propagate settings') budget
      (g, changed) budget')
    (hhost : host.Confined m.program holds) {heap : Heap} {state : σ}
    (hheap : heap.Valid m.program) (hargs : ∀ o, .ref o ∈ m.args → heap.Live o)
    (hheld : ∀ o, holds state o → heap.Live o)
    (hrun : m.CarefulTrace g host (m.start heap state) s log l)
    (hx : s.frame.values.get? x = some .null) :
    g.mayBeNull x = true ∨ .phantom ∈ g.ptsOf x := by
  have hg := solved_of_propagate hwf hg
  simpa [NodeSet.MayBeNull, mayBeNull] using
    (hrun.nullSound hg hhost ⟨hheap, hargs, hheld⟩).frame x hx

end Careful

/-- Puts null into an array whose first element, null as well, was copied to another array, and
loads it. -/
def clearAndLoad : Machine where
  program := {}
  body :=
    { blocks := .ofEntries
        [{ insts := [⟨0, 1⟩, ⟨1, 1⟩, ⟨2, 1⟩, ⟨3, 1⟩, ⟨4, 1⟩, ⟨5, 1⟩, ⟨6, 1⟩, ⟨7, 1⟩]
           term := .ret none }]
      insts := .ofEntries
        [⟨.const (.int 0), some .int⟩, ⟨.const (.int 1), some .int⟩,
          ⟨.newArray .ref ⟨1, 1⟩, some .ref⟩, ⟨.newArray .ref ⟨1, 1⟩, some .ref⟩,
          ⟨.arrayCopy ⟨2, 1⟩ ⟨0, 1⟩ ⟨3, 1⟩ ⟨0, 1⟩ ⟨1, 1⟩, none⟩, ⟨.const .null, some .ref⟩,
          ⟨.storeElem ⟨2, 1⟩ ⟨0, 1⟩ ⟨5, 1⟩, none⟩, ⟨.loadElem ⟨2, 1⟩ ⟨0, 1⟩, some .ref⟩]
      states := .ofEntries []
      entry := ⟨0, 1⟩
      params := []
      ret := none }
  args := []

/-- The load holds the null that was stored, and only the other array is still pristine. -/
theorem nulls_sound_clearAndLoad :
    ∃ (g : Graph) (s : RunState Unit) (log : List (ObjRef × InstId)),
      clearAndLoad.CarefulTrace g Host.idle (clearAndLoad.start {} ()) s log [(⟨1, 1⟩, 0)] ∧
      s.frame.values.get? ⟨7, 1⟩ = some .null ∧ .phantom ∉ g.ptsOf ⟨7, 1⟩ ∧
      (g.mayBeNull ⟨7, 1⟩ = true ∨ .phantom ∈ g.ptsOf ⟨7, 1⟩) := by
  obtain ⟨g, changed, budget, hg, hpts⟩ := exists_propagated clearAndLoad.program clearAndLoad.body 30
    (P := fun g => .phantom ∉ g.ptsOf ⟨7, 1⟩) (by decide +kernel)
  have t₀ : clearAndLoad.CarefulTrace g Host.idle (clearAndLoad.start {} ()) _ _ _ :=
    .start (careful_of_not_mem (by decide +kernel))
  have t₁ := t₀.step (.enter rfl rfl) (careful_of_not_mem (by decide +kernel))
  have t₂ := t₁.step (.op rfl rfl rfl (.plain rfl rfl)) (careful_of_not_mem (by decide +kernel))
  have t₃ := t₂.step (.op rfl rfl rfl (.plain rfl rfl)) (careful_of_not_mem (by decide +kernel))
  have t₄ := t₃.step (.op rfl rfl rfl (.plain rfl rfl)) (careful_of_not_mem (by decide +kernel))
  have t₅ := t₄.step (.op rfl rfl rfl (.plain rfl rfl)) (careful_of_not_mem (by decide +kernel))
  have t₆ := t₅.step (.op rfl rfl rfl (.plain rfl rfl)) (careful_of_not_mem (by decide +kernel))
  have t₇ := t₆.step (.op rfl rfl rfl (.plain rfl rfl)) (careful_of_not_mem (by decide +kernel))
  have t₈ := t₇.step (.op rfl rfl rfl (.plain rfl rfl)) (careful_of_not_mem (by decide +kernel))
  have t₉ := t₈.step (.op rfl rfl rfl (.plain rfl rfl)) (careful_of_not_mem (by decide +kernel))
  refine ⟨g, _, _, t₉, by decide +kernel, by simpa using hpts, ?_⟩
  exact nulls_sound (.ofEntries _) hg (Host.confined_idle _) (Heap.valid_empty _)
    (by simp [clearAndLoad]) (fun _ h => h.elim) t₉ (by decide +kernel)

def loadFirstLink : Machine where
  program := nodes
  body :=
    { blocks := .ofEntries [{ insts := [⟨0, 1⟩, ⟨1, 1⟩], term := .ret (some ⟨1, 1⟩) }]
      insts := .ofEntries [⟨.new ⟨0, 1⟩, some .ref⟩, ⟨.loadField ⟨0, 1⟩ ⟨0, 1⟩, some .ref⟩]
      states := .ofEntries []
      entry := ⟨0, 1⟩
      params := []
      ret := some .ref }
  args := []

/-- The null that the link of a new node starts with is not accounted for. -/
theorem nulls_unsound_loadFirstLink :
    loadFirstLink.body.check loadFirstLink.program = .ok () ∧
    ∃ (g : Graph) (changed : Bool) (budget : Budget) (s : RunState Unit)
      (log : List (ObjRef × InstId)),
      Metered.Yields ((Graph.ofBody loadFirstLink.program loadFirstLink.body {}).propagate {})
        { limit := 30 } (g, changed) budget ∧
      loadFirstLink.Trace Host.idle
        (fun s => loadFirstLink.Disciplined s ∧ s.frame.NullsTyped loadFirstLink.body)
        (loadFirstLink.start {} ()) s log ∧
      loadFirstLink.body.isRef ⟨1, 1⟩ = true ∧ s.frame.values.get? ⟨1, 1⟩ = some .null ∧
      ¬ (g.mayBeNull ⟨1, 1⟩ = true ∨ .phantom ∈ g.ptsOf ⟨1, 1⟩) := by
  obtain ⟨g, changed, budget, hg, hpts⟩ :=
    exists_propagated loadFirstLink.program loadFirstLink.body 30
      (P := fun g => ¬ (g.mayBeNull ⟨1, 1⟩ = true ∨ .phantom ∈ g.ptsOf ⟨1, 1⟩)) (by decide +kernel)
  have typed : ∀ s : RunState Unit, loadFirstLink.Disciplined s ∧
      (∀ e ∈ s.frame.values.toList, e.2 = .null → loadFirstLink.body.isRef e.1 = true) →
      loadFirstLink.Disciplined s ∧ s.frame.NullsTyped loadFirstLink.body :=
    fun s h => ⟨h.1, Frame.nullsTyped_iff.2 h.2⟩
  have t₀ : loadFirstLink.Trace Host.idle
      (fun s => loadFirstLink.Disciplined s ∧ s.frame.NullsTyped loadFirstLink.body)
      (loadFirstLink.start {} ()) _ _ := .start (typed _ (by decide +kernel))
  have t₁ := t₀.step (.enter rfl rfl) (typed _ (by decide +kernel))
  have t₂ := t₁.step (.op rfl rfl rfl (.plain rfl rfl)) (typed _ (by decide +kernel))
  have t₃ := t₂.step (.op rfl rfl rfl (.plain rfl rfl)) (typed _ (by decide +kernel))
  exact ⟨by cbv, g, changed, budget, _, _, hg, t₃, by decide +kernel, by decide +kernel,
    by simpa using hpts⟩

end Machine

end EscapeAnalysis
