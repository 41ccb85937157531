import EscapeAnalysis.Proofs.Conformance
import EscapeAnalysis.Proofs.Evaluation
import EscapeAnalysis.Proofs.Checking

/-!
# Soundness of the points-to graph

Along every run, what an instruction refers to is covered by the nodes the graph gives it, and what
leaves the method escapes (`Machine.Sound`). One lemma per effect shows that a step keeps this.
-/

namespace EscapeAnalysis

open List

/-- Only instructions of reference type hold references. -/
def Frame.RefsTyped (body : Body) (f : Frame) : Prop :=
  ∀ x o, f.values.get? x = some (.ref o) → body.isRef x = true

theorem eq_of_getElem?_singleton {first i : Nat} {v w : Value} (hfirst : first ≤ i)
    (h : [v][i - first]? = some w) : i = first ∧ v = w := by
  rw [List.getElem?_singleton] at h
  split at h
  · exact ⟨by omega, Option.some.inj h⟩
  · cases h

namespace Machine

variable {σ : Type}

/-- A state that respects types: only instructions of reference type hold references, and elements
are loaded from arrays only. -/
structure Disciplined (m : Machine) (s : RunState σ) : Prop where
  refs : s.frame.RefsTyped m.body
  arrays : ∀ x rest array index o obj, s.rest = some (x :: rest) →
    m.body.op? x = some (.loadElem array index) → s.frame.values.get? array = some (.ref o) →
    s.heap.get? o = some obj → obj.elem?.isSome

/-- Whether the next instruction loads an element of something that is no array. -/
def elementOfInstance (m : Machine) (s : RunState σ) : Bool :=
  match s.rest with
  | some (x :: _) =>
    match m.body.op? x with
    | some (.loadElem array _) =>
      match s.frame.values.get? array with
      | some (.ref o) => (s.heap.get? o).any fun obj => obj.elem?.isNone
      | _ => false
    | _ => false
  | _ => false

theorem disciplined_iff {m : Machine} {s : RunState σ} : m.Disciplined s ↔
    (∀ e ∈ s.frame.values.toList, (match e.2 with
      | .ref _ => m.body.isRef e.1
      | _ => true) = true) ∧ m.elementOfInstance s = false := by
  constructor
  · intro h
    refine ⟨fun ⟨x, v⟩ he => ?_, ?_⟩
    · rw [SideTable.mem_toList_iff] at he
      cases v with
      | ref o => exact h.refs x o he
      | _ => rfl
    · rw [elementOfInstance]
      split
      · split
        · split
          · rename_i o hv
            rcases hobj : s.heap.get? o with _ | obj
            · rfl
            · have := h.arrays _ _ _ _ _ _ (by assumption) (by assumption) hv hobj
              simpa using this
          · rfl
        · rfl
      · rfl
  · rintro ⟨hrefs, harr⟩
    refine ⟨fun x o hx => hrefs _ (SideTable.mem_toList_iff.2 hx),
      fun x rest array index o obj hr ho hv hobj => ?_⟩
    rw [elementOfInstance, hr] at harr
    simpa [ho, hv, hobj, ← Option.isSome_iff_ne_none] using harr

instance (m : Machine) (s : RunState σ) : Decidable (m.Disciplined s) :=
  decidable_of_iff' _ disciplined_iff

/-- Everything that a run refers to is accounted for by the graph: `org` gives the allocation that
an object comes from, and `holds` what the host refers to. -/
structure Sound (m : Machine) (g : Graph) (org : ObjRef → Option Nat) (holds : σ → ObjRef → Prop)
    (s : RunState σ) : Prop where
  located : m.Located s
  heap : g.SoundHeap m.program org s.heap
  consts : ∀ x c v, m.body.const? x = some c → s.frame.values.get? x = some v → v = c.toValue
  frame : ∀ x o, s.frame.values.get? x = some (.ref o) →
    s.heap.Live o ∧ g.Covered org (g.ptsOf x) o
  args : ∀ o, .ref o ∈ m.args → g.Visible org s.heap o
  exception : ∀ o, s.frame.exception = some (.object (.ref o)) → g.Visible org s.heap o
  held : ∀ o, holds s.host o → g.Visible org s.heap o

namespace Sound

variable {m : Machine} {host : Host σ} {g : Graph} {org : ObjRef → Option Nat}
  {holds : σ → ObjRef → Prop} {s t : RunState σ} {x : InstId} {rest : List InstId} {op : Op}
  {o : ObjRef}

section

variable (hs : m.Sound g org holds s) (hg : g.Solved m.program m.body) (hr : s.Next x rest)
include hs hg hr

theorem accounts : g.Accounts m.program m.body x :=
  let ⟨hb, hx⟩ := hs.located.mem_insts hr
  hg.read.insts _ hb x hx

theorem satisfied_of_mem {c} (hc : c ∈ Graph.constraintsOf m.program m.body x) :
    g.Satisfied g.facts c :=
  hg.closed.satisfied c ((hs.accounts hg hr).constraints c hc)

end

theorem mayBe (hs : m.Sound g org holds s) {n} (hx : s.frame.values.get? x = some (.int n))
    (hpos : 0 ≤ n.toInt) : m.body.MayBe x n.toInt.toNat := by
  intro c hc
  have hv := hs.consts x c _ hc hx
  cases c <;> simp only [Const.toValue, Value.int.injEq, reduceCtorEq] at hv
  subst hv
  simp [Const.toNat?, Const.toInt?, hpos]

theorem covered_of_phantom (hx : .phantom ∈ g.ptsOf x) (hv : g.Visible org s.heap o) :
    s.heap.Live o ∧ g.Covered org (g.ptsOf x) o := ⟨hv.1, hv.2.covered hx⟩

section Slots

variable (hs : m.Sound g org holds s) {touches : Shape → Nat → Prop} {o' : ObjRef}
variable {base : InstId} {obj : Object} {i : Nat}
include hs

theorem exists_touched (touches : Shape → Nat → Prop)
    (hbase : s.frame.values.get? base = some (.ref o)) (hobj : s.heap.get? o = some obj)
    (ht : touches obj.shape i) (hi : i < obj.fields.size) :
    ∃ b ∈ g.ptsOf base, g.Stands org o b ∧ g.Touched m.program touches i b := by
  obtain ⟨b, hb, hstands⟩ := (hs.frame base o hbase).2
  exact ⟨b, hb, hstands,
    Graph.touched_of_stands hs.heap.bound hstands (hs.heap.describes hobj hi) ht⟩

theorem covered_of_slot (hl : g.Loads m.program touches x base) {o0}
    (hbase : s.frame.values.get? base = some (.ref o0)) (hobj : s.heap.get? o0 = some obj)
    (hi : obj.fields[i]? = some (.ref o)) (ht : touches obj.shape i) :
    s.heap.Live o ∧ g.Covered org (g.ptsOf x) o := by
  obtain ⟨b, hb, hstands, htouched⟩ :=
    hs.exists_touched touches hbase hobj ht (Array.getElem?_eq_some_iff.1 hi).1
  exact ⟨hs.heap.valid.fields o0 obj o hobj (Array.mem_of_getElem? hi),
    (Graph.covered_found hstands (hs.heap.holds o0 obj i o hobj hi)).sub (hl b hb i htouched)⟩

theorem holds_of_stored {value} (hst : g.Stores m.program touches base value)
    (hbase : s.frame.values.get? base = some (.ref o)) (hobj : s.heap.get? o = some obj)
    (hv : s.frame.values.get? value = some (.ref o')) (ht : touches obj.shape i)
    (hi : i < obj.fields.size) : s.heap.Live o' ∧ g.Holds m.program org o i o' := by
  obtain ⟨b, hb, hstands, htouched⟩ := hs.exists_touched touches hbase hobj ht hi
  exact ⟨(hs.frame value o' hv).1,
    Graph.holds_of_admits hs.heap.bound hstands (hst b hb i htouched) (hs.frame value o' hv).2⟩

theorem holds_of_copied {src srcPos dst dstPos len}
    (hcopy : g.Copies m.program m.body src srcPos dst dstPos len) {o1 o2 source dest j k l}
    (hsrc : s.frame.values.get? src = some (.ref o1))
    (hdst : s.frame.values.get? dst = some (.ref o2)) (hi : m.body.MayBe srcPos i)
    (hj : m.body.MayBe dstPos j) (hl : m.body.MayBe len l) (hk : k < l)
    (hsource : s.heap.get? o1 = some source) (hdest : s.heap.get? o2 = some dest)
    (harr : source.elem?.isSome) (harr' : dest.elem?.isSome)
    (hv : source.fields[i + k]? = some (.ref o')) (hlt : j + k < dest.fields.size) :
    s.heap.Live o' ∧ g.Holds m.program org o2 (j + k) o' := by
  obtain ⟨b, hb, hstands, htouched⟩ := hs.exists_touched (Access.allElems.Touches m.program) hsrc
    hsource harr (Array.getElem?_eq_some_iff.1 hv).1
  obtain ⟨d, hd, hstands', htouched'⟩ := hs.exists_touched (Access.allElems.Touches m.program) hdst
    hdest harr' hlt
  refine ⟨hs.heap.valid.fields _ _ _ hsource (Array.mem_of_getElem? hv), ?_⟩
  exact Graph.holds_of_admits hs.heap.bound hstands'
    (hcopy b hb d hd i j k l hi hj hl hk htouched htouched')
    (Graph.covered_found hstands (hs.heap.holds _ _ _ _ hsource hv))

end Slots

section

variable (hs : m.Sound g org holds s)
include hs

section Call

variable (hg : g.Solved m.program m.body) (hr : s.Next x rest) (ho : m.body.op? x = some op)
  (hty : s.frame.RefsTyped m.body) {c : Call} (hop : op = .call c)
include hg hr ho hty hop

theorem visible_of_arg {arg} (harg : arg ∈ c.args)
    (hv : s.frame.values.get? arg = some (.ref o)) : g.Visible org s.heap o := by
  subst hop
  obtain ⟨hb, hx⟩ := hs.located.mem_insts hr
  obtain ⟨i, hi⟩ := mem_iff_getElem?.1 harg
  have hsink := hg.sinks _ hb x hx c ho i arg hi (hty arg o hv)
  obtain ⟨hlive, hcov⟩ := hs.frame arg o hv
  refine ⟨hlive, ?_⟩
  cases heff : (m.program.callee c.callee).argEffect i <;> rw [heff] at hsink
  · exact hcov.escaped_of_lost hs.heap.bound hsink
  · exact hcov.escaped fun k hk hok => hsink k hk (hs.heap.bound o k hok)

theorem visible_of_args {args} (ha : c.args.mapM s.frame.get = .ok args) (o : ObjRef)
    (hmem : .ref o ∈ args) : g.Visible org s.heap o := by
  have hsome : some (.ref o) ∈ c.args.map s.frame.values.get? :=
    mapM_get_eq_ok.1 ha ▸ mem_map_of_mem hmem
  obtain ⟨arg, harg, hv⟩ := mem_map.1 hsome
  exact hs.visible_of_arg hg hr ho hty hop harg hv

end Call

/-- What has to be shown of a state after a step: the heap is sound, every value is an old one or
covered, and so are the exception and what the host holds. -/
theorem update {org'} (hl : m.Located t)
    (hext : Graph.Extends s.heap org t.heap org') (hheap : g.SoundHeap m.program org' t.heap)
    (hframe : ∀ y v, t.frame.values.get? y = some v → s.frame.values.get? y = some v ∨
      (∀ c, m.body.const? y = some c → v = c.toValue) ∧
        ∀ o, v = .ref o → t.heap.Live o ∧ g.Covered org' (g.ptsOf y) o)
    (hexc : ∀ o, t.frame.exception = some (.object (.ref o)) →
      s.frame.exception = some (.object (.ref o)) ∨ g.Visible org' t.heap o)
    (hheld : ∀ o, holds t.host o → g.Visible org' t.heap o) : m.Sound g org' holds t := by
  refine ⟨hl, hheap, fun y c v hc hv => ?_, fun y o hv => ?_,
    fun o ho => hext.visible (hs.args o ho), fun o ho => ?_, hheld⟩
  · rcases hframe y v hv with hold | ⟨hnew, -⟩
    · exact hs.consts y c v hc hold
    · exact hnew c hc
  · rcases hframe y _ hv with hold | ⟨-, hnew⟩
    · obtain ⟨hlive, hcov⟩ := hs.frame y o hold
      exact ⟨(hext o hlive).1, (hext.covered hlive).2 hcov⟩
    · exact hnew o rfl
  · rcases hexc o ho with hold | hnew
    · exact hext.visible (hs.exception o hold)
    · exact hnew

theorem update_heap (hl : m.Located t)
    (hext : Graph.Extends s.heap org t.heap org) (hheap : g.SoundHeap m.program org t.heap)
    (hvalues : t.frame.values = s.frame.values) (hexc : t.frame.exception = s.frame.exception)
    (hhost : t.host = s.host) : m.Sound g org holds t :=
  hs.update hl hext hheap (fun _ _ h => .inl (hvalues ▸ h)) (fun _ h => .inl (hexc ▸ h))
    fun o h => hext.visible (hs.held o (hhost ▸ h))

theorem enter (hg : g.Upholds m.program m.body) {frame} (hf : m.Enters s frame)
    (hty : frame.RefsTyped m.body) (hl : m.Located (m.inside s frame)) :
    m.Sound g org holds (m.inside s frame) := by
  obtain ⟨incoming, hphis, hin, rfl⟩ := enterPhis_spec hf
  refine hs.update hl (fun o ho => ⟨ho, rfl⟩) hs.heap (fun x v hv => ?_) (fun _ h => .inl h) hs.held
  rcases SideTable.mem_of_get?_foldl_insert hv with hmem | hold
  · obtain ⟨pred, -, hinput⟩ := hin _ hmem
    obtain ⟨inputs, y, hop, hfind, hy⟩ := phiInput_eq_ok.1 hinput
    refine .inr ⟨fun c hc => ?_, fun o ho => ?_⟩
    · simp [Body.const?, hop, Op.toConst?] at hc
    · subst ho
      obtain ⟨hlive, hcov⟩ := hs.frame y o hy
      have hx : x ∈ (m.body.block s.frame.block).insts :=
        Body.mem_insts_of_mem_phis (hphis ▸ mem_map_of_mem hmem)
      have hc : m.body.isRef x = true → ∀ e ∈ inputs, (g.ptsOf e.2).Sub (g.ptsOf x) :=
        hg.insts _ (hs.located.mem_order_of_mem hx) x hx _ hop
      have hsub := hc (hty x o hv) _ (mem_of_find?_eq_some hfind)
      exact ⟨hlive, hcov.sub hsub⟩
  · exact .inl hold

end

theorem eq_toValue_of_eval {f h eff v c} (ho : m.body.op? x = some op)
    (he : m.eval f h x op = .ok eff) (hv : (eff.apply m.program h).1 = some v)
    (hc : m.body.const? x = some c) : v = c.toValue := by
  rw [Body.const?, ho, Option.bind_some] at hc
  cases op <;> simp only [Op.toConst?, Option.some.injEq, reduceCtorEq] at hc
  subst hc
  cases he
  exact (Option.some.inj hv).symm

section Effects

variable (hs : m.Sound g org holds s) (hg : g.Upholds m.program m.body)
  (hr : s.Next x rest) (ho : m.body.op? x = some op)
include hs hg hr ho

theorem conforms : g.Conforms m.program m.body x op :=
  let ⟨hb, hx⟩ := hs.located.mem_insts hr
  hg.insts _ hb x hx op ho

theorem covered_of_value (hd : m.Disciplined s) (hx : m.body.isRef x = true)
    (ha : Acts m s.frame s.heap op (.value (.ref o))) :
    s.heap.Live o ∧ g.Covered org (g.ptsOf x) o := by
  have hc := hs.conforms hg hr ho
  generalize he : Effect.value (.ref o) = eff at ha
  cases ha with
  | none | new | newArray | storeField | storeElem | rawStore | arrayCopy | arrayFill
  | storeGlobal | monitorEnter | monitorExit => cases he
  | plain hv _ =>
    cases he
    exact absurd rfl (hv o)
  | param hv =>
    cases he
    exact covered_of_phantom (hc hx) (hs.args o (mem_of_getElem? hv))
  | loadField hbase hobj hshape hidx hv =>
    cases he
    exact hs.covered_of_slot (hc hx) hbase hobj hv ⟨_, hshape, Program.layout_of_fieldIndex? hidx⟩
  | loadElem hbase hobj hn hv hpos =>
    cases he
    exact hs.covered_of_slot (hc hx) hbase hobj hv
      ⟨hd.arrays _ _ _ _ _ _ hr ho hbase hobj, hs.mayBe hn hpos⟩
  | loadGlobal gl =>
    have hgl : s.heap.InGlobals m.program o := ⟨gl, (Effect.value.inj he).symm⟩
    exact covered_of_phantom (hc hx) (hs.heap.visible_of_inGlobals hgl)
  | checkCast hv =>
    cases he
    obtain ⟨hlive, hcov⟩ := hs.frame _ o hv
    exact ⟨hlive, hcov.sub (hc hx)⟩
  | exception ht =>
    rename_i t
    have hcaught : t.caught = .ref o := (Effect.value.inj he).symm
    cases t <;> simp only [Thrown.caught, reduceCtorEq] at hcaught
    subst hcaught
    exact covered_of_phantom (hc hx) (hs.exception o ht)

theorem holds_of_write (hty : s.frame.RefsTyped m.body) {first : Nat} {vs : List Value}
    (ha : Acts m s.frame s.heap op (.write o first vs)) {obj} (hobj : s.heap.get? o = some obj)
    {i o'} (hfirst : first ≤ i) (hi : i < obj.fields.size) (hv : vs[i - first]? = some (.ref o')) :
    s.heap.Live o' ∧ g.Holds m.program org o i o' := by
  have hc := hs.conforms hg hr ho
  cases ha with
  | storeField hbase hval hob hshape hidx =>
    cases hobj.symm.trans hob
    obtain ⟨rfl, hw⟩ := eq_of_getElem?_singleton hfirst hv
    rw [Value.narrow_eq_ref] at hw
    subst hw
    exact hs.holds_of_stored (hc (hty _ _ hval)) hbase hobj hval
      ⟨_, hshape, Program.layout_of_fieldIndex? hidx⟩ hi
  | storeElem hbase hn hob helem hval hpos =>
    cases hobj.symm.trans hob
    obtain ⟨rfl, hw⟩ := eq_of_getElem?_singleton hfirst hv
    rw [Value.narrow_eq_ref] at hw
    subst hw
    exact hs.holds_of_stored (hc (hty _ _ hval)) hbase hobj hval
      ⟨Option.isSome_of_eq_some helem, hs.mayBe hn hpos⟩ hi
  | rawStore =>
    exact absurd rfl ((plain_of_mem_rawElements (mem_of_getElem? hv)).2 o')
  | arrayFill hbase hval hob helem =>
    cases hobj.symm.trans hob
    have hw := (eq_of_mem_replicate (mem_of_getElem? hv)).symm
    rw [Value.narrow_eq_ref] at hw
    subst hw
    exact hs.holds_of_stored (hc (hty _ _ hval)) hbase hobj hval (Option.isSome_of_eq_some helem) hi
  | arrayCopy hsrc hdst hpos hpos' hlen hsource hdest helem hin =>
    cases hobj.symm.trans hdest
    obtain ⟨k, rfl⟩ := Nat.exists_eq_add_of_le hfirst
    rw [Nat.add_sub_cancel_left, List.getElem?_take] at hv
    split at hv
    · rename_i hk
      rw [List.getElem?_drop, Array.getElem?_toList] at hv
      exact hs.holds_of_copied hc hsrc hdst (hs.mayBe hpos hin.1) (hs.mayBe hpos' hin.2.1)
        (hs.mayBe hlen hin.2.2) hk hsource hobj helem.1 (helem.2 ▸ helem.1) hv hi
    · cases hv

theorem visible_of_setGlobal (hty : s.frame.RefsTyped m.body) {gl}
    (ha : Acts m s.frame s.heap op (.setGlobal gl (.ref o))) : g.Visible org s.heap o := by
  have hc := hs.conforms hg hr ho
  generalize he : Effect.setGlobal gl (.ref o) = eff at ha
  cases ha with
  | storeGlobal hv =>
    rename_i value v
    have hw : v = .ref o := Value.narrow_eq_ref.1 (Effect.setGlobal.inj he).2.symm
    subst hw
    obtain ⟨hlive, hcov⟩ := hs.frame value o hv
    exact ⟨hlive, hcov.escaped_of_lost hs.heap.bound (hc (hty _ _ hv))⟩
  | _ => cases he

theorem exists_node_of_alloc {shape} (ha : Acts m s.frame s.heap op (.alloc shape)) :
    g.Numbers x shape := by
  have hc := hs.conforms hg hr ho
  cases ha with
  | new cls => exact hc
  | newArray hlen hpos => exact hc _ (hs.mayBe hlen hpos)

theorem create {shape : Shape} (he : m.eval s.frame s.heap x op = .ok (.alloc shape))
    (hl : m.Located
      { frame := s.frame.set x (.ref (s.heap.alloc m.program shape).1), rest := some rest
        heap := { (s.heap.alloc m.program shape).2 with
          allocations := (s.heap.alloc m.program shape).2.allocations + 1 }
        host := s.host }) :
    m.Sound g
      (fun o => if o = (s.heap.alloc m.program shape).1 then g.allocOf.get? x else org o) holds
      { frame := s.frame.set x (.ref (s.heap.alloc m.program shape).1), rest := some rest
        heap := { (s.heap.alloc m.program shape).2 with
          allocations := (s.heap.alloc m.program shape).2.allocations + 1 }
        host := s.host } := by
  obtain ⟨n, hn, hlt, hmem, hd⟩ := hs.exists_node_of_alloc hg hr ho (acts_of_eval he)
  obtain ⟨hheap, hext⟩ := hs.heap.alloc hlt hd
  rw [hn]
  refine hs.update hl hext
    ⟨⟨hheap.valid.wellFormed, hheap.valid.fields, hheap.valid.globals⟩, hheap.created,
      hheap.globals, hheap.holds⟩ (fun y v hv => ?_) (fun _ h => .inl h)
    fun o h => hext.visible (hs.held o h)
  rcases SideTable.get?_insert_cases s.frame.values x _ hv with ⟨rfl, rfl⟩ | hold
  · refine .inr ⟨fun c hc => eq_toValue_of_eval ho he rfl hc, fun o ho => ?_⟩
    cases ho
    obtain ⟨obj, hobj⟩ : (s.heap.alloc m.program shape).2.Live (s.heap.alloc m.program shape).1 :=
      ⟨_, by rw [Heap.get?_alloc hs.heap.valid.wellFormed, if_pos rfl]⟩
    refine ⟨⟨obj, hobj⟩, .alloc n, hmem, ?_⟩
    rw [Graph.Stands, if_pos rfl]
    exact .inl rfl
  · exact .inl hold

theorem write (hty : s.frame.RefsTyped m.body) {first vs}
    (he : m.eval s.frame s.heap x op = .ok (.write o first vs)) :
    g.SoundHeap m.program org
      (s.heap.modify o fun obj => { obj with fields := writeSlots obj.fields first vs }) := by
  refine hs.heap.modify (fun obj => ⟨rfl, size_writeSlots _ _ _⟩) fun obj i o' hobj hi => ?_
  rw [getElem?_writeSlots] at hi
  split at hi
  · rename_i hin
    exact .inr (hs.holds_of_write hg hr ho hty (acts_of_eval he) hobj hin.1 hin.2.2 hi)
  · exact .inl hi

theorem effect (hd : m.Disciplined s) {eff : Effect}
    (he : m.eval s.frame s.heap x op = .ok eff) (hne : ∀ shape, eff ≠ .alloc shape)
    (hty' : (s.frame.setResult x (eff.apply m.program s.heap).1).RefsTyped m.body)
    (hl : m.Located
      { frame := s.frame.setResult x (eff.apply m.program s.heap).1, rest := some rest
        heap := (eff.apply m.program s.heap).2, host := s.host }) :
    m.Sound g org holds
      { frame := s.frame.setResult x (eff.apply m.program s.heap).1, rest := some rest
        heap := (eff.apply m.program s.heap).2, host := s.host } := by
  have hsame : Graph.Extends s.heap org s.heap org := fun o ho => ⟨ho, rfl⟩
  have hmodify : ∀ o f, Graph.Extends s.heap org (s.heap.modify o f) org := by
    rintro o f o' ⟨obj, hobj⟩
    refine ⟨?_, rfl⟩
    rw [Heap.Live, Heap.get?_modify, hobj]
    split <;> exact ⟨_, rfl⟩
  rcases eff with _ | v | shape | ⟨o, first, vs⟩ | ⟨o, n⟩ | ⟨gl, v⟩
  · exact hs.update_heap hl hsame hs.heap rfl rfl rfl
  · refine hs.update hl hsame hs.heap (fun y w hw => ?_) (fun _ h => .inl h) hs.held
    rcases SideTable.get?_insert_cases s.frame.values x v hw with ⟨rfl, rfl⟩ | hold
    · refine .inr ⟨fun c hc => eq_toValue_of_eval ho he rfl hc, fun o hv => ?_⟩
      subst hv
      exact hs.covered_of_value hg hr ho hd (hty' _ o hw) (acts_of_eval he)
    · exact .inl hold
  · exact absurd rfl (hne shape)
  · exact hs.update_heap hl (hmodify o _) (hs.write hg hr ho hd.refs he) rfl rfl rfl
  · refine hs.update_heap hl (hmodify o _) ?_ rfl rfl rfl
    exact hs.heap.modify (fun obj => ⟨rfl, rfl⟩) fun obj i o' _ hi => .inl hi
  · refine hs.update_heap hl hsame (hs.heap.setGlobal fun o hv => ?_) rfl rfl rfl
    subst hv
    exact hs.visible_of_setGlobal hg hr ho hd.refs (acts_of_eval he)

end Effects

/-- What a call of the next instruction leaves behind is accounted for: the heap, what the host then
holds, and the reply. -/
def CallKept (m : Machine) (host : Host σ) (g : Graph) (org : ObjRef → Option Nat)
    (holds : σ → ObjRef → Prop) (s : RunState σ) : Prop :=
  ∀ x rest c args reply heap state, s.rest = some (x :: rest) → m.body.op? x = some (.call c) →
    c.args.mapM s.frame.get = .ok args →
    host.call m.program c.callee args s.heap s.host = .ok (reply, heap, state) →
    g.SoundHeap m.program org heap ∧ Graph.Extends s.heap org heap org ∧
      (∀ o, holds state o → g.Visible org heap o) ∧
      ∀ o, reply.value? = some (.ref o) → g.Visible org heap o

/-- A call whose arguments escape, to a host that stays within its reach. -/
theorem callKept (hs : m.Sound g org holds s) (hg : g.Solved m.program m.body)
    (hhost : host.Confined m.program holds) (hty : s.frame.RefsTyped m.body) :
    CallKept m host g org holds s := by
  intro x rest c args reply heap state hr ho ha hh
  have hw := hhost _ _ _ _ _ _ _ hs.heap.valid.wellFormed hh
  have hargs := hs.visible_of_args hg hr ho hty rfl ha
  obtain ⟨hheap, hext⟩ := hs.heap.call hs.held hargs hw
  exact ⟨hheap, hext,
    fun o h => hs.heap.visible_of_handsOn hs.held hargs hw (hw.held o h),
    fun o h => hs.heap.visible_of_handsOn hs.held hargs hw (hw.reply o h)⟩

theorem throws (hs : m.Sound g org holds s) (hcall : CallKept m host g org holds s)
    (hr : s.Next x rest) (ho : m.body.op? x = some op) {t heap state}
    (ht : m.Throws host s x op t heap state) :
    g.SoundHeap m.program org heap ∧ Graph.Extends s.heap org heap org ∧
      (∀ o, holds state o → g.Visible org heap o) ∧
      ∀ o, t = .object (.ref o) → g.Visible org heap o := by
  cases ht with
  | plain hc he =>
    refine ⟨hs.heap, fun o ho => ⟨ho, rfl⟩, hs.held, fun o ho => ?_⟩
    subst ho
    cases stops_of_eval he with
    | thrown ht => exact absurd rfl (ht _)
  | @call c args v heap state ha hh =>
    obtain ⟨hheap, hext, hheld, hreply⟩ := hcall _ _ _ _ _ _ _ hr ho ha hh
    refine ⟨hheap, hext, hheld, fun o hv => hreply o ?_⟩
    cases v <;> simp only [Thrown.ofValue, Thrown.object.injEq, reduceCtorEq] at hv
    exact congrArg some hv

end Sound

/-- The object that the next operation creates, with its allocation. -/
def created? (m : Machine) (s : RunState σ) : Option (ObjRef × InstId) :=
  match s.rest with
  | some (x :: _) =>
    match (m.body.op? x).map (m.eval s.frame s.heap x) with
    | some (.ok (.alloc shape)) => some ((s.heap.alloc m.program shape).1, x)
    | _ => none
  | _ => none

/-- A run through states with property `P`, with a log of the objects it creates, the latest
first. -/
inductive Trace (m : Machine) (host : Host σ) (P : RunState σ → Prop) (s : RunState σ) :
    RunState σ → List (ObjRef × InstId) → Prop
  | start (h : P s) : Trace m host P s s []
  | step {t u : RunState σ} {log} (h : Trace m host P s t log) (hs : m.Step host t u) (hu : P u) :
      Trace m host P s u ((m.created? t).toList ++ log)

/-- The state after `n` units of work in one block, with the objects they create put in front of
`log`, if the states on the way respect types. -/
def follow? (m : Machine) (host : Host σ) :
    Nat → RunState σ → List (ObjRef × InstId) → Option (RunState σ × List (ObjRef × InstId))
  | 0, s, log => some (s, log)
  | n + 1, s, log =>
    match m.tick host s with
    | .ok (.running t) =>
      if t.rest.isSome ∧ m.Disciplined t then m.follow? host n t ((m.created? s).toList ++ log)
      else none
    | _ => none

/-- The allocation that an object in the log comes from. -/
def origin (g : Graph) (log : List (ObjRef × InstId)) (o : ObjRef) : Option Nat :=
  (log.lookup o).bind g.allocOf.get?

section Log

variable {m : Machine} {host : Host σ} {g : Graph} {holds : σ → ObjRef → Prop} {s t : RunState σ}
  {log : List (ObjRef × InstId)} {o : ObjRef} {rest : List InstId}
variable {P : RunState σ → Prop} {x : InstId}

theorem Trace.last (h : m.Trace host P s t log) : P t := by
  cases h with
  | start h => exact h
  | step _ _ hu => exact hu

theorem Steps.exists_trace (h : m.Steps host s t)
    (hP : ∀ u, m.Steps host s u → P u) : ∃ log, m.Trace host P s t log := by
  induction h with
  | refl => exact ⟨[], .start (hP s (.refl s))⟩
  | @tail t u h hstep ih =>
    obtain ⟨log, htrace⟩ := ih
    exact ⟨_, htrace.step hstep (hP u (h.tail hstep))⟩

theorem Trace.steps (h : m.Trace host P s t log) : m.Steps host s t := by
  induction h with
  | start => exact .refl s
  | step _ hstep _ ih => exact ih.tail hstep

theorem Trace.follow? {u log' n} (h : m.Trace host m.Disciplined s t log)
    (hf : m.follow? host n t log = some (u, log')) : m.Trace host m.Disciplined s u log' := by
  induction n generalizing t log with
  | zero =>
    cases hf
    exact h
  | succ n ih =>
    rw [Machine.follow?] at hf
    split at hf
    · rename_i t' htick
      split at hf
      · rename_i ht'
        refine ih (h.step ?_ ht'.2) hf
        rcases m.tick_spec host t with ⟨t1, hs, heq | ⟨hr, heq⟩⟩ | ⟨_, _, _, -, heq⟩ | ⟨_, -, heq⟩
        · cases htick.symm.trans heq
          exact hs
        · -- the terminator leads to a block that is still to be entered
          rcases m.finishBlock_spec host hr with ⟨b, -, hb⟩ | ⟨_, _, _, -, hb⟩ | ⟨_, -, hb⟩ <;>
            cases htick.symm.trans (heq.trans hb)
          exact absurd ht'.1 (by simp)
        all_goals cases htick.symm.trans heq
      · cases hf
    · cases hf

/-- Units of work that lead to a state which passes a test make up a run to such a state. -/
theorem exists_trace_of_follow? (host : Host σ) (n : Nat)
    (P : RunState σ × List (ObjRef × InstId) → Bool) (hs : m.Disciplined s)
    (h : (m.follow? host n s []).any P = true) :
    ∃ t log, m.Trace host m.Disciplined s t log ∧ P (t, log) = true := by
  obtain ⟨⟨t, log⟩, hf, hP⟩ := (Option.any_eq_true ..).1 h
  exact ⟨t, log, (Trace.start hs).follow? hf, hP⟩

theorem mem_of_origin {n} (h : origin g log o = some n) : ∃ x, (o, x) ∈ log := by
  obtain ⟨x, hx, -⟩ := Option.bind_eq_some_iff.1 h
  obtain ⟨l1, l2, rfl, -⟩ := lookup_eq_some_iff.1 hx
  exact ⟨x, by simp⟩

theorem origin_cons (g : Graph) (o : ObjRef) (x : InstId) (log : List (ObjRef × InstId)) :
    origin g ((o, x) :: log) = fun o' => if o' = o then g.allocOf.get? x else origin g log o' := by
  funext o'
  rw [origin, lookup_cons]
  by_cases h : o' = o
  · simp [h]
  · simp only [beq_eq_false_iff_ne.2 h, h, if_false, origin]

theorem created?_of_eval {op eff} (hr : s.Next x rest) (ho : m.body.op? x = some op)
    (he : m.eval s.frame s.heap x op = .ok eff) : m.created? s =
      match eff with
      | .alloc shape => some ((s.heap.alloc m.program shape).1, x)
      | _ => none := by
  rw [created?, hr]
  simp only [ho, Option.map_some, he]
  cases eff <;> rfl

theorem eval_of_created? (h : m.created? s = some (o, x)) :
    ∃ rest op shape, s.Next x rest ∧ m.body.op? x = some op ∧
      m.eval s.frame s.heap x op = .ok (.alloc shape) ∧ o = (s.heap.alloc m.program shape).1 := by
  rw [created?] at h
  split at h
  · rename_i y rest hr
    split at h
    · rename_i shape hm
      cases h
      obtain ⟨op, ho, he⟩ := Option.map_eq_some_iff.1 hm
      exact ⟨rest, op, shape, hr, ho, he, rfl⟩
    · cases h
  · cases h

theorem created?_of_throws {op th heap state} (hr : s.Next x rest)
    (ho : m.body.op? x = some op) (ht : m.Throws host s x op th heap state) :
    m.created? s = none := by
  cases ht with
  | plain hc he =>
    rw [created?, hr]
    simp only [ho, Option.map_some, he]
  | call ha hh => exact created?_of_eval hr ho rfl

theorem Sound.step_of_callKept (hs : m.Sound g (origin g log) holds s)
    (hg : g.Upholds m.program m.body) (hcall : Sound.CallKept m host g (origin g log) holds s)
    (hstep : m.Step host s t) (hd : m.Disciplined s) (hty' : t.frame.RefsTyped m.body) :
    m.Sound g (origin g ((m.created? s).toList ++ log)) holds t := by
  have hl := hs.located.step hstep
  cases hstep with
  | enter hr hf =>
    rw [created?, hr]
    exact hs.enter hg hf hty' hl
  | @op x rest op v heap state hr ho hleave hdoes =>
    cases hdoes with
    | plain hc he =>
      rename_i eff
      rw [created?_of_eval hr ho he]
      rcases eff with _ | v | shape | ⟨o, first, vs⟩ | ⟨o, n⟩ | ⟨gl, v⟩
      case alloc =>
        simp only [Option.toList_some, singleton_append, origin_cons]
        exact hs.create hg hr ho he hl
      all_goals exact hs.effect hg hr ho hd he (by simp) hty' hl
    | call ha hh =>
      rw [created?_of_eval hr ho rfl]
      obtain ⟨hheap, hext, hheld, hreply⟩ := hcall _ _ _ _ _ _ _ hr ho ha hh
      refine hs.update hl hext hheap (fun y w hw => ?_) (fun _ h => .inl (by simpa using h)) hheld
      rcases v with _ | v
      · exact .inl hw
      · rcases SideTable.get?_insert_cases s.frame.values _ v hw with ⟨rfl, rfl⟩ | hold
        · refine .inr ⟨fun c hc => ?_, fun o hv => ?_⟩
          · simp [Body.const?, ho, Op.toConst?] at hc
          · subst hv
            have hvis := hreply o rfl
            have hc := hs.conforms hg hr ho
            exact ⟨hvis.1, hvis.2.covered (hc (hty' y o hw))⟩
        · exact .inl hold
  | caught hr ho hleave ht hterm =>
    rw [created?_of_throws hr ho ht]
    obtain ⟨hheap, hext, hheld, hthrown⟩ := hs.throws hcall hr ho ht
    refine hs.update hl hext hheap (fun y v hv => .inl hv) (fun o h => .inr ?_) hheld
    exact hthrown o (Option.some.inj h)
  | goTo hr hb =>
    rw [created?, hr]
    exact hs.update_heap hl (fun o ho => ⟨ho, rfl⟩) hs.heap rfl rfl rfl

theorem Sound.step (hs : m.Sound g (origin g log) holds s) (hg : g.Solved m.program m.body)
    (hhost : host.Confined m.program holds) (hstep : m.Step host s t)
    (hd : m.Disciplined s) (hty' : t.frame.RefsTyped m.body) :
    m.Sound g (origin g ((m.created? s).toList ++ log)) holds t :=
  hs.step_of_callKept hg.upholds (hs.callKept hg hhost hd.refs) hstep hd hty'

end Log

end Machine

end EscapeAnalysis
