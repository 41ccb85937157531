import EscapeAnalysis.Proofs.Merges
import EscapeAnalysis.Proofs.PointsTo
import EscapeAnalysis.Proofs.Substitution
import EscapeAnalysis.Proofs.Regions

/-!
# What the absence of obstacles means

A merge is clean at a point if nothing that counts as a hit can run on a way to the point: from its
block, and for every merge nested in it, from the block of the nested merge to the end of the block
it flows in from. Where the analysis has found no obstacle, merges are clean at the loads of their
fields and at the debug states that name them.

At every state of a run the points-to graph covers the state, what is available has been computed,
and the value of an allocation instruction is an object of its node. So an instruction that is no
hit for a field of a merge leaves the field of every leaf as it is.
-/

namespace EscapeAnalysis

open List MergeContext

namespace Merges

variable {m m' : Merges} {phi q child : InstId}

/-- The merges nested in a merge, at any depth, with the merge itself. -/
inductive Nests (m : Merges) (phi : InstId) : InstId → Prop
  | refl : m.Nests phi phi
  | step {q child : InstId} : m.Nests phi q → child ∈ m.children q → m.Nests phi child

theorem Nests.of_child (hc : child ∈ m.children phi) (h : m.Nests child q) : m.Nests phi q := by
  induction h with
  | refl => exact .step .refl hc
  | step _ hq ih => exact ih.step hq

theorem mem_nested (hk : ∀ phi ∈ m.keys, ∀ child ∈ m.children phi, child ∈ m.keys)
    (hphi : phi ∈ m.keys) (h : m.Nests phi q) : q ∈ m.nested phi ∧ q ∈ m.keys := by
  obtain ⟨hstart, hnext⟩ := mem_flood .newestFirst m.keys m.children [phi] [phi]
  induction h with
  | refl => exact ⟨hstart phi (by simp), hphi⟩
  | step _ hc ih =>
    obtain ⟨hq, hqk⟩ := ih
    have hck := hk _ hqk _ hc
    refine ⟨(hnext _ hq _ hc hck).elim (fun hm => ?_) id, hck⟩
    exact hstart _ hm

end Merges

/-- No hit can run on the way from the start of a block to a point. -/
def Body.Quiet (body : Body) (hit : InstId → Bool) (first : BlockId) (stop : Point) : Prop :=
  ∀ c k x, (body.block c).insts[k]? = some x → body.Between first stop c k → hit x = false

namespace Merges

variable {body : Body} {m : Merges} {phi q child x : InstId} {hit hit' : InstId → Bool}
  {stop : Point} {b s : BlockId} {i : Nat}

/-- No hit can run on the ways from a merge, and from the merges nested in it, to a point. -/
structure Clean (body : Body) (m : Merges) (hit : InstId → Bool) (phi : InstId) (stop : Point) :
    Prop where
  own : body.Quiet hit (m.desc phi).block stop
  nested : ∀ q, m.Nests phi q → ∀ b child, (b, .phi child) ∈ (m.desc q).inputs →
    body.Quiet hit (m.desc child).block (.atEnd b)

namespace Clean

theorem mono (h : Clean body m hit phi stop) (hle : ∀ x, hit' x = true → hit x = true) :
    Clean body m hit' phi stop := by
  have hfalse : ∀ x, hit x = false → hit' x = false := fun x hx =>
    Bool.eq_false_iff.2 fun hx' => by simp [hle x hx'] at hx
  exact ⟨fun c k x hx hb => hfalse x (h.own c k x hx hb),
    fun q hq b child hc c k x hx hb => hfalse x (h.nested q hq b child hc c k x hx hb)⟩

/-- A run that has come to a point where a merge is clean came from points where it is. -/
theorem back (h : Clean body m hit phi stop) {stop'}
    (hb : ∀ c k, k < (body.block c).insts.length → body.Between (m.desc phi).block stop' c k →
      body.Between (m.desc phi).block stop c k) : Clean body m hit phi stop' :=
  ⟨fun c k x hx hbetween =>
    h.own c k x hx (hb c k (List.getElem?_eq_some_iff.1 hx).1 hbetween), h.nested⟩

theorem of_succ (h : Clean body m hit phi (.before b (i + 1))) :
    Clean body m hit phi (.before b i) := h.back fun _ _ _ hb => hb.mono (by omega)

theorem of_edge (h : Clean body m hit phi (.before s i)) (e : body.flow.Edge b s) :
    Clean body m hit phi (.atEnd b) := h.back fun _ _ _ hb => hb.edge e

theorem of_atEnd (h : Clean body m hit phi (.atEnd b)) :
    Clean body m hit phi (.before b i) := h.back fun _ _ _ hb => hb.atEnd

theorem not_hit (h : Clean body m hit phi (.before b (i + 1)))
    (hlead : body.flow.Leads (m.desc phi).block b) (hx : (body.block b).insts[i]? = some x) :
    hit x = false := h.own b i x hx (.own hlead (by omega))

theorem of_child (h : Clean body m hit phi stop) (hc : (b, .phi child) ∈ (m.desc phi).inputs) :
    Clean body m hit child (.atEnd b) :=
  ⟨h.nested phi .refl b child hc, fun q hq => h.nested q (.of_child (mem_children hc) hq)⟩

end Clean

section Checks

variable {p : Program} {g : Graph} {cands : List InstId} {m₁ : Merges}
variable {d d' : MergeDesc} {f : FieldId} {web : List InstId}

theorem clean_of_mayRun (hwf : body.WellFormed) (hc : body.Checked) (hf : m.Faithful body g cands)
    (hs : m₁.SameCore m) (hphi : phi ∈ m.keys) (hstop : stop.block ∈ body.order)
    (h : (ofBody p body g).mayRun m₁ (m.desc phi) stop hit = false) :
    Clean body m hit phi stop := by
  have hseg : ∀ first stop', (first, stop') ∈ MergeContext.segments m₁ (m.desc phi) stop →
      first ∈ body.order → stop'.block ∈ body.order →
      body.Quiet hit first stop' := by
    intro first stop' hmem hfirst hstop' c k x hx hb
    have hnot := any_eq_false.1 h (first, stop') hmem
    rw [Bool.not_eq_true] at hnot
    have := any_eq_false.1 hnot x (Body.mem_instsBetween hwf hfirst hstop' hx hb)
    simpa using this
  have hd := hf.described phi hphi
  have hphi_eq := hd.phi_eq
  refine ⟨hseg _ _ ?_ hd.reachable hstop, fun q hq b child hch => hseg _ _ ?_ ?_ ?_⟩
  · simp [MergeContext.segments]
  · have hk1 : ∀ phi ∈ m₁.keys, ∀ child ∈ m₁.children phi, child ∈ m₁.keys := by
      intro phi hphi child hch
      rw [hs.children] at hch
      exact hs.mem_keys.2 (hf.listed.children phi (hs.mem_keys.1 hphi) child hch)
    have hnest : m₁.Nests phi q := by
      clear hch
      induction hq with
      | refl => exact .refl
      | step _ hq ih => exact ih.step (hs.children _ ▸ hq)
    have hq1 := (mem_nested hk1 (hs.mem_keys.2 hphi) hnest).1
    simp only [MergeContext.segments, mem_eraseDups, mem_cons, mem_flatMap,
      mem_filterMap, hphi_eq]
    refine .inr ⟨q, hq1, (b, .phi child), hs.inputs q ▸ hch, ?_⟩
    simp [MergeInput.child?, hs.block]
  · have hqk := (mem_nested hf.listed.children hphi hq).2
    exact (hf.described child (hf.listed.children q hqk child (mem_children hch))).reachable
  · have hqk := (mem_nested hf.listed.children hphi hq).2
    exact (hf.described q hqk).pred_mem_order hc hch

/-- The instructions that may change a field of a leaf or make a new object of it. -/
def clobberOf (p : Program) (body : Body) (g : Graph) (d : MergeDesc) (f : FieldId) :
    InstId → Bool :=
  let c := ofBody p body g
  c.clobbers (c.escaping d) (.ofList (d.allocLeaves.map fun (n, _) => .alloc n))
    (d.allocLeaves.map Prod.snd).eraseDups f

def reallocOf (d : MergeDesc) (x : InstId) : Bool := x ∈ (d.allocLeaves.map Prod.snd).eraseDups

theorem allocLeaves_subset (h : d.leaves ⊆ d'.leaves) : d.allocLeaves ⊆ d'.allocLeaves := by
  intro e he
  obtain ⟨l, hl, he⟩ := mem_filterMap.1 he
  exact mem_filterMap.2 ⟨l, h hl, he⟩

theorem reallocOf_mono (h : d.leaves ⊆ d'.leaves) (hx : reallocOf d x = true) :
    reallocOf d' x = true := by
  simp only [reallocOf, decide_eq_true_eq, mem_eraseDups, mem_map] at hx ⊢
  obtain ⟨e, he, hx⟩ := hx
  exact ⟨e, allocLeaves_subset h he, hx⟩

/-- What may hit a leaf of a nested merge may hit a leaf of the outer one. -/
theorem clobberOf_mono (h : d.leaves ⊆ d'.leaves)
    (hx : clobberOf p body g d f x = true) : clobberOf p body g d' f x = true := by
  have hsub := allocLeaves_subset h
  have hesc : (ofBody p body g).escaping d = true →
      (ofBody p body g).escaping d' = true := by
    intro he
    obtain ⟨e, hmem, he⟩ := any_eq_true.1 he
    exact any_eq_true.2 ⟨e, hsub hmem, he⟩
  simp only [clobberOf, MergeContext.clobbers] at hx ⊢
  split at hx
  · simp only [Bool.and_eq_true, Bool.or_eq_true, Bool.not_eq_true', decide_eq_true_eq] at hx ⊢
    refine ⟨hx.1, hx.2.imp (fun hd => ?_) fun hp => ⟨hesc hp.1, hp.2⟩⟩
    obtain ⟨n, hn, hl⟩ := NodeSet.disjoint_eq_false.1 hd
    obtain ⟨e, he, rfl⟩ := mem_map.1 (NodeSet.mem_ofList.1 hl)
    exact NodeSet.disjoint_eq_false.2
      ⟨_, hn, NodeSet.mem_ofList.2 (mem_map.2 ⟨e, hsub he, rfl⟩)⟩
  · exact hesc hx
  · exact reallocOf_mono h hx
  · exact reallocOf_mono h hx
  · cases hx

/-- All leaves are objects that have the field. -/
def AllHave (p : Program) (g : Graph) (d : MergeDesc) (f : FieldId) : Prop :=
  ∀ l ∈ d.leaves, ∃ n x cls, l = .alloc n x ∧ g.shapeOf n = .inst cls ∧
    (p.fieldIndex? cls f).isSome

/-- The uses that a merge can be taken apart for. -/
inductive UseOk (p : Program) (body : Body) (g : Graph) (m : Merges) (web : List InstId)
    (phi : InstId) (b : BlockId) (i : Nat) (user : InstId) : Op → Prop
  | merge (inputs : List (BlockId × InstId)) (h : user ∈ web) : UseOk p body g m web phi b i user
      (.phi inputs)
  | load (f : FieldId) (hall : AllHave p g (m.desc phi) f)
      (hclean : Clean body m (clobberOf p body g (m.desc phi) f) phi (.before b i)) :
      UseOk p body g m web phi b i user (.loadField phi f)
  | isNull (lhs rhs other : InstId) (h : lhs = phi ∧ rhs = other ∨ lhs = other ∧ rhs = phi)
      (hne : other ≠ phi) (hnull : body.const? other = some .null) :
      UseOk p body g m web phi b i user (.refEq lhs rhs)
  | cls (cls : ClassId) (hsh : (m.desc phi).shapes = .exact cls)
      (hnull : (m.desc phi).hasNull = false) : UseOk p body g m web phi b i user (.loadClass phi)
  | instanceOf (exact cls : ClassId) (hsh : (m.desc phi).shapes = .exact exact)
      (hnull : (m.desc phi).hasNull = false) :
      UseOk p body g m web phi b i user (.instanceOf phi cls)

theorem allHave_of_instObstacle? {obj} (hop : body.op? x = some (.loadField obj f))
    (h : (ofBody p body g).instObstacle? m₁ web (m.desc phi) x = none) :
    AllHave p g (m.desc phi) f := by
  have hbody : (ofBody p body g).body.op? x = some (.loadField obj f) := hop
  simp only [instObstacle?, hbody] at h
  split at h
  · cases h
  rename_i hnull
  split at h
  · cases h
  rename_i hfield
  intro l hl
  cases l with
  | null => exact absurd (by simpa [MergeDesc.hasNull] using hl) hnull
  | alloc n y =>
    have hall : (ofBody p body g).hasField f n = true := by
      simp only [Bool.not_eq_true, Bool.not_eq_false'] at hfield
      exact all_eq_true.1 hfield (n, y) (mem_filterMap.2 ⟨_, hl, rfl⟩)
    simp only [hasField, ofBody] at hall
    split at hall
    · rename_i cls hcls
      exact ⟨n, y, cls, rfl, hcls, hall⟩
    · cases hall

theorem shapeOf_of_exact (hsum : m.Summarized g phi) {cls} (hsh : (m.desc phi).shapes = .exact cls)
    {n} (hl : .alloc n x ∈ (m.desc phi).leaves) : g.shapeOf n = .inst cls := by
  have hshapes := hsum.shapes.symm.trans hsh
  rw [shapesOf] at hshapes
  split at hshapes
  · rw [← hsum.leaves] at hshapes
    simp only [Shapes.ofLeaves] at hshapes
    split at hshapes
    · cases hshapes
    rename_i hsome
    have hmem : g.classOf? n ∈ ((m.desc phi).leaves.filterMap Leaf.alloc?).map
        (fun e : Nat × InstId => g.classOf? e.1) :=
      mem_map.2 ⟨(n, x), mem_filterMap.2 ⟨_, hl, rfl⟩, rfl⟩
    have hclass : ∀ c, g.classOf? n = some c → c = cls := by
      intro c hc
      split at hshapes
      · cases hshapes
      · rename_i cls' heq
        cases hshapes
        have : c ∈ [cls] := heq ▸ mem_eraseDups.2 (mem_filterMap.2 ⟨_, hmem, hc⟩)
        simpa using this
      · cases hshapes
    cases hn : g.shapeOf n with
    | inst c => rw [hclass c (by simp [Graph.classOf?, hn])]
    | array elem len =>
      refine absurd (any_eq_true.2 ⟨_, hmem, ?_⟩) hsome
      simp [Graph.classOf?, hn]
  · cases hshapes

/-- The state names the merge only as the whole of a local or of a monitor. -/
def OnlyTop (phi : InstId) (state : DebugState) : Prop :=
  state.insts.count phi =
    (state.locals ++ state.monitors.map MonitorSlot.obj).countP (·.isValueOf phi)

/-- What holds of a merge that there is no obstacle to taking apart. -/
structure Reducible (p : Program) (body : Body) (g : Graph) (m : Merges) (web : List InstId)
    (phi : InstId) : Prop where
  known : ∀ e ∈ (m.desc phi).inputs, ∀ x, e.2 ≠ .unknown x
  inst : ∀ n x, .alloc n x ∈ (m.desc phi).leaves → ∃ cls, g.shapeOf n = .inst cls
  invoke : (ofBody p body g).escaping (m.desc phi) = true →
    ∀ e ∈ (m.desc phi).inputs, ∀ call normal handler,
      (body.block e.1).term ≠ .invoke call normal handler
  field : ∀ x obj f, body.uses.Lists phi (.inst x) → body.op? x = some (.loadField obj f) →
    AllHave p g (m.desc phi) f
  use : ∀ b ∈ body.flow.order.blocks, ∀ i x op, (body.block b).insts[i]? = some x →
    body.op? x = some op → phi ∈ op.operands → UseOk p body g m web phi b i x op
  term : ∀ b, (body.block b).term.operand? ≠ some phi
  top : ∀ s state, body.states.get? s = some state → phi ∈ state.insts → OnlyTop phi state
  site : ∀ s state, body.states.get? s = some state → phi ∈ state.insts →
    ∀ stop, (ofBody p body g).pointOf? s = some stop →
      stop.block ∈ body.flow.order.blocks → Clean body m (reallocOf (m.desc phi)) phi stop

theorem UseOk.mono {web' user op} (h : UseOk p body g m web phi b i user op) (hsub : web ⊆ web') :
    UseOk p body g m web' phi b i user op := by
  cases h with
  | merge inputs h => exact .merge inputs (hsub h)
  | load f hall hclean => exact .load f hall hclean
  | isNull lhs rhs other h hne hnull => exact .isNull lhs rhs other h hne hnull
  | cls cls hsh hnull => exact .cls cls hsh hnull
  | instanceOf exact cls hsh hnull => exact .instanceOf exact cls hsh hnull

/-- The merges of `gone` can be taken apart together. -/
structure Apart (p : Program) (body : Body) (g : Graph) (m : Merges) (gone : List InstId) :
    Prop where
  keys : ∀ phi ∈ gone, phi ∈ m.keys
  summarized : ∀ phi ∈ gone, m.Summarized g phi
  reducible : ∀ phi ∈ gone, Reducible p body g m gone phi
  children : ∀ phi ∈ gone, ∀ child ∈ m.children phi, child ∈ gone

section

variable (hwf : body.WellFormed) (hi : body.Issued) (hc : body.Checked)
  (hf : m.Faithful body g cands)
include hwf hi hc hf

theorem useOk_of_instObstacle? (hs : m₁.SameCore m) (hphi : phi ∈ m.keys) (hb : b ∈ body.order)
    (hx : (body.block b).insts[i]? = some x) {op} (hop : body.op? x = some op)
    (hmem : phi ∈ op.operands) (h : (ofBody p body g).instObstacle? m₁ web (m.desc phi) x = none) :
    UseOk p body g m web phi b i x op := by
  have hphi_eq := (hf.described phi hphi).phi_eq
  have hbody : (ofBody p body g).body.op? x = some op := hop
  cases op with
  | phi inputs =>
    simp only [instObstacle?, hbody] at h
    split at h
    · exact .merge inputs ‹_›
    · cases h
  | loadField obj f =>
    obtain rfl : phi = obj := by simpa [Op.operands] using hmem
    have hall := allHave_of_instObstacle? hop h
    simp only [instObstacle?, hbody] at h
    split at h
    · cases h
    split at h
    · cases h
    split at h
    · cases h
    rename_i hclob
    refine .load f hall ?_
    obtain ⟨inst, hinst⟩ := Body.live_of_op? hop
    have hplace : (ofBody p body g).placement.get? x = some (b, i) :=
      hc.placement hwf hi hinst hx
    refine clean_of_mayRun (p := p) hwf hc hf hs hphi hb ?_
    simpa [MergeContext.clobbered, hplace, clobberOf] using hclob
  | refEq lhs rhs =>
    simp only [instObstacle?, hbody, hphi_eq] at h
    generalize hother : (if lhs = phi then rhs else lhs) = other at h
    split at h
    · rename_i hok
      simp only [Bool.and_eq_true, decide_eq_true_eq, beq_iff_eq] at hok
      refine .isNull lhs rhs other ?_ hok.1 hok.2
      simp only [Op.operands, mem_cons, not_mem_nil, or_false] at hmem
      by_cases hl : lhs = phi
      · exact .inl ⟨hl, by rw [← hother, if_pos hl]⟩
      · exact .inr ⟨by rw [← hother, if_neg hl], (hmem.resolve_left (Ne.symm hl)).symm⟩
    · cases h
  | loadClass obj =>
    obtain rfl : phi = obj := by simpa [Op.operands] using hmem
    simp only [instObstacle?, hbody] at h
    split at h
    · rename_i cls hsh
      split at h
      · cases h
      · exact .cls cls hsh (Bool.eq_false_iff.2 ‹_›)
    · cases h
  | instanceOf obj cls =>
    obtain rfl : phi = obj := by simpa [Op.operands] using hmem
    simp only [instObstacle?, hbody] at h
    split at h
    · rename_i exact hsh
      split at h
      · cases h
      · exact .instanceOf exact cls hsh (Bool.eq_false_iff.2 ‹_›)
    · cases h
  | _ => simp [instObstacle?, hbody] at h

theorem reducible_of_settled {w} (hw : MergeAnalysis.Settled (.ofBody p body g) m w)
    (hphi : phi ∈ w.phis) : Reducible p body g m w.phis phi := by
  obtain ⟨m₁, hs, hnone⟩ := hw.unobstructed
  have hd := hf.described phi (hw.keys phi hphi)
  obtain ⟨inst, hinst⟩ := Body.live_of_mem_phis hd.mem_phis
  obtain ⟨hinput, huses⟩ := Option.or_eq_none_iff.1 (hnone phi hphi)
  have huse : ∀ u, body.uses.Lists phi u →
      (ofBody p body g).useObstacle? m₁ w.phis (m.desc phi) u = none := by
    intro u hu
    rw [hd.phi_eq] at huses
    exact List.findSome?_eq_none_iff.1 huses u hu
  simp only [inputObstacle?] at hinput
  split at hinput
  · cases hinput
  rename_i hknown
  split at hinput
  · cases hinput
  rename_i harray
  split at hinput
  · cases hinput
  rename_i hinvoke
  have hstate : ∀ s state, body.states.get? s = some state → phi ∈ state.insts →
      (ofBody p body g).debugObstacle? m₁ (m.desc phi) s = none :=
    fun s state hst hmem => huse (.debug s) ((Body.lists_uses_iff hwf hi hinst).2 ⟨state, hst, hmem⟩)
  have hstate_eq : ∀ s state, body.states.get? s = some state →
      (ofBody p body g).body.state s = state := fun s state hst => by
    simp [ofBody, Body.state, hst]
  refine ⟨?known, ?inst, ?invoke, ?field, ?use, ?term, ?top, ?site⟩
  case known =>
    intro e he x hx
    refine hknown (any_eq_true.2 ⟨e, he, ?_⟩)
    simp [hx, MergeInput.inst]
  case inst =>
    intro n x hl
    cases hsh : g.shapeOf n with
    | inst cls => exact ⟨cls, rfl⟩
    | array elem len =>
      refine absurd (any_eq_true.2 ⟨(n, x), mem_filterMap.2 ⟨_, hl, rfl⟩, ?_⟩) harray
      simp [isArray, ofBody, hsh]
  case invoke =>
    intro hesc e he call normal handler hterm
    refine hinvoke (Bool.and_eq_true_iff.2 ⟨hesc, any_eq_true.2 ⟨e, he, ?_⟩⟩)
    simp [endsInInvoke, ofBody, hterm]
  case field => exact fun x obj f hx hop => allHave_of_instObstacle? hop (huse (.inst x) hx)
  case use =>
    intro b hb i x op hx hop hmem
    exact useOk_of_instObstacle? hwf hi hc hf hs (hw.keys phi hphi) hb hx hop hmem
      (huse (.inst x) ((Body.lists_uses_iff hwf hi hinst).2
        ⟨⟨b, mem_of_getElem? hx⟩, op, hop, hmem⟩))
  case term =>
    intro b hterm
    simpa [useObstacle?] using
      huse (.term b) ((Body.lists_uses_iff hwf hi hinst).2 hterm)
  case top =>
    intro s state hst hmem
    have h := hstate s state hst hmem
    simp only [debugObstacle?, hstate_eq s state hst, hd.phi_eq] at h
    split at h
    · cases h
    · exact Classical.not_not.1 ‹_›
  case site =>
    intro s state hst hmem stop hstop hb
    have h := hstate s state hst hmem
    simp only [debugObstacle?, hstop] at h
    split at h
    · cases h
    split at h
    · cases h
    · exact clean_of_mayRun (p := p) hwf hc hf hs (hw.keys phi hphi) hb (Bool.eq_false_iff.2 ‹_›)

theorem apart_of_settled {webs : List Web}
    (hw : ∀ w ∈ webs, MergeAnalysis.Settled (.ofBody p body g) m w) :
    Apart p body g m (webs.flatMap Web.phis) := by
  refine ⟨?keys, ?summarized, ?reducible, ?children⟩ <;> intro phi hphi <;>
    obtain ⟨w, hmem, hphi⟩ := mem_flatMap.1 hphi
  case keys => exact (hw w hmem).keys phi hphi
  case summarized => exact (hw w hmem).summarized phi hphi
  case reducible =>
    have hr := reducible_of_settled hwf hi hc hf (hw w hmem) hphi
    have hsub : w.phis ⊆ webs.flatMap Web.phis := fun q hq => mem_flatMap.2 ⟨w, hmem, hq⟩
    exact { hr with use := fun b hb i x op hx hop h => (hr.use b hb i x op hx hop h).mono hsub }
  case children =>
    intro child hch
    have hbefore := ((hw w hmem).sorted phi hphi child hch).right_mem
    exact mem_flatMap.2 ⟨w, hmem, mem_reverse.1 hbefore⟩

end

theorem AllHave.of_child (hsum : m.Summarized g phi) (hc : (b, .phi child) ∈ (m.desc phi).inputs)
    (h : AllHave p g (m.desc phi) f) : AllHave p g (m.desc child) f := by
  intro l hl
  refine h l ?_
  rw [hsum.leaves]
  exact mem_flatMap.2 ⟨(b, .phi child), hc, hl⟩

end Checks

end Merges

namespace Heap

variable {h h' : Heap} {p : Program} {o : ObjRef} {f : FieldId} {w : Value}

def HasField (h : Heap) (p : Program) (o : ObjRef) (f : FieldId) (w : Value) : Prop :=
  ∃ obj c idx, h.get? o = some obj ∧ obj.shape = .inst c ∧ p.fieldIndex? c f = some idx ∧
    obj.fields[idx]? = some w

theorem HasField.congr (hf : h.HasField p o f w) (ho : h'.get? o = h.get? o) :
    h'.HasField p o f w := by
  obtain ⟨obj, c, idx, hobj, hrest⟩ := hf
  exact ⟨obj, c, idx, ho.trans hobj, hrest⟩

theorem HasField.unique {w'} (hf : h.HasField p o f w) (hf' : h.HasField p o f w') : w = w' := by
  obtain ⟨obj, c, idx, hobj, hc, hidx, hw⟩ := hf
  obtain ⟨obj', c', idx', hobj', hc', hidx', hw'⟩ := hf'
  obtain rfl := Option.mem_unique hobj hobj'
  obtain rfl : c = c' := by simpa [hc] using hc'
  obtain rfl := Option.mem_unique hidx hidx'
  exact Option.mem_unique hw hw'

end Heap

namespace Machine

variable {σ : Type} {heap : Heap} {state : σ}

/-- References are held by instructions of reference type only, these hold nothing else, and
elements are read from arrays only. -/
structure WellTyped (m : Machine) (s : RunState σ) : Prop extends m.Disciplined s where
  nullable : ∀ x v, m.body.isRef x = true → s.frame.values.get? x = some v →
    v = .null ∨ ∃ o, v = .ref o

theorem wellTyped_iff {m : Machine} {s : RunState σ} : m.WellTyped s ↔ m.Disciplined s ∧
    ∀ e ∈ s.frame.values.toList, m.body.isRef e.1 = true → (match e.2 with
      | .null | .ref _ => true
      | _ => false) = true := by
  constructor
  · refine fun h => ⟨h.toDisciplined, fun ⟨x, v⟩ he hx => ?_⟩
    rcases h.nullable x v hx (SideTable.mem_toList_iff.1 he) with rfl | ⟨o, rfl⟩ <;> rfl
  · refine fun ⟨hd, h⟩ => ⟨hd, fun x v hx hv => ?_⟩
    have hv := h (x, v) (SideTable.mem_toList_iff.2 hv) hx
    cases v <;> simp_all

instance (m : Machine) (s : RunState σ) : Decidable (m.WellTyped s) :=
  decidable_of_iff' _ wellTyped_iff

/-- What is known at a state of a run. -/
structure Surveyed (m : Machine) (g : Graph) (org : ObjRef → Option Nat)
    (holds : σ → ObjRef → Prop) (s : RunState σ) : Prop where
  sound : m.Sound g org holds s
  framed : m.Framed s
  computed : m.Computed (fun _ op => op.yields = true) s
  allocs : ∀ x op v, m.body.op? x = some op → op.isAlloc = true →
    s.frame.values.get? x = some v → ∃ o n, v = .ref o ∧ g.allocOf.get? x = some n ∧ org o = some n

variable {m : Machine} {host : Host σ} {g : Graph} {org : ObjRef → Option Nat}
  {holds : σ → ObjRef → Prop} {s t : RunState σ} {log : List (ObjRef × InstId)} {o : ObjRef}

theorem surveyed_start (g : Graph) (hst : m.StartsIn holds heap state) :
    m.Surveyed g (origin g []) holds (m.start heap state) where
  sound := sound_start g hst
  framed := framed_start m heap state
  computed := computed_start m _ heap state
  allocs x op v _ _ hv := by simp [start, show (SideTable.get? {} x : Option Value) = none from rfl]
    at hv

theorem origin_of_live (hwf : s.heap.objects.WellFormed) (ho : s.heap.Live o) :
    origin g ((m.created? s).toList ++ log) o = origin g log o := by
  rcases hc : m.created? s with _ | ⟨o1, x1⟩
  · rfl
  · obtain ⟨rest, op, shape, -, -, -, rfl⟩ := eval_of_created? hc
    simp only [Option.toList_some, singleton_append, origin_cons]
    rw [if_neg]
    rintro rfl
    obtain ⟨obj, hobj⟩ := ho
    rw [Heap.get?_alloc_fst hwf] at hobj
    cases hobj

theorem eval_of_isAlloc {x op} (ha : op.isAlloc = true) {v} (hd : m.Does host s x op v heap state) :
    ∃ shape, m.eval s.frame s.heap x op = .ok (.alloc shape) ∧
      v = some (.ref (s.heap.alloc m.program shape).1) := by
  cases hd with
  | plain hc he =>
    cases op with
    | new cls =>
      cases he
      exact ⟨.inst cls, rfl, rfl⟩
    | newArray elem len =>
      obtain ⟨n, -, -, rfl⟩ := eval_newArray he
      exact ⟨_, he, rfl⟩
    | _ => cases ha
  | call ha' hh => cases ha

namespace Surveyed

section Step

variable (hwf : m.body.WellFormed) (hc : m.body.Checked)
  (hg : g.Solved m.program m.body) (hhost : host.Confined m.program holds)

include hwf hc hg hhost in
theorem step (h : m.Surveyed g (origin g log) holds s) (hs : m.Disciplined s)
    (ht : m.Disciplined t) (hstep : m.Step host s t) :
    m.Surveyed g (origin g ((m.created? s).toList ++ log)) holds t where
  sound := h.sound.step hg hhost hstep hs ht.refs
  framed := h.framed.step hstep
  computed := h.computed.step hwf hc (dependable_yields hc) h.sound.located h.framed hstep
  allocs := by
    intro x op v hop halloc hv
    -- A value that was there before keeps its origin.
    have hold : s.frame.values.get? x = some v → ∃ o n, v = .ref o ∧ g.allocOf.get? x = some n ∧
        origin g ((m.created? s).toList ++ log) o = some n := by
      intro hv
      obtain ⟨o, n, rfl, hn, ho⟩ := h.allocs x op v hop halloc hv
      refine ⟨o, n, rfl, hn, ?_⟩
      rw [origin_of_live h.sound.heap.valid.wellFormed (h.sound.frame x o hv).1, ho]
    cases hstep with
    | enter hr hf =>
      obtain ⟨incoming, hphis, -, rfl⟩ := enterPhis_spec hf
      refine (SideTable.mem_of_get?_foldl_insert hv).elim (fun hmem => ?_) hold
      have hx : x ∈ m.body.phis s.frame.block := hphis ▸ mem_map_of_mem hmem
      have hphi := (Body.isPhi_of_op? hop).symm.trans (Body.isPhi_of_mem_phis hx)
      cases op <;> cases hphi
      cases halloc
    | @op x0 rest op0 v0 heap state hr ho hleave hdoes =>
      rw [h.framed.get?_setResult hwf ho] at hv
      split at hv
      · rename_i hx
        subst hx
        obtain rfl := Option.mem_unique ho hop
        obtain ⟨shape, he, rfl⟩ := eval_of_isAlloc halloc hdoes
        obtain ⟨n, hn, -⟩ := h.sound.exists_node_of_alloc hg.upholds hr ho (acts_of_eval he)
        refine ⟨_, n, (Option.some.inj hv).symm, hn, ?_⟩
        rw [created?_of_eval hr ho he]
        simp only [Option.toList_some, singleton_append, origin_cons, if_true, hn]
      · exact hold hv
    | caught hr ho hleave hthrows hterm => exact hold hv
    | goTo hr hb => exact hold hv

end Step

end Surveyed

theorem eval_write {f h x op first vs} (he : m.eval f h x op = .ok (.write o first vs)) :
    ∃ obj, h.get? o = some obj ∧
      (obj.elem?.isSome ∨ ∃ base field value c v, op = .storeField base field value ∧
        f.values.get? base = some (.ref o) ∧ obj.shape = .inst c ∧
        m.program.fieldIndex? c field = some first ∧ vs = [v]) := by
  cases acts_of_eval he with
  | storeField hbase _ hobj hc hidx =>
    exact ⟨_, hobj, .inr ⟨_, _, _, _, _, rfl, hbase, hc, hidx, rfl⟩⟩
  | storeElem _ _ hobj helem | rawStore hobj helem | arrayFill _ _ hobj helem =>
    exact ⟨_, hobj, .inl (Option.isSome_of_eq_some helem)⟩
  | arrayCopy _ _ _ _ _ _ hobj helem => exact ⟨_, hobj, .inl (helem.2 ▸ helem.1)⟩

namespace Surveyed

variable {x : InstId} {rest : List InstId} {op : Op} {n : Nat} {w : Value} {d : MergeDesc}
  {f : FieldId} {y : InstId} {heap : Heap} {state : σ}

section Field

variable (h : m.Surveyed g org holds s) (hg : g.Solved m.program m.body)
  (hr : s.Next x rest) (ho : m.body.op? x = some op) {c : Call} {args : List Value}
  {reply : Reply}

include h hg hr ho in
/-- A callee cannot reach the objects of a node that does not escape. -/
theorem not_known (hty : s.frame.RefsTyped m.body) (hop : op = .call c)
    (ha : c.args.mapM s.frame.get = .ok args) (horg : org o = some n) (hesc : g.escapeOf n = .none) :
    ¬ Host.Known m.program holds args s.heap s.host o := by
  intro hknown
  have hargs := h.sound.visible_of_args hg hr ho hty hop ha
  exact (h.sound.heap.visible_of_known h.sound.held hargs hknown).2.ne_none horg hesc

include h hg hr ho in
theorem get?_of_call (hhost : host.Confined m.program holds) (hty : s.frame.RefsTyped m.body)
    (hop : op = .call c) (ha : c.args.mapM s.frame.get = .ok args)
    (hh : host.call m.program c.callee args s.heap s.host = .ok (reply, heap, state))
    (horg : org o = some n) (hesc : g.escapeOf n = .none) : heap.get? o = s.heap.get? o := by
  have hw := hhost _ _ _ _ _ _ _ h.sound.heap.valid.wellFormed hh
  obtain ⟨-, obj, hobj, -⟩ := h.sound.heap.created o n horg
  rw [hobj]
  exact hw.untouched o obj hobj (h.not_known hg hr ho hty hop ha horg hesc)

variable (horg : org o = some n) (hl : .alloc n y ∈ d.leaves)
  (hnot : Merges.clobberOf m.program m.body g d f x = false)

include hl in
theorem escaping_of_leaf (hesc : .none < g.escapeOf n) :
    (ofBody m.program m.body g).escaping d = true :=
  any_eq_true.2 ⟨(n, y), mem_filterMap.2 ⟨_, hl, rfl⟩, decide_eq_true hesc⟩

include h ho horg hl hnot in
theorem field_ne_of_store {base value field} (hop : op = .storeField base field value)
    (hbase : s.frame.values.get? base = some (.ref o)) : field ≠ f := by
  rintro rfl
  subst hop
  obtain ⟨b, hb, hstands⟩ := (h.sound.frame base o hbase).2
  have hop : (ofBody m.program m.body g).body.op? x =
      some (.storeField base field value) := ho
  simp only [Merges.clobberOf, MergeContext.clobbers, hop, decide_true, Bool.true_and,
    Bool.or_eq_false_iff, Bool.not_eq_false'] at hnot
  simp only [Graph.Stands, horg] at hstands
  rcases hstands with rfl | ⟨rfl, hesc⟩
  · have hleaf : .alloc n ∈ NodeSet.ofList (d.allocLeaves.map fun e => .alloc e.1) :=
      NodeSet.mem_ofList.2 (mem_map.2 ⟨(n, y), mem_filterMap.2 ⟨_, hl, rfl⟩, rfl⟩)
    have hpts : .alloc n ∈ (ofBody m.program m.body g).graph.ptsOf base := hb
    simp [NodeSet.disjoint_eq_false.2 ⟨_, hpts, hleaf⟩] at hnot
  · have hpts : .phantom ∈ (ofBody m.program m.body g).graph.ptsOf base := hb
    simp [escaping_of_leaf hl hesc, hpts] at hnot

include h ho horg hl hnot in
theorem hasField_of_effect {eff} (he : m.eval s.frame s.heap x op = .ok eff)
    (hf : s.heap.HasField m.program o f w) :
    (eff.apply m.program s.heap).2.HasField m.program o f w := by
  cases eff with
  | none => exact hf
  | value v => exact hf
  | alloc shape =>
    obtain ⟨obj, c, idx, hobj, hrest⟩ := hf
    refine ⟨obj, c, idx, ?_, hrest⟩
    change (s.heap.alloc m.program shape).2.get? o = some obj
    have hwf := h.sound.heap.valid.wellFormed
    rw [Heap.get?_alloc hwf, if_neg, hobj]
    rintro rfl
    simp [Heap.get?_alloc_fst hwf] at hobj
  | setLocks o' k =>
    obtain ⟨obj, c, idx, hobj, hc, hidx, hw⟩ := hf
    refine ⟨if o = o' then { obj with locks := k } else obj, c, idx, ?_, ?_, hidx, ?_⟩
    · change (s.heap.modify o' _).get? o = _
      rw [Heap.get?_modify, hobj]
      split <;> rfl
    · split <;> exact hc
    · split <;> exact hw
  | setGlobal gl v => exact hf
  | write o' first vs =>
    obtain ⟨obj, c, idx, hobj, hc, hidx, hw⟩ := hf
    by_cases hoo : o = o'
    · subst hoo
      obtain ⟨obj', hobj', helem | ⟨base, field, value, c', v, hop, hbase, hc', hfirst, rfl⟩⟩ :=
        eval_write he
      · obtain rfl := Option.mem_unique hobj hobj'
        simp [Object.elem?, hc, Shape.elem?] at helem
      · obtain rfl := Option.mem_unique hobj hobj'
        obtain rfl : c = c' := by simpa [hc] using hc'
        have hne := h.field_ne_of_store ho horg hl hnot hop hbase
        refine ⟨{ obj with fields := writeSlots obj.fields first [v] }, c, idx, ?_, hc, hidx, ?_⟩
        · change (s.heap.modify o _).get? o = _
          rw [Heap.get?_modify, if_pos rfl, hobj, Option.map_some]
        have hidx_ne : first ≠ idx := by
          rintro rfl
          have h1 := Program.layout_of_fieldIndex? hfirst
          have h2 := Program.layout_of_fieldIndex? hidx
          exact hne (Option.mem_unique h1 h2)
        rw [getElem?_writeSlots, if_neg, hw]
        simp only [length_singleton]
        omega
    · refine ⟨obj, c, idx, ?_, hc, hidx, hw⟩
      change (s.heap.modify o' _).get? o = _
      rw [Heap.get?_modify, if_neg hoo, hobj]

variable (hhost : host.Confined m.program holds) (hty : s.frame.RefsTyped m.body)
include h hg hr ho horg hl hnot hhost hty

theorem get?_of_clean_call (hop : op = .call c) (ha : c.args.mapM s.frame.get = .ok args)
    (hh : host.call m.program c.callee args s.heap s.host = .ok (reply, heap, state)) :
    heap.get? o = s.heap.get? o := by
  refine h.get?_of_call hg hr ho hhost hty hop ha hh horg (Classical.byContradiction fun hne => ?_)
  subst hop
  have hop : (ofBody m.program m.body g).body.op? x = some (.call c) := ho
  simp only [Merges.clobberOf, MergeContext.clobbers, hop] at hnot
  simp [escaping_of_leaf hl (Escape.none_lt_iff.2 hne)] at hnot

theorem hasField_of_does {v} (hd : m.Does host s x op v heap state)
    (hf : s.heap.HasField m.program o f w) : heap.HasField m.program o f w := by
  cases hd with
  | plain hc he => exact h.hasField_of_effect ho horg hl hnot he hf
  | call ha hh => exact hf.congr (h.get?_of_clean_call hg hr ho horg hl hnot hhost hty rfl ha hh)

theorem hasField_of_throws {th} (ht : m.Throws host s x op th heap state)
    (hf : s.heap.HasField m.program o f w) : heap.HasField m.program o f w := by
  cases ht with
  | plain hc he => exact hf
  | call ha hh => exact hf.congr (h.get?_of_clean_call hg hr ho horg hl hnot hhost hty rfl ha hh)

end Field

end Surveyed

end Machine

end EscapeAnalysis
