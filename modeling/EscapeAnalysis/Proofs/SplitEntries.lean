import EscapeAnalysis.Proofs.SplitSteps

/-!
# Steps into a block

When the original enters a block, so does the new body. A merge of the block turns out to be the
leaf that flows in, or what the merge nested in it has turned out to be before, and each part of the
merge takes over what it says of that leaf.
-/

namespace EscapeAnalysis

open List

namespace Merges

variable {m : Merges} {p : BlockId} {i : MergeInput}

theorem length_inputLeaves (h : ∀ x, i ≠ .unknown x) : (m.inputLeaves i).length = m.width i := by
  cases i with
  | unknown x => exact absurd rfl (h x)
  | _ => rfl

theorem find?_numbered : ∀ {l : List (BlockId × MergeInput)},
    (∀ e ∈ l, ∀ x, e.2 ≠ .unknown x) → l.find? (·.1 == p) = some (p, i) →
    ∃ k, (∀ start, (m.numbered l start).find? (·.1 == p) = some (p, i, start + k)) ∧
      ∀ j leaf, (m.inputLeaves i)[j]? = some leaf → (m.leavesOf l)[k + j]? = some leaf
  | [], _, h => by cases h
  | (b, i') :: l, hknown, h => by
    have hleaves : m.leavesOf ((b, i') :: l) = m.inputLeaves i' ++ m.leavesOf l :=
      flatMap_cons
    by_cases hb : b = p
    · subst hb
      obtain rfl : i' = i := by simpa using h
      refine ⟨0, fun start => by simp [numbered], fun j leaf hj => ?_⟩
      rw [hleaves, Nat.zero_add, List.getElem?_append_left (List.getElem?_eq_some_iff.1 hj).1, hj]
    · have hne : (b == p) = false := beq_false_of_ne hb
      rw [List.find?_cons, hne] at h
      obtain ⟨k, hk, hleaf⟩ := find?_numbered (fun e he => hknown e (.tail _ he)) h
      have hlen : (m.inputLeaves i').length = m.width i' :=
        length_inputLeaves (hknown _ (.head _))
      refine ⟨m.width i' + k, fun start => ?_, fun j leaf hj => ?_⟩
      · rw [numbered, List.find?_cons, hne]
        dsimp only
        rw [hk, Nat.add_assoc]
      · rw [hleaves, List.getElem?_append_right (by omega), hlen,
          show m.width i' + k + j - m.width i' = k + j by omega]
        exact hleaf j leaf hj

end Merges

theorem Splitter.Inputs.find? {R p i k l ys} (h : Inputs R l ys)
    (hf : l.find? (·.1 == p) = some (p, i, k)) :
    ∃ y, ys.find? (·.1 == p) = some (p, y) ∧ R p i k y := by
  induction h with
  | nil => cases hf
  | @cons b i' k' y l ys hR _ ih =>
    by_cases hb : b = p
    · subst hb
      obtain ⟨rfl, rfl⟩ : i' = i ∧ k' = k := by simpa using hf
      exact ⟨y, by simp, hR⟩
    · have hne : (b == p) = false := beq_false_of_ne hb
      rw [List.find?_cons, hne] at hf ⊢
      exact ih hf

/-- An instruction that has been computed before a block is entered uses nothing of that block. -/
theorem Body.not_available_of_operand {body : Body} (hc : body.Checked) {b}
    (hb : b ∈ body.order) {u y op} (hop : body.op? u = some op)
    (hphi : op.isPhi = false) (hy : y ∈ op.operands) (hyb : y ∈ (body.block b).insts) :
    ¬ body.Available u b 0 := by
  rintro ⟨d, j, hu, ⟨-, hlt⟩ | ⟨hne, hdom⟩⟩
  · omega
  have hr := mem_order_iff.1 hb
  obtain ⟨op', hop', hcheck⟩ := hc.inst d (mem_order_iff.2 (hdom.reachable hr)) j u hu
  obtain rfl := Option.mem_unique hop hop'
  obtain ⟨inst, hinst⟩ := hc.live hb hyb
  obtain ⟨i, hyb⟩ := mem_iff_getElem?.1 hyb
  obtain ⟨d', j', hy', hor⟩ := hcheck.operands hphi y hy
  obtain ⟨rfl, -⟩ := hc.once _ inst hinst _ _ _ _ hyb hy'
  rcases hor with ⟨rfl, -⟩ | ⟨-, hdom'⟩
  · exact hne rfl
  · exact hne (hdom.antisymm hr hdom')

namespace Splitting

open Merges

variable {p : Program} {body : Body} (H : Splitting p body) {b : BlockId} {phi u x X : InstId}
  {op : Op} {key : InstId × MergePart}

theorem mem_newPhis : X ∈ H.splitter.newPhis H.merges b ↔
    ∃ key, (key, X) ∈ H.splitter.parts ∧ (H.merges.desc key.1).block = b := by
  simp [Splitter.newPhis, and_assoc]

theorem part_unique {key'} (h : (key, X) ∈ H.splitter.parts) (h' : (key', X) ∈ H.splitter.parts) :
    key = key' := by
  have hnodup := pairwise_iff_getElem.1 (pairwise_map.1 H.reduced.built.nodup)
  obtain ⟨i, hi, he⟩ := mem_iff_getElem.1 h
  obtain ⟨j, hj, he'⟩ := mem_iff_getElem.1 h'
  obtain hlt | rfl | hlt := Nat.lt_trichotomy i j
  · exact absurd (by rw [he, he']) (hnodup i j hi hj hlt)
  · exact congrArg Prod.fst (he.symm.trans he')
  · exact absurd (by rw [he, he']) (hnodup j i hj hi hlt)

section

variable (hb : b ∈ body.order)
include hb

theorem mem_phis_old (hop : body.op? x = some op) :
    x ∈ H.result.phis b ↔ x ∈ body.phis b ∧ x ∉ H.dead := by
  rw [H.reduced.phis b hb, mem_append, mem_filter, decide_eq_true_eq]
  refine or_iff_left fun hx => ?_
  obtain ⟨key, hX, -⟩ := H.mem_newPhis.1 hx
  exact H.ne_of_names (.inl ⟨key, hX⟩) hop rfl

theorem mem_phis_new (hX : H.splitter.Names X) :
    X ∈ H.result.phis b ↔ ∃ key, (key, X) ∈ H.splitter.parts ∧ (H.merges.desc key.1).block = b := by
  rw [H.reduced.phis b hb, mem_append, ← H.mem_newPhis]
  refine or_iff_right fun hx => ?_
  obtain ⟨inst, hinst⟩ := Body.live_of_mem_phis (mem_filter.1 hx).1
  simp [H.names_fresh hX] at hinst

theorem part_mem_phis (hX : (key, X) ∈ H.splitter.parts) :
    X ∈ H.result.phis b ↔ (H.merges.desc key.1).block = b := by
  rw [H.mem_phis_new hb (.inl ⟨key, hX⟩)]
  constructor
  · rintro ⟨key', hX', hb'⟩
    rwa [H.part_unique hX hX']
  · exact fun hb' => ⟨key, hX, hb'⟩

theorem const_not_mem_phis {c} (hX : (c, X) ∈ H.splitter.consts) : X ∉ H.result.phis b := by
  intro hx
  obtain ⟨key, hX', -⟩ := (H.mem_phis_new hb (.inr ⟨c, hX⟩)).1 hx
  obtain ⟨-, -, -, inputs, hop, -⟩ := H.reduced.built.parts _ hX'
  simpa [hop] using (H.reduced.built.consts _ hX).2

theorem nodup_phis : (H.result.phis b).Nodup := by
  rw [H.reduced.phis b hb, nodup_append]
  refine ⟨(H.checked.nodup_phis hb).filter _, ?_, ?_⟩
  · rw [Splitter.newPhis]
    refine List.Nodup.sublist (filter_sublist.map _) ?_
    rw [map_reverse]
    exact pairwise_reverse.2 (H.reduced.built.nodup.imp Ne.symm)
  · rintro x hx X hX rfl
    obtain ⟨key, hX, -⟩ := H.mem_newPhis.1 hX
    obtain ⟨inst, hinst⟩ := Body.live_of_mem_phis (mem_filter.1 hx).1
    simp [H.names_fresh (.inl ⟨key, hX⟩)] at hinst

/-- What takes the place of an instruction that has been computed before a block is entered is not
set by entering the block. -/
theorem ren_not_mem_phis (hu : u ∈ H.dead) (hgone : u ∉ H.gone)
    (hav : body.Available u b 0) : H.ren u ∉ H.result.phis b := by
  have hpart : ∀ phi part op, phi ∈ H.gone → body.op? u = some op → op.isPhi = false →
      phi ∈ op.operands → ((phi, part), H.ren u) ∈ H.splitter.parts →
      H.ren u ∉ H.result.phis b := by
    intro phi part op hphi hop hnphi hmem hX hx
    have hblock := (H.part_mem_phis hb hX).1 hx
    refine Body.not_available_of_operand H.checked hb hop hnphi hmem ?_ hav
    exact hblock ▸ Body.mem_insts_of_mem_phis (H.described hphi).mem_phis
  cases (H.reduced.why u hu).resolve_left hgone with
  | field phi f hphi hop hX => exact hpart phi _ _ hphi hop rfl (by simp [Op.operands]) hX
  | isNull phi lhs rhs hphi hop hmem hX =>
    exact hpart phi _ _ hphi hop rfl (by simpa [Op.operands] using hmem) hX
  | cls phi cls hphi hop hsh hX => exact H.const_not_mem_phis hb hX
  | instanceOf phi exact cls hphi hop hsh hX => exact H.const_not_mem_phis hb hX

end

end Splitting

namespace Machine

open Merges

variable {σ : Type} {m : Machine} {H : Splitting m.program m.body} {host : Host σ}
  {org org' : ObjRef → Option Nat} {holds : σ → ObjRef → Prop} {s s' t : RunState σ}
  {x y phi X : InstId} {part : MergePart} {p : BlockId} {i : MergeInput} {k : Nat} {leaf : Leaf}
  {v : Value} {f : Frame}

theorem phiInput_part (hX : ((phi, part), X) ∈ H.splitter.parts)
    (hk : ∀ start, (H.merges.numbered (H.merges.desc phi).inputs start).find? (·.1 == p) =
      some (p, i, start + k)) :
    ∃ y, Splitter.Feeds m.program H.replaced H.splitter H.extra part p i (part.start + k) y ∧
      ∀ (f : Frame) v, f.values.get? (H.ren y) = some v → (m.split H).phiInput f p X = .ok v := by
  obtain ⟨hfresh, -, -, inputs, hop, hin⟩ := H.reduced.built.parts _ hX
  obtain ⟨y, hy, hfeeds⟩ := hin.find? (hk part.start)
  have hop' := H.reduced.op_new X _ hfresh hop (by simp)
  refine ⟨y, hfeeds, fun f v hv => phiInput_eq_ok.2 ⟨_, H.ren y, hop', ?_, hv⟩⟩
  rw [List.find?_map]
  exact Option.map_eq_some_iff.2 ⟨(p, y), hy, rfl⟩

theorem Surveyed.not_ref_of_isNull {g} (hs : m.Surveyed g org holds s) (hnull : g.isNull x = true)
    {o} : s.frame.values.get? x ≠ some (.ref o) := by
  intro hv
  obtain ⟨b, hb, hstands⟩ := (hs.sound.frame x o hv).2
  rw [eq_of_beq hnull, NodeSet.mem_singleton] at hb
  subst hb
  cases ho : org o <;> simp [Graph.Stands, ho] at hstands

variable (m H org) in
/-- Value `v`, which is leaf number `k`, flows into the merge along the edge from `p`, and what the
parts take over tells the same. -/
structure Incoming (s : RunState σ) (f : Frame) (p : BlockId) (phi : InstId) (v : Value) (k : Nat)
    (leaf : Leaf) : Prop where
  found : (H.merges.desc phi).leaves[k]? = some leaf
  null : leaf = .null → v = .null
  alloc : ∀ n x, leaf = .alloc n x → ∃ op, m.body.op? x = some op ∧ op.isAlloc = true
  object : ∀ n x, leaf = .alloc n x → ∃ o, v = .ref o ∧ org o = some n ∧
    ∀ stop, Clean m.body H.merges (reallocOf (H.merges.desc phi)) phi stop →
      s.frame.values.get? x = some v
  part : ∀ part X, ((phi, part), X) ∈ H.splitter.parts → (∀ f, part ≠ .field f) →
    (m.split H).phiInput f p X = .ok (part.value H.replaced leaf k v)
  field : ∀ fd X, ((phi, .field fd), X) ∈ H.splitter.parts → ∃ w,
    (m.split H).phiInput f p X = .ok w ∧ ∀ stop,
      Clean m.body H.merges (clobberOf m.program m.body H.graph (H.merges.desc phi) fd) phi stop →
      ∀ o, v = .ref o → s.heap.HasField m.program o fd w

theorem Incoming.exists_phiInput (h : m.Incoming H org s f p phi v k leaf)
    (hX : ((phi, part), X) ∈ H.splitter.parts) : ∃ w, (m.split H).phiInput f p X = .ok w := by
  by_cases hfield : ∃ fd, part = .field fd
  · obtain ⟨fd, rfl⟩ := hfield
    obtain ⟨w, hw, -⟩ := h.field fd X hX
    exact ⟨w, hw⟩
  · exact ⟨_, h.part part X hX fun fd hfd => hfield ⟨fd, hfd⟩⟩

section Incoming

variable (h : m.Beside H org s s') (hs : m.Surveyed H.graph org holds s) (hr : s.rest = none)
  (hp : s.frame.pred = some p) (hphi : phi ∈ H.gone)
  (hin : (p, i) ∈ (H.merges.desc phi).inputs)
  (hk : ∀ start, (H.merges.numbered (H.merges.desc phi).inputs start).find? (·.1 == p) =
    some (p, i, start + k))
  (hleaf : ∀ j leaf, (H.merges.inputLeaves i)[j]? = some leaf →
    (H.merges.desc phi).leaves[k + j]? = some leaf)
include h hp

theorem Beside.get?_const {c} (hy : (c, y) ∈ H.splitter.consts) :
    s'.frame.values.get? (H.ren y) = some c.toValue := by
  rw [H.ren_of_new (H.reduced.built.consts _ hy).1]
  refine h.related.consts.resolve_left (fun hstart => ?_) _ hy
  simp [hp] at hstart

include hs hphi hin hk hleaf in
theorem Beside.incoming_alloc {n} (hi : i = .alloc n x)
    (hl : m.Loaded H (H.extra p) s s'.frame.values) (hv : s.frame.values.get? x = some v) :
    m.Incoming H org s s'.frame p phi v k (.alloc n x) := by
  subst hi
  obtain ⟨⟨op, hop, halloc⟩, hn, -, -⟩ := H.leaf_input hphi hin
  obtain ⟨o, n', rfl, hn', horg⟩ := hs.allocs x op v hop halloc hv
  obtain rfl : n = n' := by simpa [hn] using hn'
  have hnd := H.not_dead_of_alloc hop halloc
  refine ⟨hleaf 0 _ rfl, nofun, fun n' x' he => ?_, fun n' x' he => ?_, fun part X hX hne => ?_,
    fun fd X hX => ?_⟩
  · cases he
    exact ⟨op, hop, halloc⟩
  · cases he
    exact ⟨o, rfl, horg, fun _ _ => hv⟩
  · obtain ⟨y, hfeeds, hget⟩ := phiInput_part hX hk
    cases hfeeds with
    | const _ hsrc hy =>
      rw [hget _ _ (h.get?_const hp hy)]
      cases part with
      | field f => exact absurd rfl (hne f)
      | isNull =>
        cases hsrc
        rfl
      | selector start =>
        cases hsrc
        rfl
      | kept =>
        simp only [MergePart.source] at hsrc
        split at hsrc <;> cases hsrc
        rename_i hrep
        simp [MergePart.value, hrep, Const.toValue]
    | inst _ hsrc =>
      cases part with
      | kept =>
        simp only [MergePart.source] at hsrc
        split at hsrc <;> cases hsrc
        rename_i hrep
        refine (hget _ (.ref o) ?_).trans (by simp [MergePart.value, hrep])
        rw [H.reduced.ren_of_not_dead _ hnd, h.related.agree _ op hop hnd, hv]
      | _ => cases hsrc
    | load _ hsrc =>
      obtain ⟨rfl, -⟩ := Splitter.eq_of_source_load hsrc
      exact absurd rfl (hne _)
  · obtain ⟨y, hfeeds, hget⟩ := phiInput_part hX hk
    cases hfeeds with
    | const _ hsrc => cases hsrc
    | inst _ hsrc => cases hsrc
    | load _ hsrc hy hload =>
      cases hsrc
      obtain ⟨o', w, hv', hf, hw⟩ := hl _ hy _ _ hload
      obtain rfl : o = o' := by simpa [hv] using hv'
      refine ⟨w, hget _ _ ?_, fun _ _ o'' ho => ?_⟩
      · rw [H.ren_of_new (H.reduced.built.loads _ _ hy).1, hw]
      · cases ho
        exact hf

include hs hr hk hleaf in
theorem Beside.incoming_null (hi : i = .null x) (hx : x ∉ H.gone)
    (hav : m.body.Available x p (m.body.block p).insts.length)
    (hv : s.frame.values.get? x = some .null) :
    m.Incoming H org s s'.frame p phi .null k .null := by
  subst hi
  refine ⟨hleaf 0 _ rfl, fun _ => rfl, nofun, nofun, fun part X hX hne => ?_, fun fd X hX => ?_⟩
  · obtain ⟨y, hfeeds, hget⟩ := phiInput_part hX hk
    cases hfeeds with
    | const _ hsrc hy =>
      rw [hget _ _ (h.get?_const hp hy)]
      cases part with
      | field f => exact absurd rfl (hne f)
      | kept => cases hsrc
      | isNull =>
        cases hsrc
        rfl
      | selector start =>
        cases hsrc
        rfl
    | inst _ hsrc =>
      cases part with
      | kept =>
        cases hsrc
        exact hget _ _ (h.related.carries_of hs.framed hx ((reached_of_pred hr hp).2 hav) _ hv)
      | _ => cases hsrc
    | load _ hsrc => cases (Splitter.eq_of_source_load hsrc).2.choose_spec
  · obtain ⟨y, hfeeds, hget⟩ := phiInput_part hX hk
    cases hfeeds with
    | const _ hsrc hy => exact ⟨_, hget _ _ (h.get?_const hp hy), fun _ _ _ ho => nomatch ho⟩
    | inst _ hsrc => cases hsrc
    | load _ hsrc => cases hsrc

include hr hphi hin hk hleaf in
theorem Beside.incoming_phi {child} (hi : i = .phi child) (hv : s.frame.values.get? child = some v)
    : ∃ k leaf, m.Incoming H org s s'.frame p phi v k leaf := by
  subst hi
  have hchild := H.apart.children phi hphi child (mem_children hin)
  obtain ⟨j, leaf, hres⟩ := h.related.merges child hchild v hv
  have hhere : m.here s = .atEnd p := by simp [here, hr, hp]
  have hsub : (H.merges.desc child).leaves ⊆ (H.merges.desc phi).leaves := by
    intro l hl
    rw [(H.apart.summarized phi hphi).leaves]
    exact mem_flatMap.2 ⟨_, hin, hl⟩
  refine ⟨k + j, leaf, hleaf j leaf hres.found, hres.null, hres.alloc, fun n x he => ?_,
    fun part X hX hne => ?_, fun fd X hX => ?_⟩
  · obtain ⟨o, ho, horg, hx⟩ := hres.object n x he
    refine ⟨o, ho, horg, fun stop hc => hx ?_⟩
    rw [hhere]
    exact (hc.of_child hin).mono fun x => reallocOf_mono hsub
  · obtain ⟨y, hfeeds, hget⟩ := phiInput_part hX hk
    cases hfeeds with
    | nested hy =>
      have hval := hres.part _ y hy (by cases part <;> simp_all [MergePart.numberedFrom])
      rw [hget _ _ ((congrArg _ (H.ren_of_new (H.reduced.built.parts _ hy).1)).trans hval)]
      cases part <;> simp [MergePart.value, MergePart.numberedFrom, MergePart.start, Nat.add_assoc]
    | const hi => cases hi
    | inst hi => cases hi
    | load hi => cases hi
  · obtain ⟨y, hfeeds, hget⟩ := phiInput_part hX hk
    cases hfeeds with
    | nested hy =>
      obtain ⟨w, hw, hf⟩ := hres.field fd y hy
      refine ⟨w, hget _ _ ?_, fun stop hc o ho => hf ?_ o ho⟩
      · rwa [H.ren_of_new (H.reduced.built.parts _ hy).1]
      · rw [hhere]
        exact (hc.of_child hin).mono fun x => clobberOf_mono hsub
    | const hi => cases hi
    | inst hi => cases hi
    | load hi => cases hi

include hs hr hphi in
theorem Beside.incoming (hl : m.Loaded H (H.extra p) s s'.frame.values)
    (hv : m.phiInput s.frame p phi = .ok v) (href : v = .null ∨ ∃ o, v = .ref o) :
    ∃ k leaf, m.Incoming H org s s'.frame p phi v k leaf := by
  obtain ⟨inputs, y, hop, hfind, hvy⟩ := phiInput_eq_ok.1 hv
  obtain ⟨inputs', hop', hinputs⟩ := (H.described hphi).inputs
  obtain rfl : inputs = inputs' := by simpa [hop] using hop'
  have hav := H.available_input hphi hop (mem_of_find?_eq_some hfind)
  have hfind' : (H.merges.desc phi).inputs.find? (·.1 == p) =
      some (p, .of m.body H.graph H.cands y) := by
    rw [hinputs, List.find?_map]
    exact Option.map_eq_some_iff.2 ⟨(p, y), hfind, rfl⟩
  have hin := mem_of_find?_eq_some hfind'
  obtain ⟨k, hk, hleaf⟩ := find?_numbered (m := H.merges) (H.apart.reducible phi hphi).known hfind'
  rw [← (H.apart.summarized phi hphi).leaves] at hleaf
  generalize hi : MergeInput.of m.body H.graph H.cands y = i at hin hk hleaf
  cases i with
  | alloc n x =>
    obtain ⟨rfl, -, -⟩ := MergeInput.of_eq_alloc hi
    exact ⟨_, _, h.incoming_alloc hs hp hphi hin hk hleaf rfl hl hvy⟩
  | null x =>
    obtain ⟨rfl, hcand, hnull⟩ := MergeInput.of_eq_null hi
    obtain rfl := href.resolve_right fun ⟨o, ho⟩ => hs.not_ref_of_isNull hnull (ho ▸ hvy)
    refine ⟨_, _, h.incoming_null hs hr hp hk hleaf rfl (fun hgone => hcand ?_) hav hvy⟩
    exact (H.faithful.keys y).1 (H.apart.keys y hgone)
  | phi child =>
    obtain ⟨rfl, -⟩ := MergeInput.of_eq_phi hi
    exact h.incoming_phi hr hp hphi hin hk hleaf rfl hvy
  | unknown x => exact absurd rfl ((H.apart.reducible phi hphi).known _ hin x)

end Incoming

/-- A leaf that has not been allocated again since the merge is no phi of the block. -/
theorem not_mem_phis_of_clean {body merges b n}
    (hc : Clean body merges (reallocOf (merges.desc phi)) phi (.before b (body.phiCount b)))
    (hlead : body.flow.Leads (merges.desc phi).block b) (hl : .alloc n x ∈ (merges.desc phi).leaves)
    : x ∉ body.phis b := by
  intro hx
  obtain ⟨j, hj⟩ := mem_iff_getElem?.1 hx
  have hlt : j < body.phiCount b := (List.getElem?_eq_some_iff.1 hj).1
  have hhit := hc.own b j x (by rw [Body.insts_eq, List.getElem?_append_left hlt, hj])
    (.own hlead hlt)
  simp only [reallocOf, decide_eq_false_iff_not, mem_eraseDups, mem_map] at hhit
  exact hhit ⟨(n, x), mem_filterMap.2 ⟨_, hl, rfl⟩, rfl⟩

theorem here_enter {frame} (hf : m.Enters s frame) :
    m.here (m.inside s frame) =
      .before s.frame.block (m.body.phiCount s.frame.block) := by
  obtain ⟨_, -, -, rfl⟩ := enterPhis_spec hf
  simp [here, Body.position_code]

section Enter

variable (h : m.Beside H org s s') (hs : m.Surveyed H.graph org holds s)
  (hb : s.frame.block ∈ m.body.order) (hr : s.rest = none)
  (hp : s.frame.pred = some p)

include h hs hb hr hp in
theorem Beside.phiInput_kept (hx : x ∈ m.body.phis s.frame.block) (hnd : x ∉ H.dead)
    (hv : m.phiInput s.frame p x = .ok v) : (m.split H).phiInput s'.frame p x = .ok v := by
  obtain ⟨inputs, y, hop, hfind, hvy⟩ := phiInput_eq_ok.1 hv
  have hmem := Body.mem_insts_of_mem_phis hx
  have hin := mem_of_find?_eq_some hfind
  obtain ⟨i, hi⟩ := mem_iff_getElem?.1 hmem
  obtain ⟨op', hop', hcheck⟩ := H.checked.inst _ hb i x hi
  obtain rfl := Option.mem_unique hop hop'
  have hy : y ∉ H.gone :=
    H.reduced.users _ hb x hmem hnd _ hop y (mem_map.2 ⟨(p, y), hin, rfl⟩)
  have hav := (hcheck.phi inputs rfl).available _ hin
  refine phiInput_eq_ok.2 ⟨_, H.ren y, H.reduced.op_old _ hb x hmem hnd _ hop, ?_,
    h.related.carries_of hs.framed hy ((reached_of_pred hr hp).2 hav) v hvy⟩
  rw [List.find?_map]
  exact Option.map_eq_some_iff.2 ⟨(p, y), hfind, rfl⟩

variable {frame frame' : Frame}
  (hf : m.Enters s frame)
  (hnull : ∀ x v, m.body.isRef x = true → frame.values.get? x = some v →
    v = .null ∨ ∃ o, v = .ref o)

include h hs hb hr hf hnull in
/-- What a merge of the block takes over, and what its parts take over. -/
theorem Beside.exists_incoming
    (hl : ∀ p, s.frame.pred = some p → m.Loaded H (H.extra p) s s'.frame.values)
    (hphi : phi ∈ H.gone) (hblock : (H.merges.desc phi).block = s.frame.block) :
    ∃ p v k leaf, s.frame.pred = some p ∧ frame.values.get? phi = some v ∧
      m.Incoming H org s s'.frame p phi v k leaf := by
  obtain ⟨-, hset⟩ := hs.framed.enterPhis H.wf (H.checked.nodup_phis hb) hf
  have hd := H.described hphi
  obtain ⟨p, v, hp, hin, hv⟩ := hset phi (hblock ▸ hd.mem_phis)
  obtain ⟨k, leaf, hinc⟩ := h.incoming hs hr hp hphi (hl p hp) hin (hnull phi v hd.isRef hv)
  exact ⟨p, v, k, leaf, hp, hv, hinc⟩

include h hs hb hr hf hnull in
theorem Beside.exists_enterPhis
    (hl : ∀ p, s.frame.pred = some p → m.Loaded H (H.extra p) s s'.frame.values) :
    ∃ frame', (m.split H).enterPhis s'.frame (H.result.phis s.frame.block) = .ok frame' := by
  obtain ⟨-, hset⟩ := hs.framed.enterPhis H.wf (H.checked.nodup_phis hb) hf
  refine Machine.exists_enterPhis fun X hX => ?_
  rw [h.pred]
  rw [H.reduced.phis _ hb, mem_append, mem_filter, decide_eq_true_eq] at hX
  rcases hX with ⟨hx, hnd⟩ | hX
  · obtain ⟨p, v, hp, hin, -⟩ := hset X hx
    exact ⟨p, v, hp, h.phiInput_kept hs hb hr hp hx hnd hin⟩
  · obtain ⟨⟨phi, part⟩, hX, hblock⟩ := H.mem_newPhis.1 hX
    have hphi := (H.reduced.built.parts _ hX).2.1
    obtain ⟨p, v, k, leaf, hp, -, hinc⟩ := h.exists_incoming hs hb hr hf hnull hl hphi hblock
    obtain ⟨w, hw⟩ := hinc.exists_phiInput hX
    exact ⟨p, w, hp, hw⟩

section Related

variable (hf' : (m.split H).enterPhis s'.frame (H.result.phis s.frame.block) = .ok frame')
  (horg : ∀ o, s.heap.Live o → org' o = org o)
include h hs hb hr hp hf hnull hf' horg

theorem Beside.resolved_enter (hl : m.Loaded H (H.extra p) s s'.frame.values) (hphi : phi ∈ H.gone)
    (hblock : (H.merges.desc phi).block = s.frame.block) (hv : frame.values.get? phi = some v) :
    ∃ k leaf, m.Resolved H org'
      (m.inside s frame) frame'.values phi v k leaf := by
  obtain ⟨hkeep, -⟩ := hs.framed.enterPhis H.wf (H.checked.nodup_phis hb) hf
  obtain ⟨-, hset'⟩ := h.framed.enterPhis H.reduced.wf (H.nodup_phis hb) hf'
  have hhere := here_enter hf
  obtain ⟨p', v', k, leaf, hp', hv', hinc⟩ := h.exists_incoming hs hb hr hf hnull
    (fun p' hp' => by
      obtain rfl := Option.mem_unique hp hp'
      exact hl) hphi hblock
  obtain rfl := Option.mem_unique hp hp'
  obtain rfl := Option.mem_unique hv hv'
  have hpart : ∀ part X w, ((phi, part), X) ∈ H.splitter.parts →
      (m.split H).phiInput s'.frame p X = .ok w → frame'.values.get? X = some w := by
    intro part X w hX hw
    obtain ⟨p', w', hp', hin, hw'⟩ := hset' X ((H.part_mem_phis hb hX).2 hblock)
    obtain rfl : p = p' := by simpa [h.pred, hp] using hp'
    obtain rfl : w = w' := by simpa [hw] using hin
    exact hw'
  refine ⟨k, leaf, ?_⟩
  exact
    { found := hinc.found
      leads := by
        rw [hhere, hblock]
        exact .refl
      null := hinc.null
      alloc := hinc.alloc
      object := fun n x hx => by
        obtain ⟨o, ho, hn, hval⟩ := hinc.object n x hx
        refine ⟨o, ho, (horg o ?_).trans hn, fun hc => ?_⟩
        · obtain ⟨-, obj, hobj, -⟩ := hs.sound.heap.created o n hn
          exact ⟨obj, hobj⟩
        · rw [hhere] at hc
          have hleaf := mem_of_getElem? hinc.found
          refine (hkeep x ?_).trans (hval _ hc)
          exact not_mem_phis_of_clean hc (hblock ▸ .refl) (hx ▸ hleaf)
      part := fun part X hX hne => hpart part X _ hX (hinc.part part X hX hne)
      field := fun fd X hX => by
        obtain ⟨w, hw, hfield⟩ := hinc.field fd X hX
        exact ⟨w, hpart _ X w hX hw, hfield _⟩ }

/-- Entering a block keeps what the values of the new run tell. -/
theorem Beside.related_enter (hl : m.Loaded H (H.extra p) s s'.frame.values) :
    m.Related H org' (m.inside s frame) frame'.values := by
  obtain ⟨incoming, -, -, hframe⟩ := enterPhis_spec hf
  obtain ⟨hkeep, hset⟩ := hs.framed.enterPhis H.wf (H.checked.nodup_phis hb) hf
  obtain ⟨hkeep', hset'⟩ := h.framed.enterPhis H.reduced.wf (H.nodup_phis hb) hf'
  have hfb : frame.block = s.frame.block := by rw [hframe]
  have hhere := here_enter hf
  have hedge : m.body.flow.Edge p s.frame.block :=
    Body.edge_iff.2 ⟨(hs.sound.located.pred hr p hp).2, H.wf.live_of_mem_order hb⟩
  refine ⟨fun x op hop hnd => ?agree, fun u hu hgone hreach => ?carries,
    fun phi hphi v hv => ?merges, .inr fun e he => ?consts⟩
  case agree =>
    change frame'.values.get? x = frame.values.get? x
    by_cases hx : x ∈ m.body.phis s.frame.block
    · obtain ⟨p1, v, hp1, hin, hv⟩ := hset x hx
      obtain ⟨p2, v', hp2, hin', hv'⟩ := hset' x ((H.mem_phis_old hb hop).2 ⟨hx, hnd⟩)
      obtain rfl : p1 = p2 := by simpa [h.pred, hp1] using hp2
      rw [h.phiInput_kept hs hb hr hp1 hx hnd hin] at hin'
      cases hin'
      rw [hv, hv']
    · rw [hkeep x hx, hkeep' x fun hx' => hx ((H.mem_phis_old hb hop).1 hx').1]
      exact h.related.agree x op hop hnd
  case carries =>
    obtain ⟨op, hop, -, -, hnphi⟩ := H.op?_of_dead hu
    have hu' : u ∉ m.body.phis s.frame.block := by
      intro hmem
      have := (Body.isPhi_of_op? hop).symm.trans (Body.isPhi_of_mem_phis hmem)
      simp [hnphi hgone] at this
    have hav : m.body.Available u s.frame.block 0 := by
      rw [reached_of_rest rfl, hfb, Body.position_code] at hreach
      exact hreach.of_phiCount hu'
    intro v hv
    rw [hkeep' _ (H.ren_not_mem_phis hb hu hgone hav)]
    exact h.related.carries u hu hgone (hs.sound.located.reached H.wf hr hb hav) v
      ((hkeep u hu').symm.trans hv)
  case merges =>
    by_cases hblock : (H.merges.desc phi).block = s.frame.block
    · exact h.resolved_enter hs hb hr hp hf hnull hf' horg hl hphi hblock hv
    · have hphi' : phi ∉ m.body.phis s.frame.block := by
        intro hmem
        obtain ⟨inst, hinst⟩ := Body.live_of_mem_phis hmem
        obtain ⟨i, hi⟩ := mem_iff_getElem?.1 (Body.mem_insts_of_mem_phis hmem)
        obtain ⟨j, hj⟩ :=
          mem_iff_getElem?.1 (Body.mem_insts_of_mem_phis (H.described hphi).mem_phis)
        exact hblock (H.checked.once _ inst hinst _ _ _ _ hj hi).1
      have hv' := (hkeep phi hphi').symm.trans hv
      obtain ⟨k, leaf, hres⟩ := h.related.merges phi hphi v hv'
      have hs_here : m.here s = .atEnd p := by simp [here, hr, hp]
      have hlead := hres.leads
      rw [hs_here] at hlead
      refine ⟨k, leaf, hres.move ?_ ?_ ?_ ?_ ?_ fun _ _ _ _ _ _ _ _ hfield => hfield⟩
      · rw [hhere]
        exact hlead.step hedge
      · rintro o rfl
        exact horg o (hs.sound.frame phi o hv').1
      · intro hit hc
        rw [hhere] at hc
        rw [hs_here]
        exact hc.of_edge hedge
      · rintro n x rfl hc
        rw [hhere] at hc
        exact hkeep x
          (not_mem_phis_of_clean hc (hlead.step hedge) (mem_of_getElem? hres.found))
      · intro part X w hX hw
        exact (hkeep' X fun hX' => hblock ((H.part_mem_phis hb hX).1 hX')).trans hw
  case consts =>
    refine (hkeep' _ (H.const_not_mem_phis hb he)).trans ?_
    exact h.related.consts.resolve_left (fun hstart => by simp [hp] at hstart) e he

end Related

end Enter

theorem enterPhis_of_pred_none {f' phis} (hp : f.pred = none) (h : m.enterPhis f phis = .ok f') :
    f' = f := by
  cases phis with
  | nil => exact (Except.pure_eq_ok.1 h).symm
  | cons x phis => simp [enterPhis, hp, throw, throwThe, MonadExceptOf.throw] at h

variable (m H) in
theorem steps_consts (host : Host σ) (tail : List InstId) : ∀ (cs : List (Const × InstId))
    (u : RunState σ), cs ⊆ H.splitter.consts → (m.split H).Framed u →
    u.rest = some (cs.map Prod.snd ++ tail) → ∃ values,
      (m.split H).Steps host u { u with frame := { u.frame with values }, rest := some tail } ∧
      values.Within H.result.insts ∧ (∀ e ∈ cs, values.get? e.2 = some e.1.toValue) ∧
      ∀ y, (∀ e ∈ cs, e.2 ≠ y) → values.get? y = u.frame.values.get? y
  | [], u, _, hu, hr => by
    refine ⟨u.frame.values, ?_, hu, by simp, fun _ _ => rfl⟩
    obtain ⟨frame, rest, heap, state⟩ := u
    cases hr
    exact .refl _
  | (c, X) :: cs, u, hsub, hu, hr => by
    have hop := H.op?_const (hsub (.head _))
    have hstep : (m.split H).Step host u
        { u with frame := u.frame.set X c.toValue, rest := some (cs.map Prod.snd ++ tail) } := by
      have he : (m.split H).eval u.frame u.heap X (.const c) = .ok (.value c.toValue) := rfl
      exact .op hr hop rfl (.plain rfl he)
    have hget := fun y => hu.get?_setResult H.reduced.wf hop (some c.toValue) y
    simp only [Frame.setResult_some, Option.some_or] at hget
    obtain ⟨values, hsteps, hframed, hcs, hother⟩ := steps_consts host tail cs _
      (fun e he => hsub (.tail _ he)) (hu.step hstep) rfl
    refine ⟨values, hsteps.head hstep, hframed, fun e he => ?_, fun y hy => ?_⟩
    · rcases mem_cons.1 he with rfl | he
      · by_cases hX : ∃ e ∈ cs, e.2 = X
        · -- the same name is made again, for the same constant
          obtain ⟨e, hmem, rfl⟩ := hX
          have hop' := H.op?_const (hsub (.tail _ hmem))
          obtain rfl : c = e.1 := by simpa [hop] using hop'
          exact hcs e hmem
        · rw [hother X fun e he hX' => hX ⟨e, he, hX'⟩]
          exact (hget X).trans (if_pos rfl)
      · exact hcs e he
    · rw [hother y fun e he => hy e (.tail _ he)]
      exact (hget y).trans (if_neg (Ne.symm (hy _ (.head _))))

theorem InStep.enter (h : m.InStep H org s s') (hs : m.Surveyed H.graph org holds s)
    (hb : s.frame.block ∈ m.body.order) (hr : s.rest = none) {frame}
    (hf : m.Enters s frame)
    (hnull : ∀ x v, m.body.isRef x = true → frame.values.get? x = some v →
      v = .null ∨ ∃ o, v = .ref o) (horg : ∀ o, s.heap.Live o → org' o = org o) :
    ∃ t', (m.split H).Steps host s' t' ∧
      m.InStep H org' (m.inside s frame) t' := by
  cases h.aligned with
  | main _ _ hrest => simp [hr] at hrest
  | last _ _ hrest => simp [hr] at hrest
  | entering _ hr' hp hstart =>
    obtain ⟨frame', hf'⟩ := h.exists_enterPhis hs hb hr hf hnull hp
    have hstep : (m.split H).Step host s'
        { s' with frame := frame', rest := some (H.result.code s.frame.block) } := by
      rw [← h.block]
      exact .enter hr' (h.block ▸ hf')
    have hblock : frame.block = s.frame.block := by
      obtain ⟨_, -, -, rfl⟩ := enterPhis_spec hf
      rfl
    have hbeside : frame'.block = frame.block ∧ frame'.pred = frame.pred ∧
        frame'.exception = frame.exception := by
      obtain ⟨_, -, -, rfl⟩ := enterPhis_spec hf
      obtain ⟨_, -, -, rfl⟩ := enterPhis_spec hf'
      exact ⟨h.block, h.pred, h.exception⟩
    -- in the entry, the constants come next
    generalize hcs : (if s.frame.block = H.splitter.body.entry then H.splitter.consts else []) = cs
    have hsub : cs ⊆ H.splitter.consts := by
      rw [← hcs]
      split
      · exact List.Subset.refl _
      · exact nil_subset _
    have hcode : H.result.code s.frame.block = cs.map Prod.snd ++
        ((m.body.mainCode s.frame.block).filter (· ∉ H.dead) ++
          (H.extra s.frame.block ++ m.body.lastCall s.frame.block)) := by
      rw [H.reduced.code _ hb, Splitter.newConsts, ← hcs]
      split <;> rfl
    obtain ⟨values, hsteps, hframed, hconsts, hother⟩ := steps_consts m H host _ cs _ hsub
      (h.framed.step hstep) (congrArg some hcode)
    refine ⟨_, hsteps.head hstep, ⟨?related, hframed, hbeside.1, hbeside.2.1, hbeside.2.2, h.heap,
      h.host⟩, ?aligned⟩
    case related =>
      have hold : ∀ x op, m.body.op? x = some op → values.get? x = frame'.values.get? x :=
        fun x op hop => hother x fun e he => H.ne_of_names (.inr ⟨_, hsub he⟩) hop
      rcases hpred : s.frame.pred with _ | p
      · obtain rfl := enterPhis_of_pred_none hpred hf
        obtain rfl := enterPhis_of_pred_none (h.pred.trans hpred) hf'
        refine ⟨fun x op hop hnd => (hold x op hop).trans (h.related.agree x op hop hnd),
          fun u _ _ _ v hv => ?_, fun phi _ v hv => ?_, .inr fun e he => hconsts e ?_⟩
        · simp [hstart hpred] at hv
        · simp [hstart hpred] at hv
        · rw [← hcs, if_pos (by rw [hs.sound.located.entry hr hpred, H.reduced.built.entry])]
          exact he
      · have hrel := h.related_enter hs hb hr hpred hf hnull hf' horg (hp p hpred)
        refine hrel.congr (fun x op hop _ => hold x op hop) fun X w _ hw => ?_
        by_cases hX : ∃ e ∈ cs, e.2 = X
        · obtain ⟨e, he, rfl⟩ := hX
          have := hrel.consts.resolve_left (fun hstart => by simp at hstart) e (hsub he)
          rw [hconsts e he, ← hw, this]
        · exact (hother X fun e he hX' => hX ⟨e, he, hX'⟩).trans hw
    case aligned =>
      refine .main (m.body.mainCode s.frame.block) ?_ ?_ ?_
      · simp [hblock]
      · rw [hblock]
        exact congrArg some (Body.code_eq H.checked hb)
      · rw [hblock]

end Machine

end EscapeAnalysis
