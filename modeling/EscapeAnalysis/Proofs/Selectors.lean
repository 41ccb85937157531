import EscapeAnalysis.Proofs.SplitEntries

/-!
# Selectors number the leaves

The selector of a merge is a phi over the numbers of its leaves, where a nested merge counts from
its place among the leaves of the outer one. Whatever way a merge is resolved down to a leaf, the
phis made for it follow along the same edges, and selector, carrier and candidates agree on that
leaf (`Reduction.selectors_agree`).
-/

namespace EscapeAnalysis

/-- The instruction that `x` comes down to if the phis on the way are entered from the given
blocks, beginning with `x` itself. -/
def Body.along (body : Body) : List BlockId → InstId → Option InstId
  | [], x => some x
  | b :: bs, x =>
    match body.op? x with
    | some (.phi inputs) => (inputs.find? (·.1 == b)).bind fun e => body.along bs e.2
    | _ => none

theorem Body.along_cons {body : Body} {x y b bs inputs} (hop : body.op? x = some (.phi inputs))
    (hy : inputs.find? (·.1 == b) = some (b, y)) : body.along (b :: bs) x = body.along bs y := by
  simp [along, hop, hy]

namespace Merges

variable {m : Merges} {phi : InstId} {bs : List BlockId} {i : MergeInput}

/-- Entered from the given blocks, the merge and those nested in it come down to an input that is
no merge. -/
inductive Resolves (m : Merges) : InstId → List BlockId → MergeInput → Prop
  | leaf {phi : InstId} {b i} (h : (m.desc phi).inputs.find? (·.1 == b) = some (b, i))
      (hi : i.child? = none) : Resolves m phi [b] i
  | nested {phi child : InstId} {b bs i}
      (h : (m.desc phi).inputs.find? (·.1 == b) = some (b, .phi child)) (hr : Resolves m child bs i) :
      Resolves m phi (b :: bs) i

theorem Resolves.child?_eq_none (h : m.Resolves phi bs i) : i.child? = none := by
  induction h with
  | leaf _ hi => exact hi
  | nested _ _ ih => exact ih

/-- What debug states say of the leaves of a merge. -/
def candidateValues (m : Merges) (replaced : Nat → Bool) (phi : InstId) : List DebugValue :=
  (m.desc phi).leaves.map fun
    | .alloc n x => if replaced n then .value x else .const .null
    | .null => .const .null

theorem inst_of (body : Body) (g : Graph) (cands : List InstId) (x : InstId) :
    (MergeInput.of body g cands x).inst = x := by
  simp only [MergeInput.of]
  repeat' split
  all_goals rfl

variable {body : Body} {g : Graph} {cands : List InstId}

theorem Resolves.along (hl : m.Listed body g cands) (h : m.Resolves phi bs i)
    (hphi : phi ∈ m.keys) : body.along bs phi = some i.inst := by
  have step : ∀ {phi b i}, phi ∈ m.keys → (m.desc phi).inputs.find? (·.1 == b) = some (b, i) →
      ∀ bs, body.along (b :: bs) phi = body.along bs i.inst := by
    intro phi b i hphi hfind bs
    obtain ⟨inputs, hop, hin⟩ := (hl.noted phi hphi).inputs
    rw [hin, List.find?_map, Option.map_eq_some_iff] at hfind
    obtain ⟨⟨b', x⟩, hx, he⟩ := hfind
    simp only [Prod.mk.injEq] at he
    obtain ⟨rfl, rfl⟩ := he
    rw [inst_of]
    exact Body.along_cons hop hx
  induction h with
  | leaf h hi => exact step hphi h []
  | @nested phi child b bs i h hr ih =>
    have hchild := hl.children phi hphi child (mem_children (List.mem_of_find?_eq_some h))
    exact (step hphi h bs).trans (ih hchild)

end Merges

namespace Splitter

variable {p : Program} {body : Body} {g : Graph} {m : Merges} {replaced : Nat → Bool}
  {gone : List InstId} {extra : BlockId → List InstId} {s : Splitter} {phi X Y z : InstId}
  {bs : List BlockId} {i : MergeInput} {part : MergePart} {k : Nat}

/-- The instruction holds what the part of an input is made from. -/
def Holds (body : Body) (z : InstId) : MergePart.Source → Prop
  | .const c => body.op? z = some (.const c)
  | .inst x => z = x
  | .load obj f => body.op? z = some (.loadField obj f)

theorem source_numberedFrom (j k : Nat) (part : MergePart) :
    (part.numberedFrom (part.start + k)).source p replaced
        ((part.numberedFrom (part.start + k)).start + j) i =
      part.source p replaced (part.start + (k + j)) i := by
  cases part <;> simp [MergePart.numberedFrom, MergePart.start, MergePart.source, Nat.add_assoc]

/-- What selector and carrier come down to for the leaf `i`, where leaves are numbered from `k`. If
the leaf is replaced, the selector is the number of a candidate that names it and the carrier is
null; otherwise the selector is -1 and the carrier is the leaf. -/
def Tells (body : Body) (replaced : Nat → Bool) (candidates : List DebugValue) (k : Nat)
    (selector carrier : InstId) : MergeInput → Prop
  | .alloc n x =>
    if replaced n then
      (∃ j, body.op? selector = some (.const (.int (.ofNat (k + j)))) ∧
        candidates[j]? = some (.value x)) ∧ body.op? carrier = some (.const .null)
    else body.op? selector = some (.const (.int (-1))) ∧ carrier = x
  | i => body.op? selector = some (.const (.int (-1))) ∧ carrier = i.inst

/-- Whatever way a merge is resolved, `X` and `Y` come down to what selector and carrier should
say of the leaf. -/
def Agree (m : Merges) (replaced : Nat → Bool) (phi : InstId) (body : Body) (k : Nat)
    (X Y : InstId) : Prop :=
  ∀ bs i, m.Resolves phi bs i → ∃ z z', body.along bs X = some z ∧ body.along bs Y = some z' ∧
    Tells body replaced (m.candidateValues replaced phi) k z z' i

section

variable (h : Built p body g m replaced gone extra s)
include h

theorem Feeds.holds {b} (hf : Feeds p replaced s extra part b i k z) (hi : i.child? = none) :
    Holds s.body z (part.source p replaced k i) := by
  cases hf with
  | nested => cases hi
  | const _ hs hc => simpa [Holds, hs] using (h.consts _ hc).2
  | inst _ hs => simp [Holds, hs]
  | load _ hs _ hop => simpa [Holds, hs] using hop

/-- The leaf that a merge comes down to has a number, and every part of the merge comes down to what
it is to say of the leaf with that number. -/
theorem Built.along_part
    (ha : Merges.Apart p body g m gone) (hr : m.Resolves phi bs i) (hphi : phi ∈ gone) :
    ∃ j leaf, m.inputLeaves i = [leaf] ∧ (m.desc phi).leaves[j]? = some leaf ∧
      ∀ part X, ((phi, part), X) ∈ s.parts → ∃ z, s.body.along bs X = some z ∧
        Holds s.body z (part.source p replaced (part.start + j) i) := by
  have step : ∀ {phi b i}, phi ∈ gone → (m.desc phi).inputs.find? (·.1 == b) = some (b, i) →
      ∃ k, (∀ j leaf, (m.inputLeaves i)[j]? = some leaf → (m.desc phi).leaves[k + j]? = some leaf) ∧
        ∀ part X, ((phi, part), X) ∈ s.parts → ∃ y, Feeds p replaced s extra part b i
          (part.start + k) y ∧ ∀ bs, s.body.along (b :: bs) X = s.body.along bs y := by
    intro phi b i hphi hfind
    obtain ⟨k, hk, hleaf⟩ := Merges.find?_numbered (ha.reducible phi hphi).known hfind
    refine ⟨k, (ha.summarized phi hphi).leaves ▸ hleaf, fun part X hX => ?_⟩
    obtain ⟨-, -, -, inputs, hop, hin⟩ := h.parts _ hX
    obtain ⟨y, hy, hfeeds⟩ := hin.find? (hk _)
    exact ⟨y, hfeeds, fun bs => Body.along_cons hop hy⟩
  -- a leaf of a nested merge comes behind the leaves of the inputs in front of that merge
  induction hr with
  | @leaf phi b i hfind hi =>
    obtain ⟨k, hleaf, hfeeds⟩ := step hphi hfind
    obtain ⟨leaf, hone⟩ : ∃ leaf, m.inputLeaves i = [leaf] := by
      cases i with
      | alloc => exact ⟨_, rfl⟩
      | null => exact ⟨_, rfl⟩
      | phi => cases hi
      | unknown x =>
        exact absurd rfl ((ha.reducible phi hphi).known _ (List.mem_of_find?_eq_some hfind) x)
    refine ⟨k, leaf, hone, hleaf 0 leaf (by simp [hone]), fun part X hX => ?_⟩
    obtain ⟨y, hy, halong⟩ := hfeeds part X hX
    exact ⟨y, halong [], hy.holds h hi⟩
  | @nested phi child b bs i hfind hr ih =>
    obtain ⟨k, hleaf, hfeeds⟩ := step hphi hfind
    have hchild := ha.children phi hphi child
      (Merges.mem_children (List.mem_of_find?_eq_some hfind))
    obtain ⟨j, leaf, hone, hj, hparts⟩ := ih hchild
    refine ⟨k + j, leaf, hone, hleaf j leaf hj, fun part X hX => ?_⟩
    obtain ⟨y, hy, halong⟩ := hfeeds part X hX
    cases hy with
    | nested hY =>
      obtain ⟨z, hz, hholds⟩ := hparts _ y hY
      exact ⟨z, (halong bs).trans hz, source_numberedFrom j k part ▸ hholds⟩
    | const hi => cases hi
    | inst hi => cases hi
    | load hi => cases hi

theorem Built.agree (ha : Merges.Apart p body g m gone) (hX : ((phi, .selector k), X) ∈ s.parts)
    (hY : ((phi, .kept), Y) ∈ s.parts) : Agree m replaced phi s.body k X Y := by
  intro bs i hr
  obtain ⟨-, hphi, -⟩ := h.parts _ hX
  obtain ⟨j, leaf, hone, hj, hparts⟩ := h.along_part ha hr hphi
  obtain ⟨z, hz, hsel⟩ := hparts _ X hX
  obtain ⟨z', hz', hkept⟩ := hparts _ Y hY
  refine ⟨z, z', hz, hz', ?_⟩
  cases i with
  | alloc n x =>
    obtain rfl : Leaf.alloc n x = leaf := by simpa [Merges.inputLeaves] using hone
    by_cases hn : replaced n = true
    · simp only [MergePart.source, hn, if_true, Holds, MergePart.start] at hsel hkept
      simp only [Tells, hn, if_true]
      exact ⟨⟨j, hsel, by simp [Merges.candidateValues, hj, hn]⟩, hkept⟩
    · simp only [MergePart.source, hn, Bool.false_eq_true, if_false, Holds] at hsel hkept
      simp only [Tells, hn, Bool.false_eq_true, if_false]
      exact ⟨hsel, hkept⟩
  | phi x => cases hr.child?_eq_none
  | null x => exact ⟨hsel, hkept⟩
  | unknown x => exact ⟨hsel, hkept⟩

end

end Splitter

namespace Reduction

variable {p : Program} {body : Body} {g : Graph} {leftOut : InstId → Bool}
  {blacklist : List InstId} {enabled : Bool} {b b' : Budget} {a : MergeAnalysis}
  {replaced : Nat → Bool} {registry : Registry} {webs : List Web} {r : Reduction}

/-- After some webs have been taken apart, all selectors and carriers made for their merges agree
with the candidates on every leaf, and so do those that are asked for then, with leaves numbered
from any `k`. -/
theorem selectors_agree (hwf : body.WellFormed) (hi : body.Issued) (hc : body.Checked)
    (ha : Metered.Yields (MergeAnalysis.compute p body g leftOut blacklist enabled) b a b')
    (hwebs : ∀ w ∈ webs, w ∈ a.webs ∧ w.obstacle = none)
    (hr : webs.foldlM (reduceWeb p a replaced body.uses) { splitter := { body }, registry } =
      .ok r) :
    (∀ phi k X Y, ((phi, .selector k), X) ∈ r.splitter.parts →
      ((phi, .kept), Y) ∈ r.splitter.parts →
      Splitter.Agree a.merges replaced phi r.splitter.body k X Y) ∧
    ∀ w ∈ webs, ∀ phi ∈ w.phis,
      (∀ bs i, a.merges.Resolves phi bs i → body.along bs phi = some i.inst) ∧
      (∀ k, let (X, s) := part p a replaced w (.selector k) phi r.splitter
        let (Y, s') := part p a replaced w .kept phi s
        Splitter.Agree a.merges replaced phi s'.body k X Y) ∧
      ∃ X Y s, debugValue p a replaced w phi r.splitter =
          (.merge X Y (a.merges.candidateValues replaced phi), s) ∧
        Splitter.Agree a.merges replaced phi s.body 0 X Y := by
  obtain ⟨hf, hsettled⟩ := MergeAnalysis.settled_of_compute hwf hi hc ha
  have hset := fun w hw => hsettled w (hwebs w hw).1 (hwebs w hw).2
  have hapart := Merges.apart_of_settled hwf hi hc hf hset
  have H : Separable p body g a.merges (Merges.candidates body g leftOut) (webs.flatMap Web.phis) :=
    ⟨hwf, hi, hc, hf, hapart⟩
  have hsub : ∀ w ∈ webs, w.phis ⊆ webs.flatMap Web.phis := fun w hw q hq =>
    List.mem_flatMap.2 ⟨w, hw, hq⟩
  have hstart := Reducing.start p g a.merges replaced (webs.flatMap Web.phis) registry hwf hc
  have hend := Reducing.reduceWebs H (fun w hw => ⟨hset w hw, hsub w hw⟩) ⟨_, _, hstart, rfl⟩
  rw [hr] at hend
  obtain ⟨extra, table, h, -⟩ := hend
  refine ⟨fun phi k X Y => h.built.agree hapart, fun w hw phi hphi =>
    ⟨fun bs i hres => hres.along hf.listed ((hset w hw).keys phi hphi), fun k => ?_, ?_⟩⟩
  · have hselector : Splitter.Wanted p g a.merges phi (.selector k) := by rintro f ⟨⟩
    have hkept : Splitter.Wanted p g a.merges phi .kept := by rintro f ⟨⟩
    obtain ⟨extra₁, h₁, -, hX⟩ := makes_part H (hset w hw) (hsub w hw) hphi hselector _ _ h.built
    obtain ⟨extra₂, h₂, hg, hY⟩ := makes_part H (hset w hw) (hsub w hw) hphi hkept _ _ h₁
    exact h₂.agree hapart (hg.parts hX) hY
  · obtain ⟨extra', h', -, X, Y, hX, hY, hv⟩ :=
      Reducing.makes_debugValue H (hset w hw) (hsub w hw) hphi _ _ h.built
    exact ⟨X, Y, _, Prod.ext hv rfl, h'.agree hapart hX hY⟩

def plainClass : Program where
  classes := .ofEntries [{ name := "Plain", parent := none, layout := [], flags := {} }]
  fields := .ofEntries []

/-- Leaves compiled code with an object that was made in one of three branches, two of which meet
first. -/
def chooseTwice : Body where
  blocks := .ofEntries
    [{ insts := [⟨0, 1⟩], term := .branch ⟨0, 1⟩ ⟨1, 1⟩ ⟨2, 1⟩ },
      { insts := [⟨1, 1⟩], term := .jump ⟨3, 1⟩ },
      { insts := [⟨2, 1⟩], term := .jump ⟨3, 1⟩ },
      { insts := [⟨3, 1⟩], term := .branch ⟨0, 1⟩ ⟨4, 1⟩ ⟨5, 1⟩ },
      { insts := [⟨4, 1⟩], term := .jump ⟨5, 1⟩ },
      { insts := [⟨5, 1⟩], term := .deopt ⟨0, 1⟩ }]
  insts := .ofEntries
    [⟨.param 0, some .int⟩, ⟨.new ⟨0, 1⟩, some .ref⟩, ⟨.new ⟨0, 1⟩, some .ref⟩,
      ⟨.phi [(⟨1, 1⟩, ⟨1, 1⟩), (⟨2, 1⟩, ⟨2, 1⟩)], some .ref⟩, ⟨.new ⟨0, 1⟩, some .ref⟩,
      ⟨.phi [(⟨3, 1⟩, ⟨3, 1⟩), (⟨4, 1⟩, ⟨4, 1⟩)], some .ref⟩]
  states := .ofEntries [{ locals := [.value ⟨5, 1⟩] }]
  entry := ⟨0, 1⟩
  params := [.int]
  ret := none

/-- The first object is kept. Selector and carrier of the outer merge agree on the leaves of the
inner one. -/
theorem selectors_agree_chooseTwice : ∃ (a : MergeAnalysis) (w : Web) (r : Reduction)
    (X Y z z' : InstId),
    [w].foldlM (reduceWeb plainClass a (· ≠ 1) chooseTwice.uses)
      { splitter := { body := chooseTwice }, registry := {} } = .ok r ∧
    ((⟨5, 1⟩, .selector 0), X) ∈ r.splitter.parts ∧ ((⟨5, 1⟩, .kept), Y) ∈ r.splitter.parts ∧
    a.merges.Resolves ⟨5, 1⟩ [⟨3, 1⟩, ⟨2, 1⟩] (.alloc 0 ⟨2, 1⟩) ∧
    r.splitter.body.along [⟨3, 1⟩, ⟨2, 1⟩] X = some z ∧
    r.splitter.body.along [⟨3, 1⟩, ⟨2, 1⟩] Y = some z' ∧
    Splitter.Tells r.splitter.body (· ≠ 1) (a.merges.candidateValues (· ≠ 1) ⟨5, 1⟩) 0 z z'
      (.alloc 0 ⟨2, 1⟩) := by
  obtain ⟨g, changed, b₁, hg, h⟩ := Graph.exists_propagated plainClass chooseTwice 100
    (P := fun g => (Metered.result? (MergeAnalysis.compute plainClass chooseTwice g
      (fun _ => false) [] true) { limit := 300 }).any fun a =>
        a.webs.any fun w => w.obstacle = none ∧
          ((a.merges.desc ⟨5, 1⟩).inputs.find? (·.1 == ⟨3, 1⟩)) = some (⟨3, 1⟩, .phi ⟨3, 1⟩) ∧
          ((a.merges.desc ⟨3, 1⟩).inputs.find? (·.1 == ⟨2, 1⟩)) =
            some (⟨2, 1⟩, .alloc 0 ⟨2, 1⟩) ∧
          ([w].foldlM (reduceWeb plainClass a (· ≠ 1) chooseTwice.uses)
            { splitter := { body := chooseTwice }, registry := {} }).toOption.any fun r =>
          (r.splitter.parts.lookup (⟨5, 1⟩, .selector 0)).isSome ∧
            (r.splitter.parts.lookup (⟨5, 1⟩, .kept)).isSome)
    (by decide +kernel)
  obtain ⟨a, b₂, ha, h⟩ := Metered.exists_yields h
  obtain ⟨w, hw, h⟩ := List.any_eq_true.1 h
  obtain ⟨hnone, houter, hinner, h⟩ := of_decide_eq_true h
  obtain ⟨r, hr, h⟩ := Except.exists_ok_of_any h
  obtain ⟨hX, hY⟩ := of_decide_eq_true h
  obtain ⟨X, hX⟩ := Option.isSome_iff_exists.1 hX
  obtain ⟨Y, hY⟩ := Option.isSome_iff_exists.1 hY
  have hres : a.merges.Resolves ⟨5, 1⟩ [⟨3, 1⟩, ⟨2, 1⟩] (.alloc 0 ⟨2, 1⟩) :=
    .nested houter (.leaf hinner rfl)
  have hwebs : ∀ w' ∈ [w], w' ∈ a.webs ∧ w'.obstacle = none := by simpa using ⟨hw, hnone⟩
  have hwf : chooseTwice.WellFormed := .ofEntries rfl
  have hi : chooseTwice.Issued := Body.issued_of_live (by decide +kernel)
  have hcheck : chooseTwice.check plainClass = .ok () := by cbv
  have hc := Body.checked_of_check hwf hi hcheck
  obtain ⟨hagree, -⟩ := selectors_agree hwf hi hc ha hwebs hr
  obtain ⟨z, z', hz, hz', htells⟩ :=
    hagree _ 0 X Y (mem_of_lookup hX) (mem_of_lookup hY) _ _ hres
  exact ⟨a, w, r, X, Y, z, z', hr, mem_of_lookup hX, mem_of_lookup hY, hres, hz, hz', htells⟩

end Reduction

end EscapeAnalysis
