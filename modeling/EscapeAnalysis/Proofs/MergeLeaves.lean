import EscapeAnalysis.Proofs.LeastFacts
import EscapeAnalysis.Proofs.Selectors

/-!
# The leaves of merges

The webs are the connected components of the nesting relation, and a web is marked just if nesting
runs in a circle in it (`Merges.Components`). In a web without circles and without inputs that
nothing is known about, the leaves of a merge are the ends of all ways down from it, one for each
way, in the order of the inputs (`Merges.ListsWays`).
-/

namespace EscapeAnalysis

open List

namespace Graph

variable {p : Program} {body : Body} {settings : Settings} {phi : InstId}
  {inputs : List (BlockId × InstId)} {c : Constraint}

theorem mem_constraints_ofBody (hc : c ∈ (ofBody p body settings).constraints) :
    (∃ x, c ∈ constraintsOf p body x) ∨ ∃ x, c = .sink x .global := by
  revert hc
  refine ofBody_induction (P := fun g => c ∈ g.constraints → _) settings (by simp)
    (fun g b _ x _ hg hc => ?_) fun g t hg hc => ?_
  · rcases ha : allocation? p body x with _ | ⟨shape, escape⟩
    · rw [(addInst_of_none ha).2.2.2.2] at hc
      exact (mem_append.1 hc).elim hg fun hc => .inl ⟨x, hc⟩
    · rw [(addInst_of_some ha).2.2.2.2] at hc
      exact hg hc
  · rw [addTerm_eq] at hc
    refine (mem_append.1 hc).elim hg fun hc => .inr ?_
    rcases t with _ | _ | _ | (_ | x) | x | _ | _ <;>
      simp only [termConstraints, not_mem_nil, mem_singleton] at hc <;> exact ⟨x, hc⟩

theorem constraint_of_phi (hop : body.op? phi = some (.phi inputs))
    (hc : c ∈ (ofBody p body settings).constraints) :
    (∀ y, c = .copy phi y → ∃ b, (b, y) ∈ inputs) ∧ ∀ base access, c ≠ .load phi base access := by
  rcases mem_constraints_ofBody hc with ⟨x, hc⟩ | ⟨x, rfl⟩
  · simp only [constraintsOf] at hc
    constructor
    · rintro y rfl
      split at hc <;> grind [callSinks]
    · rintro base access rfl
      split at hc <;> grind [callSinks]
  · simp

theorem get?_ofBody_of_phi (hwf : body.insts.WellFormed) (hop : body.op? phi = some (.phi inputs))
    {t} (ht : (ofBody p body settings).facts.pts.get? phi = some t) : t = ∅ := by
  have hal : allocation? p body phi = none := by simp [allocation?, hop]
  have hseed : seed? body phi = none := by simp [seed?, hop]
  suffices h : Tables p body (ofBody p body settings) ∧
      ∀ t, (ofBody p body settings).facts.pts.get? phi = some t → t = ∅ from h.2 t ht
  refine ofBody_induction (P := fun g => Tables p body g ∧
      ∀ t, g.facts.pts.get? phi = some t → t = ∅) settings
    ⟨.start _, fun t h => by simp [SideTable.get?] at h⟩
    (fun g b _ x _ hg => ⟨hg.1.addInst hwf x, fun t ht => ?_⟩)
    fun g t hg => ⟨hg.1.addTerm t, by rw [addTerm_eq]; exact hg.2⟩
  by_cases hx : phi = x
  · subst hx
    rw [(addInst_of_none hal).2.2.2.1, get?_sow hwf (within_declare hg.1.pts phi), if_pos rfl]
      at ht
    simp only [hseed, get?_declare hwf hg.1.pts] at ht
    split at ht
    · exact (Option.some.inj ht).symm
    · exact hg.2 t ht
  · rw [get?_pts_addInst_of_ne hwf hg.1 hx] at ht
    exact hg.2 t ht

theorem exists_input_of_mem_ptsOf (hwf : body.insts.WellFormed) {b}
    (hb : b ∈ body.order) (hphi : phi ∈ (body.block b).insts)
    (href : body.isRef phi = true) (hop : body.op? phi = some (.phi inputs)) {f}
    (h : (ofBody p body settings).Least f) {n} (hn : n ∈ f.ptsOf phi) :
    ∃ e ∈ inputs, n ∈ f.ptsOf e.2 := by
  obtain ⟨t, ht, -⟩ := Facts.mem_ptsOf.1 hn
  obtain ⟨inst, hinst⟩ := Body.exists_inst_of_op? hop
  -- the facts stay closed if the phi is left with what its inputs point to
  let s := inputs.foldl (fun s e => s ∪ f.ptsOf e.2) ∅
  let S : Facts := { f with pts := f.pts.insert phi s }
  have hs : ∀ n, n ∈ s ↔ ∃ e ∈ inputs, n ∈ f.ptsOf e.2 := fun n => by
    simp [s, NodeSet.mem_foldl_union]
  have hget : ∀ x, S.pts.get? x = if x = phi then some s else f.pts.get? x := fun x =>
    SideTable.get?_insert_of_contains (hwf.ne_null hinst) (SideTable.contains_iff.2 ⟨t, ht⟩) s x
  have hself : S.ptsOf phi = s := ptsOf_eq ((hget phi).trans (if_pos rfl))
  have hother : ∀ x, x ≠ phi → S.ptsOf x = f.ptsOf x := fun x hx =>
    ptsOf_congr ((hget x).trans (if_neg hx))
  have hsub : ∀ x n, n ∈ S.ptsOf x → n ∈ f.ptsOf x := by
    intro x n hn
    by_cases hx : x = phi
    · subst hx
      rw [hself, hs] at hn
      obtain ⟨e, he, hn⟩ := hn
      have hcopy : .copy x e.2 ∈ (ofBody p body settings).constraints :=
        ((read_ofBody hwf settings).insts b hb x hphi).constraints _ (by
          simp only [constraintsOf, hop, href, if_true]
          exact mem_map.2 ⟨e, he, rfl⟩)
      exact ptsOf_eq ht ▸ h.closed.satisfied _ hcopy t ht n hn
    · rwa [hother x hx] at hn
  have hclosed : (ofBody p body settings).Closed S := by
    refine ⟨fun c hc => ?_, h.closed.escapes⟩
    have hsat := h.closed.satisfied c hc
    obtain ⟨hcopy, hload⟩ := constraint_of_phi hop hc
    cases c with
    | copy dst src =>
      intro u hu n hn
      rw [hget] at hu
      split at hu
      · rename_i hdst
        subst hdst
        cases hu
        obtain ⟨b, hin⟩ := hcopy src rfl
        exact (hs n).2 ⟨_, hin, hsub src n hn⟩
      · exact hsat u hu n (hsub src n hn)
    | load dst base access =>
      intro u hu b hb n hn
      rw [hget, if_neg fun hdst : dst = phi => hload base access (by rw [hdst])] at hu
      exact hsat u hu b (hsub base b hb) n hn
    | store base access value =>
      exact fun b hb => Stored.subset (hsat b (hsub base b hb)) (hsub value)
    | copyElems src dst range =>
      exact fun s hs d hd => hsat s (hsub src s hs) d (hsub dst d hd)
    | sink value escape => exact fun k hk => hsat k (hsub value _ hk)
  have hstart : (ofBody p body settings).facts ≤ S := by
    refine ⟨fun x hx => ?_, h.above.size, fun e he => ?_⟩
    · obtain ⟨u, hu⟩ := SideTable.contains_iff.1 (h.above.contains x hx)
      rw [SideTable.contains_iff, hget]
      split
      · exact ⟨_, rfl⟩
      · exact ⟨u, hu⟩
    · cases e with
      | target x n =>
        have hold : n ∈ (ofBody p body settings).facts.ptsOf x := he
        by_cases hx : x = phi
        · subst hx
          obtain ⟨u, hu, hnu⟩ := Facts.mem_ptsOf.1 hold
          rw [get?_ofBody_of_phi hwf hop hu] at hnu
          exact absurd hnu (NodeSet.not_mem_empty n)
        · show n ∈ S.ptsOf x
          rw [hother x hx]
          exact h.above.pts hold
      | content k c n => exact h.above.cells he
      | escape k e => exact h.above.has _ he
  have hmem := (h.least S hstart hclosed).pts hn
  rwa [hself, hs] at hmem

end Graph

namespace Merges

variable {m : Merges} {phi child : InstId} {w : Web} {i : MergeInput} {leaf : Leaf} {js : List Nat}

def HasChild (m : Merges) (phi child : InstId) : Prop := child ∈ m.children phi

theorem mem_keys_of_hasChild (h : m.HasChild phi child) : phi ∈ m.keys := by
  rw [SideTable.mem_keys_iff]
  rcases hd : m.get? phi with _ | d
  · have hnone : (none : Option MergeDesc).getD default = default := rfl
    rw [HasChild, children, desc, hd, hnone] at h
    cases h
  · exact ⟨d, rfl⟩

theorem hasChild_of_mem_links (hn : m.Named) (h : (phi, child) ∈ m.links) :
    m.HasChild phi child ∨ m.HasChild child phi := by
  simp only [links, mem_flatMap, mem_cons, not_mem_nil, or_false,
    Prod.mk.injEq] at h
  obtain ⟨d, hd, c, hc, h⟩ := h
  obtain ⟨q, hq⟩ := SideTable.mem_values_iff.1 hd
  have hnest : m.HasChild d.phi c := by
    rw [hn q d hq]
    simpa [HasChild, children, desc, hq] using hc
  rcases h with ⟨rfl, rfl⟩ | ⟨rfl, rfl⟩
  · exact .inl hnest
  · exact .inr hnest

/-- The webs are the connected components of nesting. Every candidate is listed once. A web is
marked just if nesting runs in a circle in it, and otherwise lists nested merges first. -/
structure Components (m : Merges) (cands : List InstId) (webs : List Web) : Prop where
  covered : ∀ phi, phi ∈ cands ↔ ∃ w ∈ webs, phi ∈ w.phis
  disjoint : webs.Pairwise fun w w' => ∀ phi ∈ w.phis, phi ∉ w'.phis
  nodup : ∀ w ∈ webs, w.phis.Nodup
  nonempty : ∀ w ∈ webs, w.phis ≠ []
  component : ∀ w ∈ webs, ∀ phi ∈ w.phis, ∀ q, q ∈ w.phis ↔ Relation.EqvGen m.HasChild phi q
  circular : ∀ w ∈ webs, w.obstacle = some .loopCarried ↔
    ∃ phi ∈ w.phis, Relation.TransGen m.HasChild phi phi
  sorted : ∀ w ∈ webs, w.obstacle ≠ some .loopCarried → ∀ phi ∈ w.phis, ∀ child ∈ m.children phi,
    Before child phi w.phis

namespace IsWeb

variable (h : m.IsWeb w) (hchildren : ∀ phi ∈ m.keys, ∀ child ∈ m.children phi, child ∈ m.keys)
include h

theorem obstacle_eq_none (hne : w.obstacle ≠ some .loopCarried) : w.obstacle = none :=
  Classical.byContradiction fun hob => hne (h.circle hob).1

theorem mem_iff_of_hasChild (hn : m.Named) (hc : m.HasChild phi child) (hk : child ∈ m.keys) :
    phi ∈ w.phis ↔ child ∈ w.phis := by
  have hphi := mem_keys_of_hasChild hc
  have hlink := mem_links_of_child hn hphi hc
  exact ⟨fun hp => h.closed phi hp child hlink hk,
    fun hp => h.closed child hp phi (mem_links_symm hlink) hphi⟩

include hchildren

theorem component (hn : m.Named) (hphi : phi ∈ w.phis) (q : InstId) :
    q ∈ w.phis ↔ Relation.EqvGen m.HasChild phi q := by
  refine ⟨fun hq => ?_, fun hq => ?_⟩
  · refine h.connected _ (Relation.EqvGen.is_equivalence _) (fun a b hl => ?_) phi hphi q hq
    rcases hasChild_of_mem_links hn hl with hab | hba
    · exact .rel _ _ hab
    · exact .symm _ _ (.rel _ _ hba)
  · refine Iff.mp ?_ hphi
    clear hphi
    induction hq with
    | rel a b hab =>
      exact h.mem_iff_of_hasChild hn hab (hchildren a (mem_keys_of_hasChild hab) b hab)
    | refl => exact Iff.rfl
    | symm a b _ ih => exact ih.symm
    | trans a b c _ _ ih1 ih2 => exact ih1.trans ih2

theorem before (hnone : w.obstacle = none) (hphi : phi ∈ w.phis) (hc : child ∈ m.children phi) :
    Before child phi w.phis := by
  obtain ⟨l1, l2, hl, hmem⟩ := h.sorted hnone phi hphi child hc
    (hchildren phi (mem_keys_of_hasChild hc) child hc)
  obtain ⟨l3, l4, rfl⟩ := append_of_mem hmem
  refine ⟨l4.reverse, l3.reverse ++ phi :: l1.reverse, ?_, by simp⟩
  rw [← reverse_reverse w.phis, hl]
  simp

/-- In a web without a circle, what holds of a merge if it holds of those nested in it holds of all
merges. -/
theorem induction (hnone : w.obstacle = none) {P : InstId → Prop}
    (step : ∀ phi ∈ w.phis, (∀ child ∈ m.children phi, child ∈ w.phis ∧ P child) → P phi) :
    ∀ phi ∈ w.phis, P phi := by
  intro phi hphi
  generalize hi : w.phis.idxOf phi = i
  induction i using Nat.strongRecOn generalizing phi with
  | ind i ih =>
    refine step phi hphi fun child hc => ?_
    have hbefore := h.before hchildren hnone hphi hc
    exact ⟨hbefore.left_mem, ih _ (hi ▸ hbefore.idxOf_lt h.nodup) child hbefore.left_mem rfl⟩

theorem circular_iff : w.obstacle = some .loopCarried ↔
    ∃ phi ∈ w.phis, Relation.TransGen m.HasChild phi phi := by
  refine ⟨fun ho => (h.circle (by simp [ho])).2, fun ⟨phi, hphi, hcircle⟩ => ?_⟩
  refine Classical.byContradiction fun hne => ?_
  have hnone := h.obstacle_eq_none hne
  have hlt : ∀ {a b}, Relation.TransGen m.HasChild a b → a ∈ w.phis →
      b ∈ w.phis ∧ w.phis.idxOf b < w.phis.idxOf a := by
    intro a b hab ha
    induction hab with
    | single hab =>
      have hbefore := h.before hchildren hnone ha hab
      exact ⟨hbefore.left_mem, hbefore.idxOf_lt h.nodup⟩
    | tail _ hbc ih =>
      have hbefore := h.before hchildren hnone ih.1 hbc
      exact ⟨hbefore.left_mem, Nat.lt_trans (hbefore.idxOf_lt h.nodup) ih.2⟩
  exact absurd (hlt hcircle hphi).2 (Nat.lt_irrefl _)

end IsWeb

theorem components_webs {cands} (hn : m.Named) (hk : ∀ phi, phi ∈ m.keys ↔ phi ∈ cands)
    (hchildren : ∀ phi ∈ m.keys, ∀ child ∈ m.children phi, child ∈ m.keys) :
    m.Components cands (m.webs cands) := by
  obtain ⟨taken, h, hall⟩ := split_webs hn fun phi => (hk phi).2
  refine ⟨fun phi => ⟨fun hphi => (h.taken phi).1 (hall phi hphi), fun hphi =>
      (hk phi).1 (h.keys phi ((h.taken phi).2 hphi))⟩, h.disjoint, fun w hw => (h.web w hw).nodup,
    fun w hw => (h.web w hw).nonempty,
    fun w hw phi hphi => (h.web w hw).component hchildren hn hphi,
    fun w hw => (h.web w hw).circular_iff hchildren, fun w hw hne phi hphi child hc => ?_⟩
  exact (h.web w hw).before hchildren ((h.web w hw).obstacle_eq_none hne) hphi hc

/-- A way down from an input to a leaf, given by the positions of the inputs chosen on the way. -/
inductive LeadsTo (m : Merges) : MergeInput → List Nat → Leaf → Prop
  | alloc (n : Nat) (x : InstId) : LeadsTo m (.alloc n x) [] (.alloc n x)
  | null (x : InstId) : LeadsTo m (.null x) [] .null
  | nested {phi : InstId} {b i j js leaf} (hj : (m.desc phi).inputs[j]? = some (b, i))
      (h : LeadsTo m i js leaf) : LeadsTo m (.phi phi) (j :: js) leaf

/-- The list has one entry for each way down from an input, in the order of the inputs. -/
def ListsWays (m : Merges) (i : MergeInput) (leaves : List Leaf) : Prop :=
  ∃ ways : List (List Nat × Leaf), (ways.map Prod.fst).Pairwise (· < ·) ∧
    (∀ js leaf, (js, leaf) ∈ ways ↔ m.LeadsTo i js leaf) ∧ leaves = ways.map Prod.snd

theorem ListsWays.mem_iff {leaves} (h : m.ListsWays i leaves) :
    leaf ∈ leaves ↔ ∃ js, m.LeadsTo i js leaf := by
  obtain ⟨ways, -, hmem, rfl⟩ := h
  simp [← hmem]

/-- The ways down from some inputs, of which the first has number `k`. -/
theorem exists_ways : ∀ (inputs : List (BlockId × MergeInput)) (k : Nat),
    (∀ e ∈ inputs, m.ListsWays e.2 (m.inputLeaves e.2)) →
    ∃ ways : List (List Nat × Leaf), (ways.map Prod.fst).Pairwise (· < ·) ∧
      (∀ js leaf, (js, leaf) ∈ ways ↔ ∃ j b i js', js = (k + j) :: js' ∧
        inputs[j]? = some (b, i) ∧ m.LeadsTo i js' leaf) ∧
      m.leavesOf inputs = ways.map Prod.snd
  | [], k, _ => ⟨[], by simp, by simp, rfl⟩
  | (b, i) :: inputs, k, h => by
    obtain ⟨first, hfirst, hmem, hleaves⟩ := h (b, i) (by simp)
    obtain ⟨rest, hrest, hmem', hleaves'⟩ :=
      exists_ways inputs (k + 1) fun e he => h e (.tail _ he)
    refine ⟨first.map (fun e => (k :: e.1, e.2)) ++ rest, ?_, fun js leaf => ?_, ?_⟩
    · rw [map_append, pairwise_append]
      refine ⟨?_, hrest, fun js hjs js' hjs' => ?_⟩
      · simp only [pairwise_map] at hfirst ⊢
        exact hfirst.imp fun hlt => cons_lt_cons_iff.2 (.inr ⟨rfl, hlt⟩)
      · simp only [map_map, mem_map] at hjs
        obtain ⟨e, -, rfl⟩ := hjs
        obtain ⟨⟨_, leaf⟩, he, rfl⟩ := mem_map.1 hjs'
        obtain ⟨j, _, _, js', rfl, -⟩ := (hmem' _ _).1 he
        exact cons_lt_cons_iff.2 (.inl (by omega))
    · rw [mem_append, hmem']
      constructor
      · rintro (hin | ⟨j, b', i', js', rfl, hj, hl⟩)
        · obtain ⟨⟨js', _⟩, he, heq⟩ := mem_map.1 hin
          obtain ⟨rfl, rfl⟩ := Prod.mk.inj heq
          exact ⟨0, b, i, js', rfl, rfl, (hmem _ _).1 he⟩
        · exact ⟨j + 1, b', i', js', by rw [Nat.add_assoc, Nat.add_comm 1 j], hj, hl⟩
      · rintro ⟨_ | j, b', i', js', rfl, hj, hl⟩
        · obtain ⟨rfl, rfl⟩ : b = b' ∧ i = i' := by simpa using hj
          exact .inl (mem_map.2 ⟨(js', leaf), (hmem _ _).2 hl, rfl⟩)
        · exact .inr ⟨j, b', i', js', by rw [Nat.add_assoc, Nat.add_comm 1 j], hj, hl⟩
    · rw [show m.leavesOf ((b, i) :: inputs) = m.inputLeaves i ++ m.leavesOf inputs from
        flatMap_cons, hleaves, hleaves', map_append, map_map]
      rfl

/-- The leaves of a merge list the ways down from it if those of the merges nested in it do. -/
theorem listsWays_of_children {g} (hs : m.Summarized g phi)
    (hknown : ∀ e ∈ (m.desc phi).inputs, ∀ x, e.2 ≠ .unknown x)
    (hc : ∀ child ∈ m.children phi, m.ListsWays (.phi child) (m.desc child).leaves) :
    m.ListsWays (.phi phi) (m.desc phi).leaves := by
  obtain ⟨ways, hsorted, hmem, hleaves⟩ := exists_ways (m := m) (m.desc phi).inputs 0 <| by
    rintro ⟨b, i⟩ he
    cases i with
    | alloc n x =>
      refine ⟨[([], .alloc n x)], by simp, fun js leaf => ⟨fun h => ?_, fun h => ?_⟩, rfl⟩
      · cases mem_singleton.1 h
        exact .alloc n x
      · cases h
        exact mem_singleton_self _
    | null x =>
      refine ⟨[([], .null)], by simp, fun js leaf => ⟨fun h => ?_, fun h => ?_⟩, rfl⟩
      · cases mem_singleton.1 h
        exact .null x
      · cases h
        exact mem_singleton_self _
    | phi child => exact hc child (mem_children he)
    | unknown x => exact absurd rfl (hknown _ he x)
  refine ⟨ways, hsorted, fun js leaf => (hmem js leaf).trans ⟨?_, fun h => ?_⟩,
    hs.leaves.trans hleaves⟩
  · rintro ⟨j, b, i, js', rfl, hj, hl⟩
    rw [Nat.zero_add]
    exact .nested hj hl
  · cases h with
    | @nested _ b i j js' leaf hj hl => exact ⟨j, b, i, js', by rw [Nat.zero_add], hj, hl⟩

end Merges

namespace Shapes

variable {g : Graph} {leaves : List Leaf}

/-- What the shapes of a merge say of its leaves: all of them are objects of one class, of several
classes, or some leaf is no object of a known class. -/
def Fit (g : Graph) (leaves : List Leaf) : Shapes → Prop
  | .exact cls => ∀ n x, .alloc n x ∈ leaves → g.classOf? n = some cls
  | .poly classes => 2 ≤ classes.length ∧ classes.Nodup ∧
    (∀ n x, .alloc n x ∈ leaves → ∃ cls ∈ classes, g.classOf? n = some cls) ∧
    ∀ cls ∈ classes, ∃ n x, .alloc n x ∈ leaves ∧ g.classOf? n = some cls
  | .unknown => ∃ n x, .alloc n x ∈ leaves ∧ g.classOf? n = none

/-- The classes of the leaves. A leaf that is no object of a known class has none. -/
def classesOf (g : Graph) (leaves : List Leaf) : List (Option ClassId) :=
  (leaves.filterMap Leaf.alloc?).map fun (n, _) => g.classOf? n

theorem mem_classesOf {c} :
    c ∈ classesOf g leaves ↔ ∃ n x, .alloc n x ∈ leaves ∧ g.classOf? n = c := by
  simp only [classesOf, mem_map, mem_filterMap, Prod.exists]
  constructor
  · rintro ⟨n, x, ⟨leaf, hmem, hleaf⟩, rfl⟩
    cases leaf with
    | alloc => cases hleaf; exact ⟨n, x, hmem, rfl⟩
    | null => cases hleaf
  · rintro ⟨n, x, hmem, rfl⟩
    exact ⟨n, x, ⟨_, hmem, rfl⟩, rfl⟩

theorem fit_ofLeaves {n x} (h : .alloc n x ∈ leaves) : Fit g leaves (ofLeaves g leaves) := by
  rw [ofLeaves]
  dsimp only
  rw [← classesOf]
  split
  · rename_i hany
    obtain ⟨c, hc, hnone⟩ := any_eq_true.1 hany
    rw [Option.isNone_iff_eq_none.1 hnone] at hc
    exact mem_classesOf.1 hc
  · rename_i hall
    have hmem : ∀ cls, cls ∈ ((classesOf g leaves).filterMap id).eraseDups ↔
        ∃ n x, .alloc n x ∈ leaves ∧ g.classOf? n = some cls := by
      intro cls
      rw [← mem_classesOf, mem_eraseDups, mem_filterMap]
      simp
    have hknown : ∀ n x, .alloc n x ∈ leaves →
        ∃ cls ∈ ((classesOf g leaves).filterMap id).eraseDups, g.classOf? n = some cls := by
      intro n x hn
      rcases hcls : g.classOf? n with _ | cls
      · exact absurd (any_eq_true.2 ⟨none, mem_classesOf.2 ⟨n, x, hn, hcls⟩, rfl⟩) hall
      · exact ⟨cls, (hmem cls).2 ⟨n, x, hn, hcls⟩, rfl⟩
    have hnodup := nodup_eraseDups ((classesOf g leaves).filterMap id)
    generalize ((classesOf g leaves).filterMap id).eraseDups = classes at *
    rcases classes with _ | ⟨cls, _ | ⟨cls', classes⟩⟩
    · obtain ⟨cls, hcls, -⟩ := hknown n x h
      cases hcls
    · intro n x hn
      obtain ⟨cls', hcls', hn⟩ := hknown n x hn
      rwa [mem_singleton.1 hcls'] at hn
    · exact ⟨by simp, hnodup, hknown, fun cls hcls => (hmem cls).1 hcls⟩

end Shapes

namespace Merges

variable {body : Body} {g : Graph} {cands : List InstId} {m : Merges} {phi : InstId}

theorem components_ofCandidates (hwf : body.WellFormed) (g : Graph)
    (hphis : ∀ phi ∈ cands, ∃ inputs, body.op? phi = some (.phi inputs)) :
    (ofCandidates body g cands).Components cands ((ofCandidates body g cands).webs cands) := by
  have hlisted := listed_ofCandidates (g := g) hwf hphis
  exact components_webs hlisted.named hlisted.keys hlisted.children

theorem mem_leavesOf {inputs b i leaf} (he : (b, i) ∈ inputs) (h : leaf ∈ m.inputLeaves i) :
    leaf ∈ m.leavesOf inputs :=
  mem_flatMap.2 ⟨(b, i), he, h⟩

theorem exists_alloc_leaf {p settings f leftOut} (hwf : body.insts.WellFormed)
    (hleast : (Graph.ofBody p body settings).Least f)
    (hg : g = { Graph.ofBody p body settings with facts := f })
    (hd : Noted body g (candidates body g leftOut) phi (m.desc phi))
    (hphi : phi ∈ candidates body g leftOut)
    (hknown : ∀ e ∈ (m.desc phi).inputs, ∀ x, e.2 ≠ .unknown x)
    (hc : ∀ child ∈ m.children phi, ∃ n x, .alloc n x ∈ (m.desc child).leaves) :
    ∃ n x, .alloc n x ∈ m.leavesOf (m.desc phi).inputs := by
  obtain ⟨b, hb, hmem, href, -, hne⟩ := mem_candidates.1 hphi
  obtain ⟨inputs, hop, hin⟩ := hd.inputs
  rw [isEmpty_eq_false_iff_exists_mem] at hne
  obtain ⟨k, hk⟩ := hne
  obtain ⟨⟨c, y⟩, he, hy⟩ := Graph.exists_input_of_mem_ptsOf (n := .alloc k) hwf hb
    (Body.mem_insts_of_mem_phis hmem) href hop hleast (by
      rw [hg] at hk
      exact NodeSet.mem_allocs.1 hk)
  have hi : (c, MergeInput.of body g (candidates body g leftOut) y) ∈ (m.desc phi).inputs :=
    hin ▸ mem_map.2 ⟨(c, y), he, rfl⟩
  rcases hof : MergeInput.of body g (candidates body g leftOut) y with ⟨n, x⟩ | x | child | x <;>
    rw [hof] at hi
  · exact ⟨n, x, mem_leavesOf hi (mem_singleton_self _)⟩
  · -- what can only be null points to no object
    obtain ⟨rfl, -, hnull⟩ := MergeInput.of_eq_null hof
    have hsingle : f.ptsOf y = .singleton .null := by
      rw [hg] at hnull
      exact eq_of_beq hnull
    rw [hsingle, NodeSet.mem_singleton] at hy
    cases hy
  · obtain ⟨n, x, hleaf⟩ := hc child (mem_children hi)
    exact ⟨n, x, mem_leavesOf hi hleaf⟩
  · exact absurd rfl (hknown _ hi x)

theorem fit_shapesOf (hknown : ∀ e ∈ (m.desc phi).inputs, ∀ x, e.2 ≠ .unknown x) {n x}
    (hleaf : .alloc n x ∈ m.leavesOf (m.desc phi).inputs)
    (hc : ∀ child ∈ m.children phi, (m.desc child).shapes.Fit g (m.desc child).leaves) :
    (m.shapesOf g (m.desc phi).inputs).Fit g (m.leavesOf (m.desc phi).inputs) := by
  rw [shapesOf]
  split
  · exact Shapes.fit_ofLeaves hleaf
  · rename_i hall
    obtain ⟨⟨b, i⟩, he, hi⟩ := all_eq_false.1 (Bool.eq_false_iff.2 hall)
    rcases i with _ | _ | child | x
    · exact absurd rfl hi
    · exact absurd rfl hi
    · have hunknown : (m.desc child).shapes = .unknown := by simpa [inputKnown] using hi
      have hfit := hc child (mem_children he)
      rw [hunknown] at hfit
      obtain ⟨n, x, hmem, hn⟩ := hfit
      exact ⟨n, x, mem_leavesOf he hmem, hn⟩
    · exact absurd rfl (hknown _ he x)

end Merges

namespace MergeAnalysis

variable {p : Program} {body : Body}

/-- Webs are the components of the candidates. In one that has no circle and no unknown input, each
merge lists a leaf for every way down, in the order of its inputs, and the shapes it has. -/
theorem webs_and_leaves (hwf : body.WellFormed) :
    (∀ (g : Graph) (cands : List InstId),
      (∀ phi ∈ cands, ∃ inputs, body.op? phi = some (.phi inputs)) →
      (Merges.ofCandidates body g cands).Components cands
        ((Merges.ofCandidates body g cands).webs cands)) ∧
    ∀ (settings settings' : Settings) (b₀ b₁ : Budget) (g : Graph) (changed : Bool),
      Metered.Yields ((Graph.ofBody p body settings).propagate settings') b₀ (g, changed) b₁ →
      ∀ (leftOut : InstId → Bool) (blacklist : List InstId) (enabled : Bool) (a : MergeAnalysis)
        (b b' : Budget),
        Metered.Yields (compute p body g leftOut blacklist enabled) b a b' →
        let cands := Merges.candidates body g leftOut
        a.merges.Listed body g cands ∧
        a.webs.map Web.phis = ((Merges.ofCandidates body g cands).webs cands).map Web.phis ∧
        ∀ w ∈ a.webs, (∀ phi ∈ w.phis, ¬ Relation.TransGen a.merges.HasChild phi phi) →
          (∀ phi ∈ w.phis, ∀ e ∈ (a.merges.desc phi).inputs, ∀ x, e.2 ≠ .unknown x) →
          ∀ phi ∈ w.phis,
            a.merges.ListsWays (.phi phi) (a.merges.desc phi).leaves ∧
            ((a.merges.desc phi).hasNull = true ↔ ∃ js, a.merges.LeadsTo (.phi phi) js .null) ∧
            (∃ n x, .alloc n x ∈ (a.merges.desc phi).leaves) ∧
            (a.merges.desc phi).shapes.Fit g (a.merges.desc phi).leaves := by
  refine ⟨fun g cands => Merges.components_ofCandidates hwf g, ?_⟩
  intro settings settings' b₀ b₁ g changed hp leftOut blacklist enabled a b b' hy cands
  obtain ⟨f, hg, hleast, -⟩ := (Graph.Built.ofBody p body settings).least_of_propagate hp
  obtain ⟨hlisted, -⟩ := listed_of_compute hwf hy
  have hprog := progress_of_compute hwf hy
  have hsame := hprog.same
  have hphis : a.webs.map Web.phis =
      ((Merges.ofCandidates body g cands).webs cands).map Web.phis := by
    rw [hprog.webs, map_map]
    rfl
  refine ⟨hlisted, hphis, fun w hw hacyclic hknown => ?_⟩
  obtain ⟨hlisted₀, hin, -, hready, -⟩ := Merges.prepared hwf g leftOut
  generalize Merges.ofCandidates body g cands = m₀ at *
  obtain ⟨w₀, hw₀, hww⟩ : ∃ w₀ ∈ m₀.webs cands, w₀.phis = w.phis :=
    mem_map.1 (hphis ▸ mem_map_of_mem hw)
  rw [← hww] at hacyclic hknown ⊢
  obtain ⟨taken, hsplit, -⟩ := Merges.split_webs hlisted₀.named fun phi => (hlisted₀.keys phi).2
  have hweb := hsplit.web w₀ hw₀
  have hsameChild : a.merges.HasChild = m₀.HasChild := by
    funext phi child
    rw [Merges.HasChild, Merges.HasChild, hsame.children]
  have hnone : w₀.obstacle = none := hweb.obstacle_eq_none fun ho => by
    obtain ⟨phi, hphi, hcircle⟩ := (hweb.circular_iff hlisted₀.children).1 ho
    exact hacyclic phi hphi (hsameChild ▸ hcircle)
  have hkeys : ∀ phi ∈ w₀.phis, phi ∈ a.merges.keys := fun phi hphi =>
    hsame.mem_keys.2 (hsplit.keys phi ((hsplit.taken phi).2 ⟨w₀, hw₀, hphi⟩))
  have hall : ∀ phi ∈ w₀.phis, a.merges.ListsWays (.phi phi) (a.merges.desc phi).leaves ∧
      (∃ n x, .alloc n x ∈ (a.merges.desc phi).leaves) ∧
      (a.merges.desc phi).shapes.Fit g (a.merges.desc phi).leaves := by
    refine hweb.induction hlisted₀.children hnone fun phi hphi ih => ?_
    rw [← hsame.children] at ih
    have hs := (hprog.summarized hwf.insts hin hready hw₀ hnone (barred?_ne_loopCarried hnone) phi
      hphi).1
    obtain ⟨n, x, hleaf⟩ := Merges.exists_alloc_leaf hwf.insts hleast hg
      (hlisted.noted phi (hkeys phi hphi)) ((hlisted.keys phi).1 (hkeys phi hphi))
      (hknown phi hphi) fun child hc => (ih child hc).2.2.1
    refine ⟨Merges.listsWays_of_children hs (hknown phi hphi) fun child hc => (ih child hc).2.1, ?_⟩
    rw [hs.leaves, hs.shapes]
    exact ⟨⟨n, x, hleaf⟩, Merges.fit_shapesOf (hknown phi hphi) hleaf
      fun child hc => (ih child hc).2.2.2⟩
  intro phi hphi
  obtain ⟨hways, halloc, hfit⟩ := hall phi hphi
  exact ⟨hways, by rw [← hways.mem_iff]; exact decide_eq_true_iff, halloc, hfit⟩

/-- The outer merge of `chooseTwice` has three leaves. The second is found through its first input
and the second input of the inner merge. -/
theorem webs_and_leaves_chooseTwice : ∃ (g : Graph) (a : MergeAnalysis) (leaves : List Leaf),
    (a.merges.desc ⟨5, 1⟩).leaves = leaves ∧
    leaves = [.alloc 1 ⟨1, 1⟩, .alloc 0 ⟨2, 1⟩, .alloc 2 ⟨4, 1⟩] ∧
    a.merges.ListsWays (.phi ⟨5, 1⟩) leaves ∧ (a.merges.desc ⟨5, 1⟩).shapes.Fit g leaves ∧
    (Merges.ofCandidates Reduction.chooseTwice g [⟨5, 1⟩]).Components [⟨5, 1⟩]
      ((Merges.ofCandidates Reduction.chooseTwice g [⟨5, 1⟩]).webs [⟨5, 1⟩]) := by
  obtain ⟨g, changed, b₁, hg, h⟩ :=
    Graph.exists_propagated Reduction.plainClass Reduction.chooseTwice 100
    (P := fun g => (Metered.result? (compute Reduction.plainClass Reduction.chooseTwice g
      (fun _ => false) [] true) { limit := 300 }).any fun a =>
        (a.merges.desc ⟨5, 1⟩).leaves = [.alloc 1 ⟨1, 1⟩, .alloc 0 ⟨2, 1⟩, .alloc 2 ⟨4, 1⟩] ∧
        (∀ phi ∈ a.merges.keys, (∀ child ∈ a.merges.children phi, child.index < phi.index) ∧
          ∀ e ∈ (a.merges.desc phi).inputs, e.2 ≠ .unknown e.2.inst) ∧
        a.webs.any fun w => ⟨5, 1⟩ ∈ w.phis ∧ ∀ phi ∈ w.phis, phi ∈ a.merges.keys)
    (by decide +kernel)
  obtain ⟨a, b₂, ha, h⟩ := Metered.exists_yields h
  obtain ⟨hleaves, hkeys, h⟩ := of_decide_eq_true h
  obtain ⟨w, hw, h⟩ := any_eq_true.1 h
  obtain ⟨hphi, hwkeys⟩ := of_decide_eq_true h
  have hacyclic : ∀ q r, Relation.TransGen a.merges.HasChild q r → r.index < q.index := by
    intro q r h
    induction h with
    | single h => exact (hkeys _ (Merges.mem_keys_of_hasChild h)).1 _ h
    | tail _ h ih => exact Nat.lt_trans ((hkeys _ (Merges.mem_keys_of_hasChild h)).1 _ h) ih
  have hwf : Reduction.chooseTwice.WellFormed := .ofEntries rfl
  obtain ⟨hcomp, hall⟩ := webs_and_leaves (p := Reduction.plainClass) hwf
  obtain ⟨-, -, hweb⟩ := hall {} {} _ _ g changed hg _ _ _ a _ _ ha
  obtain ⟨hways, -, -, hfit⟩ := hweb w hw (fun q _ h => Nat.lt_irrefl _ (hacyclic q q h))
    (fun q hq e he x hx => (hkeys q (hwkeys q hq)).2 e he (by rw [hx]; rfl)) _ hphi
  refine ⟨g, a, _, rfl, hleaves, hways, hfit, hcomp g _ fun q hq => ?_⟩
  obtain rfl := mem_singleton.1 hq
  exact ⟨_, rfl⟩

end MergeAnalysis

end EscapeAnalysis
