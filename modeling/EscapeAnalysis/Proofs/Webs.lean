import EscapeAnalysis.Merge.Web
import EscapeAnalysis.Proofs.Tables
import EscapeAnalysis.Proofs.Walks

/-!
# Webs are components

A web is a connected component of the nesting relation. It is marked just if nesting runs in a
circle in it; otherwise every merge comes after the merges nested in it.
-/

namespace EscapeAnalysis

open List

namespace Merges

variable {m : Merges} {phi child root : InstId} {links : List (InstId × InstId)}

/-- Every merge is described under its own name. -/
def Named (m : Merges) : Prop := ∀ phi d, m.get? phi = some d → d.phi = phi

theorem mem_neighbors : child ∈ neighbors links phi ↔ (phi, child) ∈ links := by
  simp only [neighbors, mem_filterMap, Prod.exists]
  constructor
  · rintro ⟨a, b, hab, h⟩
    split at h
    · rename_i ha
      cases h
      exact ha ▸ hab
    · cases h
  · exact fun h => ⟨phi, child, h, if_pos rfl⟩

theorem mem_links_symm (h : (phi, child) ∈ m.links) : (child, phi) ∈ m.links := by
  simp only [links, mem_flatMap, mem_cons, not_mem_nil, or_false,
    Prod.mk.injEq] at h ⊢
  obtain ⟨d, hd, c, hc, ⟨rfl, rfl⟩ | ⟨rfl, rfl⟩⟩ := h
  · exact ⟨d, hd, child, hc, .inr ⟨rfl, rfl⟩⟩
  · exact ⟨d, hd, phi, hc, .inl ⟨rfl, rfl⟩⟩

theorem mem_links_of_child (hn : m.Named) (hphi : phi ∈ m.keys) (hc : child ∈ m.children phi) :
    (phi, child) ∈ m.links := by
  obtain ⟨d, hd⟩ := SideTable.mem_keys_iff.1 hphi
  simp only [links, mem_flatMap, mem_cons, not_mem_nil, or_false, Prod.mk.injEq]
  refine ⟨d, SideTable.mem_values_iff.2 ⟨phi, hd⟩, child, ?_, .inl ⟨(hn phi d hd).symm, rfl⟩⟩
  simpa [children, desc, hd] using hc

/-- A web holds a whole component of the nesting relation. Where nesting does not run in a circle,
every merge of the web comes after those nested in it. -/
structure IsWeb (m : Merges) (w : Web) : Prop where
  nonempty : w.phis ≠ []
  nodup : w.phis.Nodup
  closed : ∀ phi ∈ w.phis, ∀ child, (phi, child) ∈ m.links → child ∈ m.keys → child ∈ w.phis
  connected : ∀ R : InstId → InstId → Prop, Equivalence R →
    (∀ phi child, (phi, child) ∈ m.links → R phi child) → ∀ phi ∈ w.phis, ∀ q ∈ w.phis, R phi q
  sorted : w.obstacle = none → ∀ phi ∈ w.phis, ∀ child ∈ m.children phi, child ∈ m.keys →
    Before phi child w.phis.reverse
  circle : w.obstacle ≠ none → w.obstacle = some .loopCarried ∧
    ∃ phi ∈ w.phis, Relation.TransGen (fun a b => b ∈ m.children a) phi phi

theorem isWeb_webOf (hn : m.Named) {members} (hroot : root ∈ members)
    (hkeys : ∀ phi ∈ members, phi ∈ m.keys) (hclosed : ∀ phi ∈ members, ∀ child, (phi, child) ∈
      m.links → child ∈ m.keys → child ∈ members)
    (hconn : ∀ R : InstId → InstId → Prop, Equivalence R → (∀ phi child, (phi, child) ∈ m.links → R
      phi child) → ∀ phi ∈ members, R root phi) :
    m.IsWeb (m.webOf members) ∧ ∀ phi, phi ∈ (m.webOf members).phis ↔ phi ∈ members := by
  have hwalk := Walk.complete_walkFrom m.keys m.children members
  have hmem : ∀ phi, phi ∈ (m.webOf members).phis ↔ phi ∈ members := by
    intro phi
    refine ⟨fun hphi => ?_, fun hphi => mem_reverse.2 (hwalk.start phi hphi)⟩
    refine hwalk.induction (fun _ ha => ha) (fun a b ha hb hk => ?_) phi (mem_reverse.1 hphi)
    exact hclosed a ha b (mem_links_of_child hn (hkeys a ha) hb) hk
  refine ⟨⟨ne_nil_of_mem ((hmem root).2 hroot), ?_, fun phi hphi child hl hk => ?_,
    fun R hR hlinks phi hphi q hq => ?_, fun hnone phi hphi child hchild hk => ?_, fun hob => ?_⟩,
    hmem⟩
  · exact (reverse_perm _).nodup_iff.2 hwalk.nodup
  · exact (hmem child).2 (hclosed phi ((hmem phi).1 hphi) child hl hk)
  · exact hR.trans (hR.symm (hconn R hR hlinks phi ((hmem phi).1 hphi)))
      (hconn R hR hlinks q ((hmem q).1 hq))
  · simp only [webOf, ite_eq_right_iff, reduceCtorEq, imp_false, Bool.not_eq_true] at hnone
    simp only [webOf, reverse_reverse, mem_reverse] at hphi ⊢
    exact (hwalk.back phi hphi child hchild hk).resolve_right fun hr => by simp [hr.1] at hnone
  · simp only [webOf, ne_eq, ite_eq_right_iff, reduceCtorEq, imp_false, Decidable.not_not] at hob
    obtain ⟨phi, hphi, hcircle⟩ := hwalk.circle hob
    exact ⟨by simp [webOf, hob], phi, mem_reverse.2 hphi, hcircle⟩

/-- What is known of the webs found so far and of the merges they hold. -/
structure Split (m : Merges) (acc : List Web × List InstId) : Prop where
  taken : ∀ phi, phi ∈ acc.2 ↔ ∃ w ∈ acc.1, phi ∈ w.phis
  keys : ∀ phi ∈ acc.2, phi ∈ m.keys
  web : ∀ w ∈ acc.1, m.IsWeb w
  disjoint : acc.1.Pairwise fun w w' => ∀ phi ∈ w.phis, phi ∉ w'.phis

theorem Split.addWeb {acc} (hn : m.Named) (h : m.Split acc) (hroot : root ∈ m.keys) :
    m.Split (m.addWeb m.links acc root) ∧ root ∈ (m.addWeb m.links acc root).2 ∧
      ∀ phi ∈ acc.2, phi ∈ (m.addWeb m.links acc root).2 := by
  obtain ⟨webs, taken⟩ := acc
  rw [Merges.addWeb]
  split
  · rename_i htaken
    exact ⟨h, htaken, fun _ => id⟩
  rename_i hfree
  dsimp only
  obtain ⟨hstart, hnext⟩ :=
    mem_flood .newestFirst m.keys (neighbors m.links) [root] (root :: taken)
  generalize hmem : flood .newestFirst m.keys (neighbors m.links) [root] (root :: taken) = members
    at hstart hnext
  have hkeys : ∀ phi ∈ members, phi ∈ m.keys := by
    rw [← hmem]
    exact flood_induction _ (fun _ _ _ _ hn => hn) _ _ (by simpa using hroot)
  have hnew : ∀ phi ∈ members, phi ∉ taken := by
    intro phi hphi
    rw [← hmem] at hphi
    rcases not_mem_marked_of_mem_flood _ _ _ _ _ phi hphi with hp | hp
    · rw [mem_singleton.1 hp]
      exact hfree
    · exact fun ht => hp (.tail _ ht)
  -- A neighbor that an earlier web holds would have drawn this merge into that web.
  have hclosed : ∀ phi ∈ members, ∀ child, (phi, child) ∈ m.links → child ∈ m.keys →
      child ∈ members := by
    intro phi hphi child hlink hchild
    rcases hnext phi hphi child (mem_neighbors.2 hlink) hchild with hm | hm
    · rcases mem_cons.1 hm with rfl | hm
      · exact hstart child (by simp)
      · obtain ⟨w, hw, hchild'⟩ := (h.taken child).1 hm
        exact absurd ((h.taken phi).2 ⟨w, hw, (h.web w hw).closed child hchild' phi
          (mem_links_symm hlink) (hkeys phi hphi)⟩) (hnew phi hphi)
    · exact hm
  have hconn : ∀ R : InstId → InstId → Prop, Equivalence R →
      (∀ phi child, (phi, child) ∈ m.links → R phi child) → ∀ phi ∈ members, R root phi := by
    intro R hR hlinks
    rw [← hmem]
    refine flood_induction _ (fun a b ha hb _ => ?_) _ _ (by simpa using hR.refl root)
    exact hR.trans ha (hlinks a b (mem_neighbors.1 hb))
  have hfirst := hstart root (by simp)
  obtain ⟨hweb, hphis⟩ := isWeb_webOf hn hfirst hkeys hclosed hconn
  refine ⟨⟨fun phi => ?_, fun phi hphi => (mem_append.1 hphi).elim (hkeys phi) (h.keys phi),
    fun w hw => ?_, ?_⟩, mem_append_left _ hfirst, fun _ => mem_append_right _⟩
  · rw [mem_append, h.taken]
    simp only [mem_append, mem_singleton, or_and_right, exists_or, exists_eq_left, hphis]
    exact or_comm
  · rcases mem_append.1 hw with hw | hw
    · exact h.web w hw
    · exact mem_singleton.1 hw ▸ hweb
  · refine pairwise_append.2 ⟨h.disjoint, pairwise_singleton .., fun w hw w' hw' => ?_⟩
    rw [mem_singleton.1 hw']
    exact fun phi hphi hphi' =>
      hnew phi ((hphis phi).1 hphi') ((h.taken phi).2 ⟨w, hw, hphi⟩)

theorem split_webs (hn : m.Named) {candidates} (hk : ∀ phi ∈ candidates, phi ∈ m.keys) :
    ∃ taken, m.Split (m.webs candidates, taken) ∧ ∀ phi ∈ candidates, phi ∈ taken := by
  have hfold : ∀ (l : List InstId) (acc : List Web × List InstId), (∀ phi ∈ l, phi ∈ m.keys) →
      m.Split acc → m.Split (l.foldl (m.addWeb m.links) acc) ∧
        ∀ phi, phi ∈ acc.2 ∨ phi ∈ l → phi ∈ (l.foldl (m.addWeb m.links) acc).2 := by
    intro l
    induction l with
    | nil => exact fun _ _ h => ⟨h, fun phi hphi => hphi.resolve_right (by simp)⟩
    | cons root l ih =>
      intro acc hl h
      obtain ⟨hstep, hroot, hkeep⟩ := h.addWeb hn (hl root (by simp))
      obtain ⟨hrest, hall⟩ := ih _ (fun phi hphi => hl phi (.tail _ hphi)) hstep
      refine ⟨hrest, fun phi hphi => hall phi ?_⟩
      rcases hphi with hphi | hphi
      · exact .inl (hkeep phi hphi)
      · rcases mem_cons.1 hphi with rfl | hphi
        · exact .inl hroot
        · exact .inr hphi
  obtain ⟨h, hall⟩ := hfold candidates ([], []) hk ⟨by simp, by simp, by simp, .nil⟩
  exact ⟨_, h, fun phi hphi => hall phi (.inr hphi)⟩

end Merges

end EscapeAnalysis
