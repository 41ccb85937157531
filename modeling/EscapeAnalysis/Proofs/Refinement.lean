import EscapeAnalysis.Flow.Dominators
import Mathlib.Tactic.ByContra

/-!
# Refining dominators

While dominators are refined, each position that has one stands at the foot of a way up to the entry
(`Dominators.Climbs`). Two ways up meet where their common part begins (`Dominators.meet_spec`), so
a refined position keeps just what all its predecessors have above them.

Moving one dominator moves everything below it as well, and not all of that has been looked at
again. What keeps this right is that, back edges aside, a position not reached by the sweep yet has
nothing at or behind the sweep above it that its predecessors do not have (`Dominators.Refining`).
A sweep that changes nothing leaves the way up of each position within those of all its
predecessors, and one that changes something moves a dominator up (`Dominators.exists_settled`).
-/

namespace EscapeAnalysis

open List

namespace Dominators

variable {doms doms' : Doms} {preds : Array (List Nat)} {D : Nat → Nat → Prop}
  {a b d i j k p x y z : Nat}

theorem lt_size_of_isSome (h : (up doms i).isSome) : i < doms.size := by
  by_contra hi
  simp [up, Array.getD_eq_getD_getElem?, hi] at h

theorem up_set (hi : i < doms.size) (d : Option Nat) (j : Nat) :
    up (doms.setIfInBounds i d) j = if j = i then d else up doms j := by
  by_cases hj : j = i
  · simp [up, Array.getD_eq_getD_getElem?, hj, hi]
  · simp [up, Array.getD_eq_getD_getElem?, hj, Array.getElem?_setIfInBounds_ne (Ne.symm hj)]

theorem set_of_up_eq (h : up doms i = some d) : doms.setIfInBounds i (some d) = doms := by
  have hi : i < doms.size := lt_size_of_isSome (by simp [h])
  refine Array.ext (by simp) fun j hj hj' => ?_
  by_cases hji : i = j
  · subst hji
    simpa [up, hi] using h.symm
  · rw [Array.getElem_setIfInBounds_ne hj' hji]

/-- Position `k` is on the way up from `i`. -/
inductive Climbs (doms : Doms) : Nat → Nat → Prop
  | refl (i : Nat) : Climbs doms i i
  | up {i j k : Nat} : up doms i = some j → Climbs doms j k → Climbs doms i k

/-- Ways up lead to smaller positions and end at the entry. -/
structure Rooted (doms : Doms) : Prop where
  entry : up doms 0 = some 0
  lt : ∀ {i j}, up doms i = some j → 0 < i → j < i
  known : ∀ {i j}, (up doms j).isSome → i < j → (up doms i).isSome

namespace Climbs

theorem trans (h : Climbs doms i j) (h' : Climbs doms j k) : Climbs doms i k := by
  induction h with
  | refl => exact h'
  | up hup _ ih => exact .up hup (ih h')

theorem le (hr : Rooted doms) (h : Climbs doms i j) : j ≤ i := by
  induction h with
  | refl => exact Nat.le_refl _
  | @up i j k hup _ ih =>
    rcases Nat.eq_zero_or_pos i with rfl | hi
    · rw [hr.entry] at hup
      cases hup
      exact ih
    · exact Nat.le_trans ih (Nat.le_of_lt (hr.lt hup hi))

theorem of_ne (h : Climbs doms i k) (hne : k ≠ i) : ∃ j, Dominators.up doms i = some j ∧
    Climbs doms j k := by
  cases h with
  | refl => exact absurd rfl hne
  | up hup h => exact ⟨_, hup, h⟩

/-- The positions on one way up lie on one line. -/
theorem linear (hr : Rooted doms) (hj : Climbs doms i j) (hk : Climbs doms i k) (hle : k ≤ j) :
    Climbs doms j k := by
  induction hj with
  | refl => exact hk
  | @up i w j hup hw ih =>
    by_cases hki : k = i
    · subst hki
      have : j ≤ k := (Climbs.up hup hw).le hr
      exact (Nat.le_antisymm this hle) ▸ .refl _
    · obtain ⟨w', hup', hk'⟩ := hk.of_ne hki
      obtain rfl : w = w' := Option.some.inj (hup.symm.trans hup')
      exact ih hk' hle

/-- Only the positions between the ends of a way up matter to it. -/
theorem congr (h : Climbs doms i k)
    (hagree : ∀ z, Climbs doms i z → Climbs doms z k → z ≠ k →
      Dominators.up doms z = Dominators.up doms' z) : Climbs doms' i k := by
  induction h with
  | refl => exact .refl _
  | @up i j k hup hj ih =>
    by_cases hik : i = k
    · exact hik ▸ .refl _
    · refine .up ((hagree i (.refl i) (.up hup hj) hik).symm.trans hup) (ih fun z hz hzk hne => ?_)
      exact hagree z (.up hup hz) hzk hne

end Climbs

theorem Rooted.isSome (hr : Rooted doms) (hi : (up doms i).isSome) (h : Climbs doms i k) :
    (up doms k).isSome := by
  rcases Nat.lt_or_eq_of_le (h.le hr) with hlt | rfl
  · exact hr.known hi hlt
  · exact hi

/-- Two ways up have in common just what is on the way up from where they meet. -/
theorem meet_spec (hr : Rooted doms) : ∀ {i j : Nat}, (up doms i).isSome → (up doms j).isSome →
    ∃ m, meet doms i j = some m ∧ ∀ y, Climbs doms m y ↔ Climbs doms i y ∧ Climbs doms j y := by
  intro i j
  fun_induction meet doms i j with
  | case1 i => exact fun _ _ => ⟨i, rfl, fun y => by simp⟩
  | case2 i j hne hlt u hu hdown ih =>
    intro hi hj
    obtain ⟨m, hm, hall⟩ := ih (hr.known hi hdown) hj
    refine ⟨m, hm, fun y => (hall y).trans (and_congr_left fun hy => ⟨.up hu, fun h => ?_⟩)⟩
    have := hy.le hr
    obtain ⟨u', hu', h⟩ := h.of_ne (by omega)
    exact Option.some.inj (hu.symm.trans hu') ▸ h
  | case3 i j hne hlt u hu hdown => exact absurd (hr.lt hu (by omega)) hdown
  | case4 i j hne hlt hnone => exact fun hi => by simp [hnone] at hi
  | case5 i j hne hlt u hu hdown ih =>
    intro hi hj
    obtain ⟨m, hm, hall⟩ := ih hi (hr.known hj hdown)
    refine ⟨m, hm, fun y => (hall y).trans (and_congr_right fun hy => ⟨.up hu, fun h => ?_⟩)⟩
    have := hy.le hr
    obtain ⟨u', hu', h⟩ := h.of_ne (by omega)
    exact Option.some.inj (hu.symm.trans hu') ▸ h
  | case6 i j hne hlt u hu hdown => exact absurd (hr.lt hu (by omega)) hdown
  | case7 i j hne hlt hnone => exact fun _ hj => by simp [hnone] at hj

theorem foldlM_meet (hr : Rooted doms) : ∀ {ps : List Nat} {p : Nat}, (up doms p).isSome →
    (∀ q ∈ ps, (up doms q).isSome) →
    ∃ d, ps.foldlM (meet doms) p = some d ∧
      ∀ y, Climbs doms d y ↔ ∀ q ∈ p :: ps, Climbs doms q y
  | [], p, _, _ => ⟨p, rfl, fun y => by simp⟩
  | q :: ps, p, hp, hps => by
    obtain ⟨m, hm, hall⟩ := meet_spec hr hp (hps q (by simp))
    obtain ⟨d, hd, hall'⟩ := foldlM_meet hr
      (hr.isSome hp ((hall m).1 (.refl m)).1) fun q' hq' => hps q' (.tail _ hq')
    refine ⟨d, by simp [hm, hd], fun y => (hall' y).trans ?_⟩
    simp only [forall_mem_cons, hall, and_assoc]

/-- One dominator moves: position `i` goes below `d`, and the other positions stay where they are. -/
structure Moves (doms doms' : Doms) (i d : Nat) : Prop where
  rooted : Rooted doms
  lt : d < i
  front : ∀ {x}, x < i → (up doms x).isSome
  here : up doms' i = some d
  off : ∀ {j}, j ≠ i → up doms' j = up doms j

namespace Moves

variable (h : Moves doms doms' i d)
include h

theorem isSome (hj : (up doms j).isSome) : (up doms' j).isSome := by
  by_cases hji : j = i
  · simp [hji, h.here]
  · rwa [h.off hji]

theorem rooted' : Rooted doms' where
  entry := (h.off (Nat.ne_of_lt (Nat.zero_lt_of_lt h.lt))).trans h.rooted.entry
  lt {x y} hx hpos := by
    by_cases hxi : x = i
    · subst hxi
      rw [h.here] at hx
      cases hx
      exact h.lt
    · exact h.rooted.lt (h.off hxi ▸ hx) hpos
  known {x y} hy hxy := by
    by_cases hyi : y = i
    · exact h.isSome (h.front (hyi ▸ hxy))
    · exact h.isSome (h.rooted.known (h.off hyi ▸ hy) hxy)

theorem climbs_of_lt (hx : x < i) : Climbs doms' x y ↔ Climbs doms x y := by
  refine ⟨fun hc => hc.congr fun z hz _ _ => h.off ?_,
    fun hc => hc.congr fun z hz _ _ => (h.off ?_).symm⟩
  · have := hz.le h.rooted'
    omega
  · have := hz.le h.rooted
    omega

theorem climbs_of_le (hy : i ≤ y) : Climbs doms' x y ↔ Climbs doms x y := by
  refine ⟨fun hc => hc.congr fun z _ hz hne => h.off ?_,
    fun hc => hc.congr fun z _ hz hne => (h.off ?_).symm⟩
  · have := hz.le h.rooted'
    omega
  · have := hz.le h.rooted
    omega

theorem climbs_of_not (hx : ¬ Climbs doms x i) (hc : Climbs doms x y) : Climbs doms' x y := by
  refine hc.congr fun z hz _ _ => (h.off ?_).symm
  rintro rfl
  exact hx hz

theorem climbs_here (hc : Climbs doms d y) : Climbs doms' i y :=
  .up h.here ((h.climbs_of_lt h.lt).2 hc)

/-- If the position moves up, no way up gains anything. -/
theorem climbs_shrink (hmove : ∀ {old y}, up doms i = some old → Climbs doms d y →
    Climbs doms old y) (hc : Climbs doms' x y) (hx : (up doms x).isSome) : Climbs doms x y := by
  induction hc with
  | refl => exact .refl _
  | @up x e y hup hc ih =>
    by_cases hxi : x = i
    · subst hxi
      obtain ⟨old, hold⟩ := Option.isSome_iff_exists.1 hx
      rw [h.here] at hup
      cases hup
      exact .up hold (hmove hold ((h.climbs_of_lt h.lt).1 hc))
    · rw [h.off hxi] at hup
      exact .up hup (ih (h.rooted.isSome hx (.up hup (.refl e))))

end Moves

/-- What the refinement relies on: every position but the entry has a predecessor in front of it,
and what dominates a position also dominates its predecessors. -/
structure Ordered (preds : Array (List Nat)) (D : Nat → Nat → Prop) : Prop where
  pos : 0 < preds.size
  lt : ∀ {i p}, p ∈ preds.getD i [] → p < preds.size
  front : ∀ {i}, 0 < i → i < preds.size → ∃ p ∈ preds.getD i [], p < i
  entry : ∀ {y}, D y 0 → y = 0
  dom : ∀ {y i p}, D y i → y ≠ i → p ∈ preds.getD i [] → D y p

/-- What holds when the sweep comes to position `i`. -/
structure Refining (preds : Array (List Nat)) (D : Nat → Nat → Prop) (i : Nat) (doms : Doms) :
    Prop extends Rooted doms where
  size : doms.size = preds.size
  before : ∀ {x}, x < i → x < preds.size → (up doms x).isSome
  /-- Back edges aside, all predecessors have what a position has above it, up to where the sweep
  has come since it was at the position. -/
  shared : ∀ {b d p a}, up doms b = some d → 0 < b → p ∈ preds.getD b [] → p < b →
    i ≤ a ∨ b < i → Climbs doms d a → Climbs doms p a
  /-- A position has above it all that its predecessors have in common. -/
  greatest : ∀ {b d y}, up doms b = some d → 0 < b →
    (∀ p ∈ preds.getD b [], (up doms p).isSome → Climbs doms p y) → Climbs doms d y
  complete : ∀ {y x}, D y x → (up doms x).isSome → Climbs doms x y

/-- The ways up of the predecessors of `i` have in common just what is on the way up from `d`. -/
def Meets (preds : Array (List Nat)) (doms : Doms) (i d : Nat) : Prop :=
  ∀ y, Climbs doms d y ↔ ∀ p ∈ preds.getD i [], (up doms p).isSome → Climbs doms p y

section Step

variable (ho : Ordered preds D) (h : Refining preds D i doms)
include ho h

theorem Refining.exists_pred (hb : up doms b = some d) (hpos : 0 < b) :
    ∃ p ∈ preds.getD b [], p < b ∧ (up doms p).isSome := by
  have hset : (up doms b).isSome := by simp [hb]
  obtain ⟨p, hp, hlt⟩ := ho.front hpos (h.size ▸ lt_size_of_isSome hset)
  exact ⟨p, hp, hlt, h.known hset hlt⟩

/-- What is in front of the sweep's position and dominates something below it dominates the
position. -/
theorem Refining.dom_of_climbs (hx : (up doms x).isSome) (hxi : Climbs doms x i) (hy : D y x)
    (hyi : y < i) : D y i := by
  induction x using Nat.strongRecOn with
  | ind x ih =>
    by_cases hne : i = x
    · exact hne ▸ hy
    · obtain ⟨d, hd, hdi⟩ := hxi.of_ne hne
      have hlt : i < x := Nat.lt_of_le_of_ne (hxi.le h.toRooted) hne
      obtain ⟨p, hp, hpx, hset⟩ := h.exists_pred ho hd (by omega)
      exact ih p hpx hset (h.shared hd (by omega) hp hpx (.inl (Nat.le_refl i)) hdi)
        (ho.dom hy (by omega) hp)

theorem Refining.moves (hi : 0 < i) (hin : i < preds.size) (hd : Meets preds doms i d) :
    Moves doms (doms.setIfInBounds i (some d)) i d := by
  have hup := up_set (h.size ▸ hin) (some d)
  obtain ⟨p, hp, hlt⟩ := ho.front hi hin
  have hpd : Climbs doms p d := (hd d).1 (.refl d) p hp (h.before hlt (by omega))
  exact ⟨h.toRooted, Nat.lt_of_le_of_lt (hpd.le h.toRooted) hlt,
    fun hx => h.before hx (by omega), (hup i).trans (if_pos rfl),
    fun hj => (hup _).trans (if_neg hj)⟩

variable (hi : 0 < i) (hin : i < preds.size) (hd : Meets preds doms i d)
  (hm : Moves doms doms' i d)
include hi hd hm

omit ho in
theorem Refining.climbs_old (hc : Climbs doms' x y) (hx : (up doms x).isSome) : Climbs doms x y :=
  hm.climbs_shrink (fun hold hc => h.greatest hold hi ((hd _).1 hc)) hc hx

omit ho in
include hin in
theorem Refining.shared_moved (hb : up doms' b = some k) (hpos : 0 < b) (hp : p ∈ preds.getD b [])
    (hpb : p < b) (ha : i + 1 ≤ a ∨ b < i + 1) (hc : Climbs doms' k a) : Climbs doms' p a := by
  by_cases hbi : b = i
  · subst hbi
    rw [hm.here] at hb
    cases hb
    have hpa := (hd a).1 ((hm.climbs_of_lt hm.lt).1 hc) p hp (h.before hpb (by omega))
    exact (hm.climbs_of_lt hpb).2 hpa
  · rw [hm.off hbi] at hb
    rcases Nat.lt_or_gt_of_ne hbi with hlt | hgt
    · have hk := h.lt hb hpos
      have hpa := h.shared hb hpos hp hpb (.inr hlt) ((hm.climbs_of_lt (by omega)).1 hc)
      exact (hm.climbs_of_lt (by omega)).2 hpa
    · have hia : i ≤ a := by omega
      have hpa := h.shared hb hpos hp hpb (.inl hia) ((hm.climbs_of_le hia).1 hc)
      exact (hm.climbs_of_le hia).2 hpa

theorem Refining.greatest_moved (hb : up doms' b = some k) (hpos : 0 < b)
    (hall : ∀ p ∈ preds.getD b [], (up doms' p).isSome → Climbs doms' p y) :
    Climbs doms' k y := by
  have hold : ∀ p ∈ preds.getD b [], (up doms p).isSome → Climbs doms p y := fun p hp hset =>
    h.climbs_old hi hd hm (hall p hp (hm.isSome hset)) hset
  by_cases hbi : b = i
  · subst hbi
    rw [hm.here] at hb
    cases hb
    exact (hm.climbs_of_lt hm.lt).2 ((hd y).2 hold)
  · rw [hm.off hbi] at hb
    have hky := h.greatest hb hpos hold
    by_cases hki : Climbs doms k i
    · have hki' := (hm.climbs_of_le (Nat.le_refl i)).2 hki
      rcases Nat.lt_or_ge y i with hyi | hyi
      · -- a predecessor of `b` has `i` above it and still has `y`, so `i` has it too
        obtain ⟨p, hp, hpb, hset⟩ := h.exists_pred ho hb hpos
        have hpi := h.shared hb hpos hp hpb (.inl (Nat.le_refl i)) hki
        have hiy := ((hm.climbs_of_le (Nat.le_refl i)).2 hpi).linear hm.rooted'
          (hall p hp (hm.isSome hset)) (Nat.le_of_lt hyi)
        exact hki'.trans hiy
      · exact (hm.climbs_of_le hyi).2 hky
    · exact hm.climbs_of_not hki hky

omit hi in
theorem Refining.complete_moved (hy : D y x) (hset : (up doms' x).isSome) : Climbs doms' x y := by
  have hhere : D y i → y ≠ i → Climbs doms' i y := fun hy hne =>
    hm.climbs_here ((hd y).2 fun p hp => h.complete (ho.dom hy hne hp))
  by_cases hxi : x = i
  · subst hxi
    by_cases hyx : y = x
    · exact hyx ▸ .refl y
    · exact hhere hy hyx
  · rw [hm.off hxi] at hset
    have hxy := h.complete hy hset
    by_cases hpass : Climbs doms x i
    · rcases Nat.lt_or_ge y i with hyi | hyi
      · have hyD := h.dom_of_climbs ho hset hpass hy hyi
        exact ((hm.climbs_of_le (Nat.le_refl i)).2 hpass).trans (hhere hyD (by omega))
      · exact (hm.climbs_of_le hyi).2 hxy
    · exact hm.climbs_of_not hpass hxy

omit hm in
include hin in
/-- Moving the dominator of a position to where those of its predecessors meet. -/
theorem Refining.set : Refining preds D (i + 1) (doms.setIfInBounds i (some d)) := by
  have hm := h.moves ho hi hin hd
  refine ⟨hm.rooted', by rw [Array.size_setIfInBounds, h.size], fun {x} hx hxs => ?_,
    h.shared_moved hi hin hd hm, h.greatest_moved ho hi hd hm, h.complete_moved ho hd hm⟩
  by_cases hxi : x = i
  · simp [hxi, hm.here]
  · exact hm.isSome (h.before (by omega) hxs)

omit hi hd hm in
theorem Refining.refine (hi : 0 < i) (hin : i < preds.size) :
    ∃ d, refine preds doms i = some (doms.setIfInBounds i (some d)) ∧ Meets preds doms i d := by
  obtain ⟨p, hp, hlt⟩ := ho.front hi hin
  have hmem : ∀ q, q ∈ (preds.getD i []).filter (fun p => (up doms p).isSome) ↔
      q ∈ preds.getD i [] ∧ (up doms q).isSome := fun q => mem_filter
  rw [Dominators.refine]
  split
  · rename_i hnil
    have hmem := (hmem p).2 ⟨hp, h.before hlt (by omega)⟩
    rw [hnil] at hmem
    exact absurd hmem not_mem_nil
  · rename_i q qs hqs
    rw [hqs] at hmem
    obtain ⟨d, hd, hall⟩ := foldlM_meet h.toRooted ((hmem q).1 (by simp)).2
      fun q' hq' => ((hmem q').1 (.tail _ hq')).2
    refine ⟨d, by rw [hd]; rfl, fun y => (hall y).trans ?_⟩
    exact ⟨fun hc p hp hset => hc p ((hmem p).2 ⟨hp, hset⟩),
      fun hc p hp => hc p ((hmem p).1 hp).1 ((hmem p).1 hp).2⟩

end Step

theorem foldr_set {n d} : ∀ {l : List (Option Nat)} {i : Nat} (hi : i < l.length),
    (l.set i (some d)).foldr (·.getD n + ·) 0 + l[i].getD n = l.foldr (·.getD n + ·) 0 + d
  | [], _, hi => by simp at hi
  | v :: l, 0, _ => by simp; omega
  | v :: l, i + 1, hi => by
    have ih := foldr_set (n := n) (d := d) (Nat.lt_of_succ_lt_succ hi)
    simp only [set_cons_succ, foldr_cons, getElem_cons_succ] at ih ⊢
    omega

/-- A dominator that moves up takes from the room. -/
theorem room_set_lt {n} (hi : i < doms.size) (hne : up doms i ≠ some d)
    (hlt : ∀ old, up doms i = some old → d ≤ old) (hdn : d < n) :
    room n (doms.setIfInBounds i (some d)) < room n doms := by
  have hsum := foldr_set (n := n) (d := d) (l := doms.toList) (i := i) (by simpa using hi)
  have hget : doms.toList[i] = up doms i := by simp [up, hi]
  rw [hget] at hsum
  rw [room, room, Array.toList_setIfInBounds]
  rcases hup : up doms i with _ | old
  · rw [hup, Option.getD_none] at hsum
    omega
  · have hle := hlt old hup
    rw [hup] at hne hsum
    rw [Option.getD_some] at hsum
    have hdo : d ≠ old := fun e => hne (e ▸ rfl)
    omega

/-- The rest of a sweep either finds every position below where its predecessors meet, or moves a
dominator up. -/
theorem Refining.foldlM_refine (ho : Ordered preds D) : ∀ {k i : Nat} {doms : Doms},
    0 < i → i + k = preds.size → Refining preds D i doms →
    ∃ doms', (range' i k).foldlM (Dominators.refine preds) doms = some doms' ∧
      Refining preds D preds.size doms' ∧
      (doms' = doms ∧ (∀ j, i ≤ j → j < preds.size →
          ∃ d, up doms j = some d ∧ Meets preds doms j d) ∨
        room preds.size doms' < room preds.size doms)
  | 0, i, doms, _, hk, h => ⟨doms, rfl, by simpa [← hk] using h, .inl ⟨rfl, by omega⟩⟩
  | k + 1, i, doms, hi, hk, h => by
    have hin : i < preds.size := by omega
    obtain ⟨d, hrefine, hd⟩ := h.refine ho hi hin
    obtain ⟨doms', hrest, h', hor⟩ :=
      Refining.foldlM_refine ho (Nat.succ_pos i) (show i + 1 + k = preds.size by omega)
        (h.set ho hi hin hd)
    refine ⟨doms', by simp [range'_succ, hrefine, hrest], h', ?_⟩
    by_cases hsame : up doms i = some d
    · rw [set_of_up_eq hsame] at hor
      refine hor.imp_left fun ⟨he, hall⟩ => ⟨he, fun j hj hjn => ?_⟩
      rcases Nat.lt_or_eq_of_le hj with hlt | rfl
      · exact hall j hlt hjn
      · exact ⟨d, hsame, hd⟩
    · have hm := h.moves ho hi hin hd
      have hroom := room_set_lt (n := preds.size) (h.size ▸ hin) hsame
        (fun old hold => (h.greatest hold hi ((hd d).1 (.refl d))).le h.toRooted)
        (Nat.lt_trans hm.lt hin)
      refine .inr ?_
      rcases hor with ⟨rfl, -⟩ | hlt
      · exact hroom
      · omega

/-- What the refinement comes to: the way up of each position is within those of all its
predecessors, and holds all its dominators. -/
structure Settled (preds : Array (List Nat)) (D : Nat → Nat → Prop) (doms : Doms) : Prop
    extends Rooted doms where
  size : doms.size = preds.size
  isSome_of_lt : ∀ {i}, i < preds.size → (up doms i).isSome
  shared : ∀ {b d p y}, up doms b = some d → 0 < b → p ∈ preds.getD b [] → Climbs doms d y →
    Climbs doms p y
  complete : ∀ {y x}, D y x → x < preds.size → Climbs doms x y

theorem Refining.settled (ho : Ordered preds D) (h : Refining preds D 1 doms)
    (hmeets : ∀ j, 1 ≤ j → j < preds.size → ∃ d, up doms j = some d ∧ Meets preds doms j d) :
    Settled preds D doms := by
  have hset : ∀ {i}, i < preds.size → (up doms i).isSome := by
    intro i hi
    rcases Nat.eq_zero_or_pos i with rfl | hpos
    · simp [h.entry]
    · obtain ⟨d, hd, -⟩ := hmeets i hpos hi
      simp [hd]
  refine ⟨h.toRooted, h.size, hset, fun {b d p y} hb hpos hp hc => ?_,
    fun hy hx => h.complete hy (hset hx)⟩
  obtain ⟨d', hd', hall⟩ := hmeets b hpos (h.size ▸ lt_size_of_isSome (by simp [hb]))
  obtain rfl : d = d' := Option.some.inj (hb.symm.trans hd')
  exact (hall y).1 hc p hp (hset (ho.lt hp))

/-- After a sweep the next one can begin. -/
theorem Refining.restart (h : Refining preds D preds.size doms) : Refining preds D 1 doms where
  toRooted := h.toRooted
  size := h.size
  before _ hx := h.before hx hx
  shared {b d p a} hb hpos hp hpb _ hc := by
    have hlt : b < preds.size := h.size ▸ lt_size_of_isSome (by simp [hb])
    exact h.shared hb hpos hp hpb (.inr hlt) hc
  greatest := h.greatest
  complete := h.complete

/-- Sweeping comes to an end. -/
theorem Refining.settle (ho : Ordered preds D) {doms : Doms} (h : Refining preds D 1 doms) :
    ∃ doms', settle preds doms = some doms' ∧ Settled preds D doms' := by
  induction hroom : room preds.size doms using Nat.strongRecOn generalizing doms with
  | ind m ih =>
    have hpos := ho.pos
    obtain ⟨next, hsweep, hnext, hor⟩ := Refining.foldlM_refine ho Nat.one_pos
      (show 1 + (preds.size - 1) = preds.size by omega) h
    rw [Dominators.settle, sweep, h.size, hsweep, Option.bind_some]
    by_cases hsame : next = doms
    · subst hsame
      rw [if_pos rfl]
      rcases hor with ⟨-, hmeets⟩ | hlt
      · exact ⟨next, rfl, h.settled ho hmeets⟩
      · exact absurd hlt (Nat.lt_irrefl _)
    · have hlt := hor.resolve_left fun he => hsame he.1
      rw [if_neg hsame, if_pos ⟨hlt, hnext.size⟩]
      exact ih _ (hroom ▸ hlt) hnext.restart rfl

theorem refining_start (ho : Ordered preds D) : Refining preds D 1 (start preds.size) := by
  have hup : ∀ j, up (start preds.size) j = if j = 0 then some 0 else none := by
    intro j
    rw [start, up_set (by simpa using ho.pos)]
    by_cases hj : j < preds.size <;> simp [up, hj]
  have hzero : ∀ {j}, (up (start preds.size) j).isSome → j = 0 := by
    intro j hj
    by_contra hne
    simp [hup, hne] at hj
  have hpos : ∀ {b d}, up (start preds.size) b = some d → 0 < b → False := fun hb hpos => by
    have := hzero (Option.isSome_iff_exists.2 ⟨_, hb⟩)
    omega
  refine ⟨⟨(hup 0).trans (if_pos rfl), fun hb h0 => (hpos hb h0).elim, fun hj hij => ?_⟩,
    by simp [start], fun hx _ => ?_, fun hb h0 => (hpos hb h0).elim,
    fun hb h0 => (hpos hb h0).elim, fun {y x} hy hx => ?_⟩
  · have := hzero hj
    omega
  · simp [hup, Nat.lt_one_iff.1 hx]
  · obtain rfl := hzero hx
    obtain rfl := ho.entry hy
    exact .refl 0

/-- What sweeping ends with, another sweep does not change. -/
theorem sweep_of_settle (h : Dominators.settle preds doms = some doms') :
    sweep preds doms' = some doms' := by
  fun_induction Dominators.settle preds doms with
  | case1 doms ih =>
    obtain ⟨next, hsweep, h⟩ := Option.bind_eq_some_iff.1 h
    split at h
    · rename_i hsame
      cases h
      exact hsame ▸ hsweep
    · split at h
      · exact ih next ‹_› h
      · cases h

theorem exists_settled (ho : Ordered preds D) :
    ∃ doms, Dominators.settle preds (start preds.size) = some doms ∧ Settled preds D doms :=
  (refining_start ho).settle ho

end Dominators

end EscapeAnalysis
