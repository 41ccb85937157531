import EscapeAnalysis.Proofs.DescribedObjects

/-!
# Chains of replacements

In a body that passes the check, what replaces an instruction stands strictly above it: variables
only hold values that are visible where the planner is (`PlanContext.OrderedAt`). A phi that is the
same as another value is so on every path to its block, so that value stands strictly above the
block (`PlanContext.Ordered.aliased`). So whatever chain of replacements is followed in reachable
code, it climbs, and comes to its end. Unreachable code need not be ordered in this way: there a cast
may lead back to itself, and whoever follows it never comes to an end
(`PlanContext.Ordered.forward?_resolve_iff`).
-/

namespace EscapeAnalysis

open List
open Relation (ReflTransGen TransGen)

namespace Body

variable {body : Body} {b : BlockId} {x y z : InstId}

/-- `y` stands strictly above `x` in reachable code. -/
def Above (body : Body) (y x : InstId) : Prop :=
  ∃ b ∈ body.flow.order.blocks, ∃ i, (body.block b).insts[i]? = some x ∧ body.Available y b i

namespace Checked

variable (hc : body.Checked)
include hc

theorem above_trans (h : body.Above z y) (h' : body.Above y x) : body.Above z x := by
  obtain ⟨b, hb, i, hi, hz⟩ := h
  obtain ⟨d, hd, j, hj, ⟨e, k, hk, hplace⟩⟩ := h'
  obtain ⟨inst, hinst⟩ := hc.live hb (mem_of_getElem? hi)
  obtain ⟨rfl, rfl⟩ := hc.once y inst hinst b e i k hi hk
  exact ⟨d, hd, j, hj, hz.of_place hplace hd⟩

theorem not_above (x : InstId) : ¬ body.Above x x := by
  rintro ⟨b, hb, i, hi, hx⟩
  obtain ⟨op, hop, -⟩ := hc.inst b hb i x hi
  exact hc.not_available hop hi (Nat.le_refl i) hx

end Checked

/-- `y` is what the cast `x` casts. -/
def Casts (body : Body) (x y : InstId) : Prop := body.castSource? x = some y

/-- Looking through casts from `x` on leads round and round. -/
def CastCircle (body : Body) (x : InstId) : Prop :=
  ∃ y, ReflTransGen body.Casts x y ∧ TransGen body.Casts y y

theorem Above.reached (h : body.Above y x) : body.Reached y := by
  obtain ⟨b, hb, i, -, hav⟩ := h
  exact hav.reached hb

theorem Checked.above_of_casts (hc : body.Checked) (hx : body.Reached x) (hxy : body.Casts x y) :
    body.Above y x := by
  obtain ⟨b, hb, hx⟩ := hx
  obtain ⟨i, hi⟩ := mem_iff_getElem?.1 hx
  obtain ⟨cls, hop⟩ := castSource?_eq_some.1 hxy
  obtain ⟨op, hop', hcheck⟩ := hc.inst b hb i x hi
  obtain rfl := Option.mem_unique hop hop'
  exact ⟨b, hb, i, hi, hcheck.operands rfl y (by simp [Op.operands])⟩

theorem Checked.not_castCircle (hc : body.Checked) (hx : body.Reached x) :
    ¬ body.CastCircle x := by
  rintro ⟨y, hxy, hcircle⟩
  refine not_transGen_of_step (R := body.Above) (fun _ _ _ => hc.above_trans) hc.not_above
    (fun a b ha hab => .inl ?_) hx hxy hcircle
  have habove := hc.above_of_casts ha hab
  exact ⟨habove, habove.reached⟩

end Body

/-- An instruction that `A` holds of, a phi in a block that `D` holds of, or a value that has no
place. -/
def Scalar.At (home : Nat → Option BlockId) (A : InstId → Prop) (D : BlockId → Prop) :
    Scalar → Prop
  | inst y => A y
  | phi idx => ∃ d, home idx = some d ∧ D d
  | const _ | temp _ => True

theorem Scalar.At.imp {home A A' D D'} {v : Scalar} (h : v.At home A D) (hA : ∀ y, A y → A' y)
    (hD : ∀ d, D d → D' d) : v.At home A' D' := by
  cases v with
  | inst y => exact hA y h
  | phi idx => exact Exists.imp (fun d hd => ⟨hd.1, hD d hd.2⟩) h
  | const k => trivial
  | temp i => trivial

namespace VarPhi

variable {aliases : Array (Option Scalar)} {idx : Nat} {φ : VarPhi} {w : Scalar}

theorem onlyInput?_eq_some_iff : φ.onlyInput? aliases idx = some w ↔
    ((φ.inputs.map fun e => e.2.canon aliases).filter (· ≠ .phi idx)).eraseDups = [w] := by
  rw [onlyInput?]
  dsimp only
  split
  · rename_i u hu
    rw [hu]
    simp
  · rename_i hne
    exact ⟨nofun, fun h => absurd h (hne w)⟩

theorem canon_of_onlyInput? (h : φ.onlyInput? aliases idx = some w) {e} (he : e ∈ φ.inputs) :
    e.2.canon aliases = .phi idx ∨ e.2.canon aliases = w := by
  by_cases hphi : e.2.canon aliases = .phi idx
  · exact .inl hphi
  · have hmem : e.2.canon aliases ∈ ((φ.inputs.map fun e => e.2.canon aliases).filter
        (· ≠ .phi idx)).eraseDups := by
      rw [mem_eraseDups, mem_filter]
      exact ⟨mem_map.2 ⟨e, he, rfl⟩, by simpa using hphi⟩
    rw [onlyInput?_eq_some_iff.1 h] at hmem
    exact .inr (mem_singleton.1 hmem)

/-- What holds of the only input of a phi, given that it holds of the aliases found before, holds
of all aliases. -/
theorem simplify_induction {phis} {P : Nat → Scalar → Prop}
    (step : ∀ aliases idx w, idx < phis.size → (∀ i w, aliases.getD i none = some w → P i w) →
      (phis.getD idx default).onlyInput? aliases idx = some w → P idx w) :
    ∀ i w, (simplify phis).getD i none = some w → P i w := by
  have round : ∀ aliases : Array (Option Scalar), (∀ i w, aliases.getD i none = some w → P i w) →
      ∀ i w, (simplifyRound phis aliases).getD i none = some w → P i w := by
    intro aliases ha
    refine foldlRecOn (motive := fun aliases : Array (Option Scalar) =>
      ∀ i w, aliases.getD i none = some w → P i w) _ _ ha fun aliases ha idx hidx => ?_
    split
    · exact ha
    · intro i w hw
      rw [Array.getD_eq_getD_getElem?, Array.getElem?_setIfInBounds] at hw
      split at hw
      · rename_i hi
        split at hw
        · exact hi ▸ step aliases idx w (mem_range.1 hidx) ha hw
        · cases hw
      · exact ha i w (by rwa [Array.getD_eq_getD_getElem?])
  have rounds : ∀ n (aliases : Array (Option Scalar)),
      (∀ i w, aliases.getD i none = some w → P i w) →
      ∀ i w, (simplifyRounds phis n aliases).getD i none = some w → P i w := by
    intro n
    induction n with
    | zero => exact fun _ ha => ha
    | succ n ih =>
      intro aliases ha
      rw [simplifyRounds]
      split
      · exact ha
      · exact ih _ (round aliases ha)
  refine rounds _ _ fun i w hw => ?_
  simp only [Array.getD_eq_getD_getElem?, Array.getElem?_replicate] at hw
  split at hw <;> cases hw

end VarPhi

namespace PlanContext

open Planner

variable {c : PlanContext} {home : Nat → Option BlockId} {s t : Planner} {b d q : BlockId}
variable {x y : InstId} {i j : Nat} {v w : Scalar} {aliases : Array (Option Scalar)}

/-- The value can be used at position `i` of block `b`. -/
def Visible (c : PlanContext) (home : Nat → Option BlockId) (b : BlockId) (i : Nat) (v : Scalar) :
    Prop :=
  v.At home (c.body.Available · b i) (c.body.flow.Dom · b)

/-- The value stands strictly above block `b`. -/
def Higher (c : PlanContext) (home : Nat → Option BlockId) (b : BlockId) (v : Scalar) : Prop :=
  v.At home (c.body.Available · b 0) fun d => c.body.flow.Dom d b ∧ d ≠ b

theorem Visible.mono (h : c.Visible home b i v) (hij : i ≤ j) : c.Visible home b j v :=
  h.imp (fun _ h => h.mono hij) fun _ => id

theorem Visible.below (h : c.Visible home d i v) (hdom : c.body.flow.Dom d b) (hne : d ≠ b)
    (hb : b ∈ c.body.order) : c.Visible home b j v :=
  h.imp (fun _ h => h.below hdom hne hb) fun _ h => h.trans hdom

theorem Higher.visible (h : c.Higher home d v) (hdom : c.body.flow.Dom d b)
    (hb : b ∈ c.body.order) : c.Visible home b i v := by
  by_cases hne : d = b
  · exact hne ▸ h.imp (fun _ h => h.mono (Nat.zero_le i)) fun _ h => h.1
  · exact h.imp (fun _ h => h.below hdom hne hb) fun _ h => h.1.trans hdom

/-! ## While code is planned -/

/-- What replaces an instruction is visible where that stands, and what comes into a phi at the end
of the block that it comes from. -/
structure Ordered (c : PlanContext) (home : Nat → Option BlockId) (s : Planner) : Prop where
  homes : ∀ idx : Nat, (s.phis[idx]?).map VarPhi.block = home idx
  replace : ∀ x v, s.replace.get? x = some v → ∃ b ∈ c.body.flow.order.blocks, ∃ i,
    (c.body.block b).insts[i]? = some x ∧ c.Visible home b i v
  inputs : ∀ (idx : Nat) φ, s.phis[idx]? = some φ → ∀ e ∈ φ.inputs,
    c.Visible home e.1 (c.body.block e.1).insts.length e.2

/-- Besides, the variables hold values that are visible at position `i` of block `b`. -/
structure OrderedAt (c : PlanContext) (home : Nat → Option BlockId) (b : BlockId) (i : Nat)
    (s : Planner) : Prop extends Ordered c home s where
  env : ∀ var, c.Visible home b i (s.get var)

namespace OrderedAt

theorem mono (h : c.OrderedAt home b i s) (hij : i ≤ j) : c.OrderedAt home b j s :=
  ⟨h.toOrdered, fun var => (h.env var).mono hij⟩

theorem set (h : c.OrderedAt home b i s) (hv : c.Visible home b i v) (var : Nat) :
    c.OrderedAt home b i (s.set var v) := by
  refine ⟨⟨h.homes, h.replace, h.inputs⟩, fun var' => ?_⟩
  have hold := h.env var'
  simp only [Planner.get, Planner.set, Array.getD_eq_getD_getElem?,
    Array.getElem?_setIfInBounds] at hold ⊢
  split
  · split
    · exact hv
    · trivial
  · exact hold

theorem upheld (hb : b ∈ c.body.order) (hx : (c.body.block b).insts[i]? = some x) :
    c.Upheld x (c.Visible home b i) (c.OrderedAt home b i) where
  const _ := trivial
  temp _ := trivial
  get _ var h := h.env var
  set _ var _ hv h := h.set hv var
  kill _ h := ⟨⟨h.homes, h.replace, h.inputs⟩, h.env⟩
  replaceBy s v hv h := by
    refine ⟨⟨h.homes, fun y w hw => ?_, h.inputs⟩, h.env⟩
    rcases SideTable.get?_insert_cases _ _ _ hw with ⟨rfl, rfl⟩ | hw
    · exact ⟨b, hb, i, hx, hv⟩
    · exact h.replace y w hw
  addTemp _ _ _ _ h := ⟨⟨h.homes, h.replace, h.inputs⟩, h.env⟩
  fail := fail_of fun _ _ h => ⟨⟨h.homes, h.replace, h.inputs⟩, h.env⟩
  unlock _ _ h := ⟨⟨h.homes, h.replace, h.inputs⟩, h.env⟩

theorem snapshot (h : c.OrderedAt home b i s) (sp : SafepointId) :
    c.OrderedAt home b i (c.snapshot s sp) :=
  snapshot_of (fail_of fun _ _ h => ⟨⟨h.homes, h.replace, h.inputs⟩, h.env⟩)
    (fun _ _ _ _ h => ⟨⟨h.homes, h.replace, h.inputs⟩, h.env⟩) h sp

theorem planInst (hc : c.body.Checked) (hb : b ∈ c.body.order)
    (hx : (c.body.block b).insts[i]? = some x) (h : c.OrderedAt home b i s) :
    c.OrderedAt home b (i + 1) (c.planInst b s x) := by
  obtain ⟨op, hop, hcheck⟩ := hc.inst b hb i x hx
  refine (planInst_of (fun s sp h => h.snapshot sp) (fun s op' hop' h => ?_) h).mono
    (Nat.le_succ i)
  obtain rfl := Option.mem_unique hop hop'
  cases hphi : op.isPhi with
  | false => exact (upheld hb hx).planOp h b (hcheck.operands hphi)
  | true =>
    cases op with
    | phi inputs => exact h
    | _ => cases hphi

/-- Along the code of a block, position by position. -/
theorem foldl_planInst (hc : c.body.Checked) (hb : b ∈ c.body.order) :
    ∀ {l r : List InstId} {i : Nat} {s : Planner},
      (c.body.block b).insts.drop i = l ++ r → c.OrderedAt home b i s →
      c.OrderedAt home b (i + l.length) (l.foldl (c.planInst b) s)
  | [], _, _, _, _, h => h
  | x :: l, r, i, s, hl, h => by
    have hx : (c.body.block b).insts[i]? = some x := by
      rw [← List.head?_drop, hl]
      rfl
    have hrest : (c.body.block b).insts.drop (i + 1) = l ++ r := by
      rw [← tail_drop, hl]
      rfl
    have := foldl_planInst hc hb hrest (h.planInst hc hb hx)
    rwa [Nat.add_right_comm, Nat.add_assoc] at this

theorem addInput (h : c.OrderedAt home b (c.body.block b).insts.length s) (idx : Nat) :
    c.OrderedAt home b (c.body.block b).insts.length (addInput b s idx) := by
  refine ⟨⟨fun k => ?_, h.replace, fun k φ hφ e he => ?_⟩, h.env⟩
  · rw [← h.homes k]
    simp only [PlanContext.addInput, Array.getElem?_modify]
    split
    · rw [Option.map_map]
      rfl
    · rfl
  · simp only [PlanContext.addInput, Array.getElem?_modify] at hφ
    split at hφ
    · obtain ⟨φ, hold, rfl⟩ := Option.map_eq_some_iff.1 hφ
      rcases mem_append.1 he with he | he
      · exact h.inputs k φ hold e he
      · obtain rfl := mem_singleton.1 he
        exact h.env _
    · exact h.inputs k φ hφ e he

end OrderedAt

/-- Some value comes into the phi from block `q`. -/
def Fed (s : Planner) (idx : Nat) (q : BlockId) : Prop :=
  ∃ φ v, s.phis[idx]? = some φ ∧ (q, v) ∈ φ.inputs

theorem Fed.addInput (h : Fed s i q) (b : BlockId) (idx : Nat) : Fed (addInput b s idx) i q := by
  obtain ⟨φ, v, hφ, hv⟩ := h
  simp only [Fed, PlanContext.addInput, Array.getElem?_modify, hφ]
  split
  · exact ⟨_, v, rfl, mem_append_left _ hv⟩
  · exact ⟨φ, v, rfl, hv⟩

theorem fed_addInput {φ} (h : s.phis[i]? = some φ) (b : BlockId) : Fed (addInput b s i) i b := by
  simp only [Fed, PlanContext.addInput, Array.getElem?_modify, h, if_true]
  exact ⟨_, _, rfl, mem_append_right _ (mem_singleton.2 rfl)⟩

section Blocks

variable {phisOf : SideTable .block (List Nat)} {done : List BlockId}
variable {ends : SideTable .block (Array Scalar)}

theorem Fed.planBlock (h : Fed s i q) (b : BlockId) : Fed (c.planBlock phisOf s b) i q := by
  have stable : ∀ x, c.Stable x (Fed · i q) := fun x => ⟨fun _ _ h => h, fun _ h => h,
    fun _ _ h => h, fun _ _ _ _ h => h, fail_of fun _ _ h => h, fun _ _ h => h⟩
  have snapshot : ∀ s sp, Fed s i q → Fed (c.snapshot s sp) i q := fun s sp h =>
    snapshot_of (I := (Fed · i q)) (stable .null).fail (fun _ _ _ _ h => h) h sp
  exact planBlock_rec (I := (Fed · i q)) (fun _ _ _ h => h) (fun _ x _ h =>
    planInst_of (I := (Fed · i q)) snapshot (fun s op _ h => (stable x).planOp h b op) h) snapshot
    (fun _ idx h => h.addInput b idx) h

/-- A block hands a value to every phi that it lists. -/
theorem OrderedAt.addInputs (h : c.OrderedAt home b (c.body.block b).insts.length s)
    (l : List Nat) :
    c.OrderedAt home b (c.body.block b).insts.length (l.foldl (PlanContext.addInput b) s) ∧
      ∀ idx ∈ l, ∀ d, home idx = some d → Fed (l.foldl (PlanContext.addInput b) s) idx b := by
  refine ⟨foldlRecOn _ _ h fun s h idx _ => h.addInput idx, fun idx hmem d hidx => ?_⟩
  obtain ⟨l1, l2, rfl⟩ := append_of_mem hmem
  rw [foldl_append, foldl_cons]
  refine foldlRecOn (motive := (Fed · idx b)) _ _ ?_ fun s h k _ => h.addInput b k
  have hmid := foldlRecOn (motive := c.OrderedAt home b _) l1 _ h fun s h idx _ => h.addInput idx
  obtain ⟨φ, hφ, -⟩ := Option.map_eq_some_iff.1 ((hmid.homes idx).trans hidx)
  exact fed_addInput hφ b

/-- What holds once the blocks in `done` have been planned. -/
structure Through (c : PlanContext) (home : Nat → Option BlockId) (done : List BlockId)
    (ends : SideTable .block (Array Scalar)) (s : Planner) : Prop extends Ordered c home s where
  ends : ∀ d env, ends.get? d = some env → ∀ var : Nat,
    c.Visible home d (c.body.block d).insts.length (env.getD var default)
  fed : ∀ q ∈ done, ∀ idx d, home idx = some d → d ∈ (c.body.block q).term.targets → Fed s idx q

theorem Through.start (hwf : c.body.WellFormed) (hb : b ∈ c.body.order)
    (h : c.Through home done ends s) : c.OrderedAt home b 0 { s with env := c.envAt ends b } := by
  refine ⟨⟨h.homes, h.replace, h.inputs⟩, fun var => ?_⟩
  refine envAt_cases (Q := fun env => c.Visible home b 0 (env.getD var default)) ?_
    fun d env hd he => ?_
  · rw [startEnv, Array.getD_eq_getD_getElem?, Array.getElem?_map]
    cases c.layout.vars[var]? <;> trivial
  · have hne : b ≠ c.body.flow.entry := by
      rintro rfl
      rw [DomTree.idom?_entry hwf] at hd
      cases hd
    obtain ⟨d', hd', hdb, -, hdom, -⟩ := DomTree.idom?_spec hwf hb hne
    obtain rfl := Option.mem_unique hd hd'
    exact (h.ends d env he var).below hdom hdb hb

/-- The planners that planning some blocks passes: in front of every instruction of their code,
behind the last one, and at the end. -/
inductive Passes (c : PlanContext) (phisOf : SideTable .block (List Nat)) :
    List BlockId → SideTable .block (Array Scalar) → Planner → Planner → Prop
  | code {b bs ends s l₁ l₂} : c.body.code b = l₁ ++ l₂ → Passes c phisOf (b :: bs) ends s
      (l₁.foldl (c.planInst b) (enter phisOf { s with env := c.envAt ends b } b))
  | next {b bs ends s t} : Passes c phisOf bs
      (ends.insert b (c.planBlock phisOf { s with env := c.envAt ends b } b).env)
      (c.planBlock phisOf { s with env := c.envAt ends b } b) t →
      Passes c phisOf (b :: bs) ends s t
  | done {ends : SideTable .block (Array Scalar)} {s : Planner} : Passes c phisOf [] ends s s

/-- The planners that renaming passes. -/
def Passing (c : PlanContext) (t : Planner) : Prop :=
  let phis := c.varPhis (.ofTree c.body.flow c.body.domTree)
  c.Passes (phisByBlock phis) c.body.domTree.preorder {} { env := #[], phis := phis.toArray } t

section Own

variable (hc : c.body.Checked)
variable (hown : ∀ b idx, idx ∈ (phisOf.get? b).getD [] ↔ home idx = some b)
include hc hown

theorem OrderedAt.code (hb : b ∈ c.body.order) (h : c.OrderedAt home b 0 s) {l1 l2}
    (hl : c.body.code b = l1 ++ l2) :
    c.OrderedAt home b (c.body.phiCount b + l1.length)
      (l1.foldl (c.planInst b) (enter phisOf s b)) := by
  refine foldl_planInst hc hb (r := l2) ?_ (OrderedAt.mono (i := 0) ?_ (Nat.zero_le _))
  · rw [c.body.insts_eq, Body.phiCount, drop_left, hl]
  · exact foldlRecOn (motive := c.OrderedAt home b 0) _ _ h fun s h idx hidx =>
      h.set (v := .phi idx) ⟨b, (hown b idx).1 hidx, .refl _ _⟩ _

theorem OrderedAt.planBlock (hb : b ∈ c.body.order) (h : c.OrderedAt home b 0 s) :
    c.OrderedAt home b (c.body.block b).insts.length (c.planBlock phisOf s b) ∧
      ∀ idx d, home idx = some d → d ∈ (c.body.block b).term.targets →
        Fed (c.planBlock phisOf s b) idx b := by
  have hlen : (c.body.block b).insts.length = c.body.phiCount b + (c.body.code b).length := by
    rw [c.body.insts_eq, length_append, Body.phiCount]
  have hcode := h.code hc hown hb (append_nil (c.body.code b)).symm
  rw [← hlen] at hcode
  rw [PlanContext.planBlock]
  refine (OrderedAt.addInputs ?_ _).imp_right fun hfed idx d hidx hd =>
    hfed idx (mem_flatMap.2 ⟨d, ?_, (hown d idx).2 hidx⟩) d hidx
  · rw [termPlan]
    split
    · exact hcode.snapshot _
    · exact hcode
  · simpa [distinctTargets, mem_mergeSort] using hd

variable (hwf : c.body.WellFormed)
include hwf

theorem Through.planBlock (hb : b ∈ c.body.order) (h : c.Through home done ends s) :
    c.Through home (b :: done)
      (ends.insert b (c.planBlock phisOf { s with env := c.envAt ends b } b).env)
      (c.planBlock phisOf { s with env := c.envAt ends b } b) := by
  obtain ⟨hblock, hfed⟩ := (h.start hwf hb).planBlock hc hown hb
  refine ⟨hblock.toOrdered, fun d env hd var => ?_, fun q hq idx d hidx hd => ?_⟩
  · rcases SideTable.get?_insert_cases _ _ _ hd with ⟨rfl, rfl⟩ | hd
    · exact hblock.env var
    · exact h.ends d env hd var
  · rcases mem_cons.1 hq with rfl | hq
    · exact hfed idx d hidx hd
    · have hold : Fed { s with env := c.envAt ends b } idx q := h.fed q hq idx d hidx hd
      exact hold.planBlock b

theorem Passes.ordered {bs} (hp : c.Passes phisOf bs ends s t) (hbs : ∀ b ∈ bs, b ∈ c.body.order)
    (h : c.Through home done ends s) : c.Ordered home t := by
  induction hp generalizing done with
  | code hl =>
    have hb := hbs _ (.head _)
    exact ((h.start hwf hb).code hc hown hb hl).toOrdered
  | next _ ih =>
    exact ih (fun d hd => hbs d (.tail _ hd)) (h.planBlock hc hown hwf (hbs _ (.head _)))
  | done => exact h.toOrdered

end Own

end Blocks

/-- The blocks of the phis. -/
def phiBlock? (c : PlanContext) (idx : Nat) : Option BlockId :=
  ((c.varPhis (.ofTree c.body.flow c.body.domTree))[idx]?).map VarPhi.block

theorem inputs_varPhis {φ} (h : φ ∈ c.varPhis (.ofTree c.body.flow c.body.domTree)) :
    φ.inputs = [] := by
  simp only [varPhis, mem_flatMap, mem_map] at h
  obtain ⟨o, -, b, -, var, -, rfl⟩ := h
  rfl

theorem through_start (c : PlanContext) : c.Through c.phiBlock? [] {}
    { env := #[], phis := (c.varPhis (.ofTree c.body.flow c.body.domTree)).toArray } := by
  refine ⟨⟨fun idx => by simp [phiBlock?], fun _ _ h => (by cases h), fun idx φ hφ e he => ?_⟩,
    fun _ _ h => (by cases h), by simp⟩
  rw [inputs_varPhis (mem_of_getElem? (by simpa using hφ))] at he
  cases he

section Start

variable (hwf : c.body.WellFormed)
include hwf

theorem mem_phisByBlock {ps} (hps : ∀ φ ∈ ps, φ.block ∈ c.body.order) (b : BlockId)
    (idx : Nat) : idx ∈ ((phisByBlock ps).get? b).getD [] ↔
      (ps[idx]?).map VarPhi.block = some b := by
  have loop : ∀ (l : List (VarPhi × Nat)) (t : SideTable .block (List Nat)),
      t.Within c.body.blocks → (∀ e ∈ l, e.1 ∈ ps) →
      (idx ∈ ((l.foldl (fun t e => t.alter e.1.block fun l => e.2 :: l.getD []) t).get? b).getD [] ↔
        idx ∈ (t.get? b).getD [] ∨ ∃ φ, (φ, idx) ∈ l ∧ φ.block = b) := by
    intro l
    induction l with
    | nil => simp
    | cons e l ih =>
      intro t ht hl
      obtain ⟨block, hblock⟩ := Body.mem_flow_blocks.1
        (hwf.live_of_mem_order (hps e.1 (hl e (.head _))))
      obtain ⟨φ, k⟩ := e
      rw [foldl_cons, ih (t.alter φ.block fun l => k :: l.getD []) (ht.insert hblock _)
        fun e he => hl e (.tail _ he), SideTable.alter,
        SideTable.get?_insert hwf.blocks ht hblock]
      by_cases hb : b = φ.block <;> by_cases hk : idx = k <;> grind
  have hlist := loop ps.zipIdx.reverse {} (.empty _) fun e he =>
    mem_of_getElem? (mem_zipIdx_iff_getElem?.1 (mem_reverse.1 he))
  refine hlist.trans ?_
  simp only [mem_reverse, mem_zipIdx_iff_getElem?, Option.map_eq_some_iff]
  exact ⟨fun h => h.resolve_left not_mem_nil, .inr⟩

theorem block_varPhis {φ} (h : φ ∈ c.varPhis (.ofTree c.body.flow c.body.domTree)) :
    φ.block ∈ c.body.order ∧ φ.block ≠ c.body.flow.entry := by
  simp only [varPhis, mem_flatMap, mem_map] at h
  obtain ⟨o, -, b, hb, var, -, rfl⟩ := h
  obtain ⟨j, hj, k, -, hk⟩ := Frontiers.mem_iterated.1 hb
  obtain ⟨y, hy, hne⟩ := Frontiers.block_of_mem_get hwf hk
  obtain rfl := Option.mem_unique hj hy
  exact ⟨mem_of_getElem? hj, hne⟩

theorem phiBlock?_spec (h : c.phiBlock? i = some d) :
    d ∈ c.body.order ∧ d ≠ c.body.flow.entry := by
  obtain ⟨φ, hφ, rfl⟩ := Option.map_eq_some_iff.1 h
  exact block_varPhis hwf (mem_of_getElem? hφ)

variable (hc : c.body.Checked)
include hc

theorem Passing.ordered (h : c.Passing t) : c.Ordered c.phiBlock? t :=
  Passes.ordered hc (mem_phisByBlock hwf fun _ hφ => (block_varPhis hwf hφ).1) hwf h
    (fun _ hb => (DomTree.mem_preorder hwf).1 hb) c.through_start

/-- After all reachable code has been planned, each reachable predecessor feeds the phis. -/
theorem meets_ordered : Metered.Answers (fun s => c.Ordered c.phiBlock? s ∧
    ∀ idx d, c.phiBlock? idx = some d → ∀ q ∈ c.body.order, c.body.flow.Edge q d →
      Fed s idx q) c.rename := by
  refine (meets_rename_rec (J := c.Through c.phiBlock?) (fun b hb done ends s h =>
    h.planBlock hc (mem_phisByBlock hwf fun _ hφ => (block_varPhis hwf hφ).1) hwf
      ((DomTree.mem_preorder hwf).1 hb)) c.through_start).mono fun s hs => ?_
  obtain ⟨ends, hs⟩ := hs
  refine ⟨hs.toOrdered, fun idx d hidx q hq e => hs.fed q ?_ idx d hidx (Body.edge_iff.1 e).1⟩
  simpa using (DomTree.mem_preorder hwf).2 hq

end Start

/-! ## Phis that are the same as other values -/

/-- A phi is the same only as values that stand strictly above it. -/
def Aliased (c : PlanContext) (home : Nat → Option BlockId) (aliases : Array (Option Scalar)) :
    Prop :=
  ∀ (i : Nat) w, aliases.getD i none = some w → ∃ d, home i = some d ∧ c.Higher home d w

theorem Aliased.visible_canon (ha : c.Aliased home aliases) (hb : b ∈ c.body.order)
    (h : c.Visible home b i v) : c.Visible home b i (v.canon aliases) := by
  refine chainEnd_induction (P := c.Visible home b i) (fun v w hv hw => ?_) _ v h
  cases v with
  | phi k =>
    obtain ⟨d, hd, hw⟩ := ha k w hw
    obtain ⟨d', hd', hdom⟩ := hv
    obtain rfl := Option.mem_unique hd hd'
    exact hw.visible hdom hb
  | inst x | const k | temp k => cases hw

/-- What is visible at the ends of all blocks from which a block is first entered stands strictly
above the block. -/
theorem higher_of_entries (hc : c.body.Checked) (hd : d ∈ c.body.order)
    (hne : d ≠ c.body.flow.entry)
    (h : ∀ q, c.body.flow.Reachable q → c.body.flow.Edge q d → ¬ c.body.flow.Dom d q →
      c.Visible home q (c.body.block q).insts.length v) : c.Higher home d v := by
  have hr := Body.mem_order_iff.1 hd
  obtain ⟨l, hl⟩ := hr
  obtain ⟨q0, m, hpath, he, hm, -⟩ := hl.first_entry hne
  have hq0 := h q0 ⟨m, hpath⟩ he fun hdom => hm (hdom m hpath)
  cases v with
  | const k => trivial
  | temp k => trivial
  | phi k =>
    obtain ⟨a, ha, -⟩ := hq0
    refine ⟨a, ha, Flow.Dom.of_first_entries ⟨l, hl⟩ hne fun q hq he hnd => ?_⟩
    obtain ⟨a', ha', hdom⟩ := h q hq he hnd
    exact Option.mem_unique ha' ha ▸ hdom
  | inst y =>
    obtain ⟨a, ha, hy⟩ := Body.Available.reached hq0 (Body.mem_order_iff.2 ⟨m, hpath⟩)
    obtain ⟨inst, hinst⟩ := hc.live ha hy
    obtain ⟨j, hj⟩ := mem_iff_getElem?.1 hy
    have habove := Flow.Dom.of_first_entries (a := a) ⟨l, hl⟩ hne fun q hq he hnd => ?_
    · exact ⟨a, j, hj, .inr ⟨habove.2, habove.1⟩⟩
    · obtain ⟨a', j', hj', hplace⟩ := h q hq he hnd
      obtain ⟨rfl, -⟩ := hc.once y inst hinst a a' j j' hj hj'
      exact hplace.elim (fun hd => hd.1 ▸ .refl _ _) And.right

section Aliases

variable (hwf : c.body.WellFormed)
include hwf

theorem Ordered.aliased (hc : c.body.Checked) (h : c.Ordered c.phiBlock? s)
    (hfed : ∀ idx d, c.phiBlock? idx = some d → ∀ q ∈ c.body.order,
      c.body.flow.Edge q d → Fed s idx q) : c.Aliased c.phiBlock? (VarPhi.simplify s.phis) := by
  refine VarPhi.simplify_induction fun aliases idx w hidx ha hw => ?_
  have hφ : s.phis[idx]? = some (s.phis.getD idx default) := by
    simp [Array.getD_eq_getD_getElem?, hidx]
  have hhome := h.homes idx
  rw [hφ, Option.map_some] at hhome
  generalize s.phis.getD idx default = φ at hφ hhome hw
  obtain ⟨hd, hne⟩ := phiBlock?_spec hwf hhome.symm
  refine ⟨φ.block, hhome.symm, higher_of_entries hc hd hne fun q hq he hnd => ?_⟩
  obtain ⟨φ', v, hφ', hv⟩ := hfed idx φ.block hhome.symm q (Body.mem_order_iff.2 hq) he
  obtain rfl := Option.mem_unique hφ hφ'
  have hcanon := Aliased.visible_canon ha (Body.mem_order_iff.2 hq) (h.inputs idx φ hφ (q, v) hv)
  -- an input that is the phi itself does not come from a block that first enters the phi's own
  rcases VarPhi.canon_of_onlyInput? hw hv with hself | hw
  · rw [hself] at hcanon
    obtain ⟨d, hd, hdom⟩ := hcanon
    exact absurd (Option.some.inj (hhome.trans hd) ▸ hdom) hnd
  · exact hw ▸ hcanon

theorem Aliased.acyclic (ha : c.Aliased c.phiBlock? aliases) (v : Scalar) :
    ¬ TransGen (fun v w => v.alias? aliases = some w) v v := by
  -- the block of a phi strictly dominates those of the phis that are the same as it
  refine not_transGen_of_step (P := fun _ => True) (R := fun w v => ∃ i k d e, v = .phi i ∧
    w = .phi k ∧ c.phiBlock? i = some d ∧ c.phiBlock? k = some e ∧ c.body.flow.Dom e d ∧ e ≠ d)
    ?_ ?_ ?_ trivial .refl
  · rintro _ _ _ ⟨i, k, d, e, rfl, rfl, hi, hk, hdom, hne⟩
      ⟨i', k', d', e', rfl, hphi, hi', hk', hdom', -⟩
    cases hphi
    obtain rfl := Option.mem_unique hi hk'
    refine ⟨i', k, d', e, rfl, rfl, hi', hk, hdom.trans hdom', ?_⟩
    rintro rfl
    exact hne (hdom.antisymm (Body.mem_order_iff.1 (phiBlock?_spec hwf hi).1) hdom')
  · rintro _ ⟨i, k, d, e, rfl, hik, hi, hk, -, hne⟩
    cases hik
    exact hne (Option.mem_unique hk hi)
  · rintro (_ | i | _ | _) w - hw
    · cases hw
    · obtain ⟨d, hd, hw⟩ := ha i w hw
      cases w with
      | phi k =>
        obtain ⟨e, he, hdom, hne⟩ := hw
        exact .inl ⟨⟨i, k, d, e, rfl, rfl, hd, he, hdom, hne⟩, trivial⟩
      | inst x | const k | temp k => exact .inr rfl
    · cases hw
    · cases hw

theorem Aliased.alias?_canon (ha : c.Aliased c.phiBlock? aliases) (v : Scalar) :
    (v.canon aliases).alias? aliases = none := by
  have hlen : ((List.range aliases.size).map Scalar.phi).length ≤ aliases.size := by simp
  refine next_chainEnd hlen (fun w u _ hw => ?_) fun w _ => ha.acyclic hwf w
  cases w with
  | phi i =>
    refine mem_map.2 ⟨i, mem_range.2 (Nat.lt_of_not_le fun hle => ?_), rfl⟩
    simp [Scalar.alias?, Array.getD_eq_getD_getElem?, Array.getElem?_eq_none hle] at hw
  | inst x | const k | temp k => cases hw

end Aliases

/-! ## What takes the place of instructions -/

section

variable (h : c.Ordered home s)
include h

theorem Ordered.forward?_cases (hy : c.forward? s x = some y) :
    c.body.Casts x y ∨ c.body.Reached x ∧ c.body.Above y x := by
  rw [forward?] at hy
  split at hy
  · cases hy
    exact .inl ‹_›
  · split at hy
    · rename_i z hz
      split at hy
      · cases hy
      · cases hy
        obtain ⟨b, hb, i, hi, hv⟩ := h.replace x _ hz
        exact .inr ⟨⟨b, hb, mem_of_getElem? hi⟩, b, hb, i, hi, hv⟩
    · cases hy

variable (hc : c.body.Checked)
include hc

theorem Ordered.above_of_forward? (hx : c.body.Reached x) (hy : c.forward? s x = some y) :
    c.body.Above y x ∧ c.body.Reached y := by
  have habove : c.body.Above y x :=
    (h.forward?_cases hy).elim (hc.above_of_casts hx) And.right
  exact ⟨habove, habove.reached⟩

theorem Ordered.not_circle (hx : c.body.Reached x)
    (hy : ReflTransGen (fun a b => c.forward? s a = some b) x y) :
    ¬ TransGen (fun a b => c.forward? s a = some b) y y :=
  not_transGen_of_step (R := c.body.Above) (fun _ _ _ => hc.above_trans) hc.not_above
    (fun _ _ ha hb => .inl (h.above_of_forward? hc ha hb)) hx hy

/-- A value that replaced instructions lead to is in reachable code, and from there no way leads
back. So what is followed round and round are casts. -/
theorem Ordered.castCircle_of_circle
    (hxy : ReflTransGen (fun a b => c.forward? s a = some b) x y)
    (hcircle : TransGen (fun a b => c.forward? s a = some b) y y) : c.body.CastCircle x := by
  have hstep : ∀ a b, c.forward? s a = some b → c.body.Casts a b ∨ c.body.Reached a :=
    fun a b hab => (h.forward?_cases hab).imp_right And.left
  have hcasts : TransGen c.body.Casts y y := by
    refine (transGen_cases hstep hcircle).resolve_right ?_
    rintro ⟨z, hz, hyz, hzy⟩
    exact h.not_circle hc hz .refl (.trans_left hzy hyz)
  rcases Relation.reflTransGen_iff_eq_or_transGen.1 hxy with rfl | hxy
  · exact ⟨y, .refl, hcasts⟩
  · rcases transGen_cases hstep hxy with hxy | ⟨z, hz, -, hzy⟩
    · exact ⟨y, hxy.to_reflTransGen, hcasts⟩
    · exact absurd hcircle (h.not_circle hc hz hzy.to_reflTransGen)

theorem Ordered.forward?_resolve_iff :
    c.forward? s (c.resolve s x) = none ↔ ¬ c.body.CastCircle x := by
  have hforward : ∀ a b, c.body.Casts a b → c.forward? s a = some b := by
    intro a b hab
    rw [forward?, hab]
  constructor
  · rintro hend ⟨y, hxy, hcircle⟩
    exact not_transGen_of_end (reflTransGen_chainEnd _ _ x) hend
      (ReflTransGen.mono hforward _ _ hxy) (TransGen.mono hforward _ _ hcircle)
  · intro hno
    have hlen : c.body.insts.keys.length ≤ c.body.insts.slots.size := by
      simp only [SlotTable.keys, SlotTable.toList, length_map]
      exact Nat.le_trans (length_filterMap_le ..) (by simp)
    refine next_chainEnd hlen (fun y z _ hyz => SlotTable.mem_keys_iff.2 ?_) fun y hxy hcircle =>
      hno (h.castCircle_of_circle hc hxy hcircle)
    rcases h.forward?_cases hyz with hyz | ⟨⟨b, hb, hmem⟩, -⟩
    · obtain ⟨cls, hop⟩ := Body.castSource?_eq_some.1 hyz
      obtain ⟨inst, hinst, -⟩ := Option.map_eq_some_iff.1 hop
      exact ⟨inst, hinst⟩
    · exact hc.live hb hmem

end

/-! ## Planning that never ends -/

/-- Whatever is followed comes to an end. -/
def Settled (c : PlanContext) (s : Planner) : Prop := ∀ x, c.settles s x = true

theorem Settled.demand (h : c.Settled s) (xs : List InstId) :
    Metered.Meets (· ≠ .endless) (fun _ => True) (Metered.demand (xs.all (c.settles s))) := by
  rw [Metered.demand, if_pos (all_eq_true.2 fun x _ => h x)]
  exact .pure trivial

section

variable {phisOf : SideTable .block (List Nat)}

theorem ends_planCode : ∀ (xs : List InstId) (s : Planner),
    (∀ l₁ l₂, xs = l₁ ++ l₂ → c.Settled (l₁.foldl (c.planInst b) s)) →
    Metered.Meets (· ≠ .endless) (fun _ => True) (c.planCode b xs s)
  | [], _, _ => .pure trivial
  | x :: xs, s, h => by
    refine (Metered.Meets.charge Fault.stepBudget_ne_endless 1).bind fun _ _ => ?_
    refine ((h [] (x :: xs) rfl).demand _).bind fun _ _ => ends_planCode xs _ fun l₁ l₂ hl => ?_
    exact h (x :: l₁) l₂ (by rw [hl]; rfl)

theorem ends_planTerm (h : c.Settled s) (b : BlockId) :
    Metered.Meets (· ≠ .endless) (fun _ => True) (c.planTerm b s) := by
  rw [planTerm]
  cases (c.body.block b).term with
  | deopt sp => exact (h.demand _).bind fun _ _ => .pure trivial
  | _ => exact .pure trivial

theorem ends_visitBlock (h : ∀ l₁ l₂, c.body.code b = l₁ ++ l₂ →
      c.Settled (l₁.foldl (c.planInst b) (enter phisOf s b))) :
    Metered.Meets (· ≠ .endless) (· = c.planBlock phisOf s b) (c.visitBlock phisOf s b) := by
  have hends : Metered.Meets (· ≠ .endless) (fun _ => True) (c.visitBlock phisOf s b) := by
    refine ((ends_planCode _ _ h).and (answers_planCode c b _ _)).bind fun t ht => ?_
    rw [ht.2]
    exact (ends_planTerm (h _ [] (append_nil _).symm) b).bind fun _ _ => .pure trivial
  exact (hends.and (answers_visitBlock c phisOf s b)).mono fun _ => And.right

theorem ends_planBlocks : ∀ (bs : List BlockId) {ends : SideTable .block (Array Scalar)} {s},
    (∀ t, c.Passes phisOf bs ends s t → c.Settled t) →
    Metered.Meets (· ≠ .endless) c.Settled (c.planBlocks c.body.domTree phisOf bs ends s)
  | [], _, s, h => .pure (h s .done)
  | b :: bs, _, _, h => by
    rw [planBlocks]
    refine (ends_visitBlock fun l₁ l₂ hl => h _ (.code hl)).bind fun s' hs' => ?_
    subst hs'
    exact ends_planBlocks bs fun t ht => h t (.next ht)

end

theorem ends_rename (h : ∀ t, c.Passing t → c.Settled t) :
    Metered.Meets (· ≠ .endless) c.Settled c.rename :=
  (Metered.Meets.ticks Fault.stepBudget_ne_endless _).bind fun _ _ => ends_planBlocks _ h

end PlanContext

namespace Plan

variable {plan : Plan} {body : Body} {made : InstId → Option Scalar} {e : Emission} {body' : Body}
variable {x y : InstId} {m : KeyMap .inst InstId}

/-- The plan replaces reachable instructions, by values that are none or stand above them. -/
def Climbs (plan : Plan) (body : Body) : Prop :=
  ∀ x v, plan.replace.get? x = some v →
    body.Reached x ∧ ∀ y, plan.canon v = .inst y → body.Above y x

theorem Climbs.above_or_end (hwf : body.WellFormed) (hc : body.Checked) (h : plan.Climbs body)
    (he : plan.Emits made body e body') (hm : ∀ x y, m.get? x = some y →
      ∃ v, plan.replace.get? x = some v ∧ plan.Gives made v y) (hxy : m.get? x = some y) :
    body.Above y x ∨ m.get? y = none := by
  -- what is replaced is in the body, so the new instructions are not replaced
  have hend : body.insts.get? y = none → m.get? y = none := by
    intro hy
    rcases hz : m.get? y with _ | z
    · rfl
    · obtain ⟨v, hv, -⟩ := hm y z hz
      obtain ⟨b, hb, hmem⟩ := (h y v hv).1
      obtain ⟨inst, hinst⟩ := hc.live hb hmem
      rw [hy] at hinst
      cases hinst
  obtain ⟨v, hv, hgives⟩ := hm x y hxy
  unfold Gives at hgives
  split at hgives
  · rename_i z hz
    exact .inl (hgives ▸ (h x v hv).2 z hz)
  · refine .inr (hend ?_)
    rcases hgives with rfl | hmade
    · rcases hn : body.insts.get? .null with _ | inst
      · rfl
      · exact absurd rfl (hwf.insts.ne_null hn)
    · exact he.fresh y _ hmade
  · exact .inr (hend (he.fresh y _ hgives))

theorem Climbs.acyclic (hwf : body.WellFormed) (hc : body.Checked) (h : plan.Climbs body)
    (hemit : plan.emit body = .ok (e, body')) (hm : plan.substitution e = .ok m) (x : InstId) :
    ¬ TransGen (fun a b => m.get? a = some b) x x ∧ m.get? (Body.resolve m x) = none := by
  have hemits := plan.emits_emit hwf
  rw [hemit] at hemits
  obtain ⟨hconsts, made, he⟩ := hemits
  have hgives := gives_substitution hconsts he
  rw [hm] at hgives
  have hacyclic : ∀ x, ¬ TransGen (fun a b => m.get? a = some b) x x := fun x =>
    not_transGen_of_step (P := fun _ => True) (R := body.Above) (fun _ _ _ => hc.above_trans)
      hc.not_above (fun a b _ hb => (h.above_or_end hwf hc he hgives hb).imp_left
        fun h => ⟨h, trivial⟩) trivial .refl
  obtain ⟨pairs, -, hpairs⟩ := Except.bind_eq_ok.1 hm
  exact ⟨hacyclic x, Body.get?_resolve (Except.pure_eq_ok.1 hpairs) x fun y _ => hacyclic y⟩

end Plan

namespace Body

variable {body : Body}

theorem climbs_plan (hwf : body.WellFormed) (hc : body.Checked) (p : Program) (g : Graph)
    (r : Retention) : Metered.Answers (fun planned => ∀ plan, planned = .ready plan →
      (∃ c : PlanContext, c.body = body ∧ c.Aliased c.phiBlock? plan.aliases) ∧ plan.Climbs body)
      (body.plan p g r) := by
  refine meets_plan_of (.any _) (fun layout _ _ => ?_) fun layout _ => ?_
  · refine ⟨⟨{ program := p, body, graph := g, layout }, rfl, fun i w hw => ?_⟩,
      fun x v hv => by cases hv⟩
    simp at hw
  · refine (PlanContext.meets_ordered hwf hc).mono ?_
    rintro s ⟨hs, hfed⟩
    have ha := hs.aliased hwf hc hfed
    refine ⟨⟨_, rfl, ha⟩, fun x v hv => ?_⟩
    obtain ⟨b, hb, i, hi, hv⟩ := hs.replace x v hv
    refine ⟨⟨b, hb, mem_of_getElem? hi⟩, fun y hy => ⟨b, hb, i, hi, ?_⟩⟩
    have hcanon := ha.visible_canon hb hv
    change v.canon (VarPhi.simplify s.phis) = .inst y at hy
    rwa [hy] at hcanon

theorem ends_plan {p : Program} {g : Graph} (r : Retention)
    (h : ∀ layout t, PlanContext.Passing { program := p, body, graph := g, layout } t →
      PlanContext.Settled { program := p, body, graph := g, layout } t) :
    Metered.Meets (· ≠ .endless) (fun _ => True) (body.plan p g r) := by
  have hlayout : Metered.Meets (· ≠ .endless) (fun _ => True) (Layout.ofRetention p g r) := by
    refine Metered.Meets.foldlM (I := fun _ _ => True) (fun _ n _ l _ _ => ?_) trivial
    rw [Layout.addAlloc]
    dsimp only
    split
    · exact .throw (by simp)
    · exact (Metered.Meets.charge Fault.stepBudget_ne_endless _).bind fun _ _ => .pure trivial
  rw [Body.plan]
  refine hlayout.bind fun layout _ => ?_
  split
  · exact .pure trivial
  · refine (PlanContext.ends_rename (h layout)).bind fun s hs => ?_
    refine (hs.demand _).bind fun _ _ => ?_
    dsimp only
    split
    · exact .pure trivial
    · exact .pure trivial

theorem Checked.settled_of_passing (hwf : body.WellFormed) (hc : body.Checked)
    (hno : ∀ x, ¬ body.CastCircle x) {p : Program} {g : Graph} (layout : Layout) (t : Planner)
    (ht : PlanContext.Passing { program := p, body, graph := g, layout } t) :
    PlanContext.Settled { program := p, body, graph := g, layout } t := by
  intro x
  rw [PlanContext.settles, Option.isNone_iff_eq_none]
  exact ((ht.ordered hwf hc).forward?_resolve_iff hc).2 (hno x)

/-- In a body that passes the check, what is the same as a value is followed to an end at every
point of planning unless casts lead round and round, which they do in unreachable code only.
Without such casts planning never fails to end. Chains of phis that are the same as other values
end, and so do those of what the instructions of a plan give way to when it is carried out. -/
theorem chains_end (hwf : body.WellFormed) (hc : body.Checked) (p : Program) (g : Graph) :
    (∀ layout s, PlanContext.Passing { program := p, body, graph := g, layout } s → ∀ x,
      PlanContext.forward? { program := p, body, graph := g, layout } s
        (PlanContext.resolve { program := p, body, graph := g, layout } s x) = none ↔
      ¬ body.CastCircle x) ∧
    (∀ b ∈ body.flow.order.blocks, ∀ x ∈ (body.block b).insts, ¬ body.CastCircle x) ∧
    ((∀ x, ¬ body.CastCircle x) → ∀ r, ¬ Metered.Outcome (body.plan p g r) (.error .endless)) ∧
    ∀ r b₁ b₂ plan, Metered.Yields (body.plan p g r) b₁ (.ready plan) b₂ →
      (∀ v, ¬ TransGen (fun v w => v.alias? plan.aliases = some w) v v ∧
        (plan.canon v).alias? plan.aliases = none) ∧
      ∀ e body' m, plan.emit body = .ok (e, body') → plan.substitution e = .ok m →
        ∀ x, ¬ TransGen (fun a b => m.get? a = some b) x x ∧ m.get? (resolve m x) = none := by
  refine ⟨fun layout s hs x => (hs.ordered hwf hc).forward?_resolve_iff hc,
    fun b hb x hx => hc.not_castCircle ⟨b, hb, hx⟩, fun hno r hend => ?_,
    fun r b₁ b₂ plan hplan => ?_⟩
  · exact hend.meets (ends_plan r (hc.settled_of_passing hwf hno)) rfl
  · obtain ⟨⟨c, rfl, ha⟩, hclimbs⟩ := (climbs_plan hwf hc p g r).yields hplan plan rfl
    exact ⟨fun v => ⟨ha.acyclic hwf v, ha.alias?_canon hwf v⟩,
      fun e body' m he hm => hclimbs.acyclic hwf hc he hm⟩

/-- Returns its parameter after a store into a new node and a load out of it. -/
def throughNode : Body where
  blocks := .ofEntries
    [{ insts := [⟨0, 1⟩, ⟨1, 1⟩, ⟨2, 1⟩, ⟨3, 1⟩], term := .ret (some ⟨3, 1⟩) }]
  insts := .ofEntries [⟨.param 0, some .ref⟩, ⟨.new ⟨0, 1⟩, some .ref⟩,
    ⟨.storeField ⟨1, 1⟩ ⟨0, 1⟩ ⟨0, 1⟩, none⟩, ⟨.loadField ⟨1, 1⟩ ⟨0, 1⟩, some .ref⟩]
  states := .ofEntries []
  entry := ⟨0, 1⟩
  params := [.ref]
  ret := some .ref

theorem wellFormed_throughNode : throughNode.WellFormed := .ofEntries rfl

/-- The load gives way to the parameter, and that to nothing. -/
theorem chains_end_throughNode : ∃ g plan b₁ e body' m,
    Metered.Yields (throughNode.plan linkedNodes g (.none g.allocs.size)) { limit := 100 }
      (.ready plan) b₁ ∧
    plan.emit throughNode = .ok (e, body') ∧ plan.substitution e = .ok m ∧
    m.get? ⟨3, 1⟩ = some ⟨0, 1⟩ ∧ m.get? (resolve m ⟨3, 1⟩) = none := by
  obtain ⟨⟨g, changed⟩, b₀, -, h⟩ := Metered.exists_yields
    (x := (Graph.ofBody linkedNodes throughNode {}).propagate {}) (b := { limit := 100 })
    (P := fun r => (Metered.result? (throughNode.plan linkedNodes r.1 (.none r.1.allocs.size))
      { limit := 100 }).any fun planned => match planned with
        | .retry _ => false
        | .ready plan => (plan.emit throughNode).toOption.any fun r =>
          (plan.substitution r.1).toOption.any fun m => m.get? ⟨3, 1⟩ = some ⟨0, 1⟩)
    (by decide +kernel)
  obtain ⟨planned, b₁, hplan, h⟩ := Metered.exists_yields h
  cases planned with
  | retry failures => cases h
  | ready plan =>
    obtain ⟨⟨e, body'⟩, hemit, h⟩ := Except.exists_ok_of_any h
    obtain ⟨m, hm, h⟩ := Except.exists_ok_of_any h
    have hcheck : throughNode.check linkedNodes = .ok () := by decide +kernel
    have hc := checked_of_check wellFormed_throughNode (issued_of_live (by decide)) hcheck
    obtain ⟨-, -, -, hend⟩ := chains_end wellFormed_throughNode hc linkedNodes g
    exact ⟨g, plan, b₁, e, body', m, hplan, hemit, hm, of_decide_eq_true h,
      ((hend _ _ _ plan hplan).2 e body' m hemit hm _).2⟩

/-- Makes a node, and names in a debug state a cast of itself in a block that nothing leads to. As
that block ends with the same state, the check takes the state to belong there. -/
def strayState : Body where
  blocks := .ofEntries
    [{ insts := [⟨0, 1⟩, ⟨1, 1⟩], term := .ret none }, { insts := [⟨2, 1⟩], term := .deopt ⟨0, 1⟩ }]
  insts := .ofEntries [⟨.new ⟨0, 1⟩, some .ref⟩, ⟨.safepoint ⟨0, 1⟩, none⟩,
    ⟨.checkCast ⟨2, 1⟩ ⟨0, 1⟩, some .ref⟩]
  states := .ofEntries [{ locals := [.value ⟨2, 1⟩] }]
  entry := ⟨0, 1⟩
  params := []
  ret := none

/-- The cast is followed round and round at every point of planning, and planning follows it. -/
theorem castCircle_strayState : strayState.check linkedNodes = .ok () ∧
    strayState.CastCircle ⟨2, 1⟩ ∧
    (∀ g layout s, PlanContext.Passing
        { program := linkedNodes, body := strayState, graph := g, layout } s →
      PlanContext.forward? { program := linkedNodes, body := strayState, graph := g, layout } s
        (PlanContext.resolve { program := linkedNodes, body := strayState, graph := g, layout } s
          ⟨2, 1⟩) ≠ none) ∧
    ∃ g changed b₁, Metered.Yields ((Graph.ofBody linkedNodes strayState {}).propagate {})
        { limit := 100 } (g, changed) b₁ ∧
      Metered.fault? (strayState.plan linkedNodes g (.none g.allocs.size)) { limit := 100 } =
        some .endless := by
  have hcheck : strayState.check linkedNodes = .ok () := by decide +kernel
  have hcircle : strayState.CastCircle ⟨2, 1⟩ := ⟨⟨2, 1⟩, .refl, .single rfl⟩
  have hwf : strayState.WellFormed := .ofEntries rfl
  have hc := checked_of_check hwf (issued_of_live (by decide)) hcheck
  refine ⟨hcheck, hcircle, fun g layout s hs hend => ?_, ?_⟩
  · exact ((hs.ordered hwf hc).forward?_resolve_iff hc).1 hend hcircle
  · obtain ⟨⟨g, changed⟩, b₁, hg, h⟩ := Metered.exists_yields
      (x := (Graph.ofBody linkedNodes strayState {}).propagate {}) (b := { limit := 100 })
      (P := fun r => decide (Metered.fault?
        (strayState.plan linkedNodes r.1 (.none r.1.allocs.size)) { limit := 100 } = some .endless))
      (by decide +kernel)
    exact ⟨g, changed, b₁, hg, of_decide_eq_true h⟩

end Body

end EscapeAnalysis
