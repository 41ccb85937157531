import EscapeAnalysis.Proofs.Dominance
import EscapeAnalysis.Proofs.Metering
import EscapeAnalysis.Scalar.Plan

/-!
# What planning can change

Whatever an instruction turns into, the planner is changed in a few ways only. A property that each
of these keeps is kept by the plan of the instruction (`PlanContext.Upheld.planOp`), and one that
every operation and every snapshot keep holds of all planned code (`meets_rename_of`).

The fewer merges can be taken apart, and the more allocations are forced to stay, the fewer are
replaced (`Retention.narrower_compute`). Planning asks only for allocations to stay that were to be
replaced (`Body.replaced_of_retry`), so fewer are each time.
-/

namespace EscapeAnalysis

open List PlanContext

namespace Planner

variable {s s' s₁ s₂ s'' : Planner}

/-- What was planned before stays planned. -/
def Extends (s s' : Planner) : Prop := s.temps.toList <+: s'.temps.toList

theorem Extends.of_temps_eq (h : s₁.temps = s.temps) : s.Extends s₁ := by
  unfold Extends
  exact h ▸ prefix_rfl

theorem Extends.refl (s : Planner) : s.Extends s := .of_temps_eq rfl

theorem Extends.trans (h : s.Extends s₁) (h' : s₁.Extends s₂) : s.Extends s₂ :=
  List.IsPrefix.trans h h'

theorem Extends.size_le (h : s.Extends s₁) : s.temps.size ≤ s₁.temps.size := h.length_le

theorem extends_addTemp (s : Planner) (b : BlockId) (x : InstId) (op : TempOp) (ty : Option Ty) :
    s.Extends (s.addTemp b x op ty).2 := by
  simp [Extends, addTemp]

theorem getElem?_addTemp (s : Planner) (b : BlockId) (x : InstId) (op : TempOp) (ty : Option Ty) :
    (s.addTemp b x op ty).2.temps[s.temps.size]? = some { block := b, before := x, op, ty } := by
  simp [addTemp]

theorem Extends.getElem? (h : s.Extends s₁) {i : Nat} {t} (ht : s.temps[i]? = some t) :
    s₁.temps[i]? = some t := by
  obtain ⟨l, hl⟩ := h
  rw [← Array.getElem?_toList] at ht ⊢
  rw [← hl, List.getElem?_append_left (List.getElem?_eq_some_iff.1 ht).1, ht]

end Planner

namespace PlanContext

open Planner

variable {c : PlanContext} {I : Planner → Prop} {s : Planner} {x y array : InstId} {b : BlockId}
  {ty : Option Ty} {pos n : Nat} {P : Op → Prop}

/-- Most properties do not look at what has failed. -/
theorem fail_of (h : ∀ s failures, I s → I { s with failures }) (s : Planner) (why : KeepReason)
    (n : Nat) (hs : I s) : I (c.fail why s n) := by
  rw [fail]
  split
  · exact h s _ hs
  · exact hs

section Failing

variable (fail : ∀ s why n, I s → I (c.fail why s n)) (h : I s)
include fail h

theorem foldl_fail_of (why : KeepReason) (l : List Nat) : I (l.foldl (c.fail why) s) :=
  foldlRecOn (motive := I) l _ h fun s h n _ => fail s why n h

theorem target_of (y : InstId) : I (c.target y s).2 := by
  rw [target]
  split
  · exact h
  · exact foldl_fail_of fail h _ _

end Failing

theorem loadElems_succ :
    loadElems b x array ty pos (n + 1) s =
      ((loadElems b x array ty pos n s).1 ++ [.temp (loadElems b x array ty pos n s).2.temps.size],
        ((loadElems b x array ty pos n s).2.addTemp b x
          (.loadElem (.inst array) (.const (.int (.ofNat (pos + n))))) ty).2) := by
  rw [loadElems, range_succ, foldl_append]
  rfl

theorem length_loadElems : (loadElems b x array ty pos n s).1.length = n := by
  induction n with
  | zero => rfl
  | succ n ih => rw [loadElems_succ, length_append, ih, length_singleton]

/-- Where `I` holds, the variables have values that `Q` holds of, and every change made for
instruction `x` with such values keeps `I`. -/
structure Upheld (c : PlanContext) (x : InstId) (Q : Scalar → Prop) (I : Planner → Prop) :
    Prop where
  const : ∀ k, Q (.const k)
  temp : ∀ i, Q (.temp i)
  get : ∀ s var, I s → Q (s.get var)
  set : ∀ s var v, Q v → I s → I (s.set var v)
  kill : ∀ s, I s → I (s.kill x)
  replaceBy : ∀ s v, Q v → I s → I (s.replaceBy x v)
  addTemp : ∀ s b op ty, I s → I (s.addTemp b x op ty).2
  fail : ∀ s why n, I s → I (c.fail why s n)
  unlock : ∀ s n, I s → I { s with monitorsRemoved := n }

namespace Upheld

variable {Q : Scalar → Prop} (hI : c.Upheld x Q I) {value : InstId}
include hI

theorem setFrom (h : I s) (base : Nat) {vs} (hvs : ∀ v ∈ vs, Q v) : I (s.setFrom base vs) :=
  foldlRecOn (motive := I) _ _ h fun _ h _ he =>
    hI.set _ _ _ (hvs _ (mem_of_getElem? (mem_zipIdx_iff_getElem?.1 he))) h

theorem getFrom (h : I s) (base len : Nat) : ∀ v ∈ s.getFrom base len, Q v := by
  intro v hv
  obtain ⟨k, -, rfl⟩ := mem_map.1 hv
  exact hI.get _ _ h

theorem onTarget {k} (hk : ∀ o s, I s → I (k o s)) (h : I s) (y : InstId) :
    I (c.onTarget y k s) := by
  have ht := target_of hI.fail h y
  rw [PlanContext.onTarget]
  generalize c.target y s = answer at ht ⊢
  obtain ⟨_ | o, s'⟩ := answer
  · exact ht
  · exact hk o s' ht

section

variable (h : I s)
include h

theorem narrow (b : BlockId) {v} (hv : Q v) (slot : Ty) :
    Q (c.narrow b x v slot s).1 ∧ I (c.narrow b x v slot s).2 := by
  unfold PlanContext.narrow
  split
  · split
    · exact ⟨hI.const _, h⟩
    · exact ⟨hI.temp _, hI.addTemp _ _ _ _ h⟩
  · exact ⟨hv, h⟩

theorem rawElem (b : BlockId) (hv : Q (.inst value)) (elem : Ty) (size k : Nat) :
    Q (c.rawElem b x value elem size k s).1 ∧
      I (c.rawElem b x value elem size k s).2 := by
  simp only [PlanContext.rawElem]
  split
  · exact hI.narrow h b hv _
  · exact hI.narrow (hI.addTemp _ _ _ _ h) b (hI.temp _) _

theorem storeElems (b : BlockId) (array : InstId) (isRef : Bool) (pos : Nat)
    (vs : List Scalar) : I (storeElems b x array isRef pos vs s) := by
  refine foldlRecOn (motive := I) _ _ h fun s h e _ => ?_
  dsimp only
  split
  · exact hI.addTemp _ _ _ _ (hI.addTemp _ _ _ _ h)
  · exact hI.addTemp _ _ _ _ h

theorem loadElems (b : BlockId) (array : InstId) (ty : Option Ty) (pos len : Nat) :
    (∀ v ∈ (loadElems b x array ty pos len s).1, Q v) ∧
      I (loadElems b x array ty pos len s).2 := by
  refine foldlRecOn (motive := fun r : List Scalar × Planner => (∀ v ∈ r.1, Q v) ∧ I r.2) _ _
    ⟨nofun, h⟩ fun r hr k _ => ⟨fun v hv => ?_, hI.addTemp _ _ _ _ hr.2⟩
  rcases mem_append.1 hv with hv | hv
  · exact hr.1 v hv
  · exact mem_singleton.1 hv ▸ hI.temp _

theorem planLoad (why : KeepReason) (o : ScalarObject) (var : Option Nat) :
    I (c.planLoad x why o var s) := by
  cases var with
  | some var => exact hI.replaceBy _ _ (hI.get _ _ h) h
  | none => exact hI.fail _ _ _ h

theorem planStore (b : BlockId) (why : KeepReason) (o : ScalarObject) (var : Option Nat)
    (hv : Q (.inst value)) : I (c.planStore b x why o var value s) := by
  cases var with
  | some var =>
    obtain ⟨hv, h⟩ := hI.narrow h b hv (c.layout.varTy var)
    exact hI.kill _ (hI.set _ _ _ hv h)
  | none => exact hI.fail _ _ _ h

theorem planRawStore (b : BlockId) (o : ScalarObject) (offset width : Nat)
    (hv : Q (.inst value)) : I (c.planRawStore b x o offset width value s) := by
  rw [PlanContext.planRawStore]
  split
  · exact hI.fail _ _ _ h
  · refine hI.kill _ (foldlRecOn (motive := I) _ _ h fun s h k _ => ?_)
    obtain ⟨hv, h⟩ := hI.rawElem h b hv _ _ k
    exact hI.set _ _ _ hv h

theorem planCopy (b : BlockId) (src dst : InstId) (srcObj dstObj : Option ScalarObject)
    (srcPos dstPos len : Nat) : I (c.planCopy b x src dst srcObj dstObj srcPos dstPos len s) := by
  simp only [PlanContext.planCopy]
  split
  · exact hI.fail _ _ _ h
  · split
    · exact hI.kill _ (hI.setFrom h _ (hI.getFrom h _ _))
    · split
      · exact hI.fail _ _ _ h
      · exact hI.kill _ (hI.storeElems h _ _ _ _ _)
    · split
      · exact hI.fail _ _ _ h
      · obtain ⟨hvs, h⟩ := hI.loadElems h b src _ srcPos len
        exact hI.kill _ (hI.setFrom h _ hvs)
    · exact h

theorem planArrayCopy (b : BlockId) (src srcPos dst dstPos len : InstId) :
    I (c.planArrayCopy b x src srcPos dst dstPos len s) := by
  have h' := target_of hI.fail (target_of hI.fail h src) dst
  simp only [PlanContext.planArrayCopy]
  split
  · exact h'
  · split
    · exact hI.planCopy h' _ _ _ _ _ _ _ _
    · exact foldl_fail_of hI.fail h' _ _

theorem planDistinct (o : ScalarObject) (other : InstId) : I (c.planDistinct x o other s) := by
  rw [PlanContext.planDistinct]
  split
  · exact hI.fail _ _ _ h
  · exact hI.replaceBy _ _ (hI.const _) h

theorem planRefEq (lhs rhs : InstId) : I (c.planRefEq x lhs rhs s) := by
  have h' := target_of hI.fail (target_of hI.fail h lhs) rhs
  simp only [PlanContext.planRefEq]
  split
  · exact hI.replaceBy _ _ (hI.const _) h'
  · exact hI.planDistinct h' _ _
  · exact hI.planDistinct h' _ _
  · exact h'

theorem planOp (b : BlockId) {op} (hop : ∀ y ∈ op.operands, Q (.inst y)) :
    I (c.planOp b x s op) := by
  simp only [Op.operands] at hop
  cases op with
  | new _ | newArray _ _ =>
    simp only [PlanContext.planOp]
    split
    · refine hI.kill _ (hI.setFrom h _ fun v hv => ?_)
      obtain ⟨_, -, rfl⟩ := mem_map.1 hv
      exact hI.const _
    · exact h
  | loadField obj f => exact hI.onTarget (fun _ _ h => hI.planLoad h _ _ _) h obj
  | storeField obj f value =>
    exact hI.onTarget (fun _ _ h => hI.planStore h _ _ _ _ (hop value (by simp))) h obj
  | loadElem array index => exact hI.onTarget (fun _ _ h => hI.planLoad h _ _ _) h array
  | storeElem array index value =>
    exact hI.onTarget (fun _ _ h => hI.planStore h _ _ _ _ (hop value (by simp))) h array
  | arrayLength array =>
    exact hI.onTarget (fun _ _ h => hI.replaceBy _ _ (hI.const _) h) h array
  | arrayFill array value =>
    refine hI.onTarget (fun o s h => ?_) h array
    split
    · obtain ⟨hv, h⟩ := hI.narrow h b (hop value (by simp)) _
      exact hI.kill _ (hI.setFrom h _ fun v hmem => eq_of_mem_replicate hmem ▸ hv)
    · exact h
  | rawStore array offset width value =>
    exact hI.onTarget (fun _ _ h => hI.planRawStore h _ _ _ _ (hop value (by simp))) h array
  | arrayCopy src srcPos dst dstPos len => exact hI.planArrayCopy h _ _ _ _ _ _
  | refEq lhs rhs => exact hI.planRefEq h _ _
  | loadClass obj =>
    refine hI.onTarget (fun o s h => ?_) h obj
    split
    · exact hI.replaceBy _ _ (hI.const _) h
    · exact hI.fail _ _ _ h
  | instanceOf obj cls => exact hI.onTarget (fun _ _ h => hI.replaceBy _ _ (hI.const _) h) h obj
  | checkCast obj cls =>
    exact hI.onTarget (fun _ _ h => hI.replaceBy _ _ (hop obj (by simp)) h) h obj
  | monitorEnter obj | monitorExit obj =>
    exact hI.onTarget (fun _ _ h => hI.unlock _ _ (hI.kill _ h)) h obj
  | _ => exact h

end

end Upheld

/-- A property that every change made for instruction `x` keeps, whatever the values. -/
structure Stable (c : PlanContext) (x : InstId) (I : Planner → Prop) : Prop where
  env : ∀ s env, I s → I { s with env }
  kill : ∀ s, I s → I (s.kill x)
  replaceBy : ∀ s v, I s → I (s.replaceBy x v)
  addTemp : ∀ s b op ty, I s → I (s.addTemp b x op ty).2
  fail : ∀ s why n, I s → I (c.fail why s n)
  unlock : ∀ s n, I s → I { s with monitorsRemoved := n }

theorem Stable.upheld (hI : c.Stable x I) : c.Upheld x (fun _ => True) I :=
  ⟨fun _ => trivial, fun _ => trivial, fun _ _ _ => trivial, fun s _ _ _ => hI.env s _, hI.kill,
    fun s v _ => hI.replaceBy s v, hI.addTemp, hI.fail, hI.unlock⟩

theorem Stable.planOp (hI : c.Stable x I) (h : I s) (b : BlockId) (op : Op) :
    I (c.planOp b x s op) := hI.upheld.planOp h b fun _ _ => trivial

theorem stable_extends (c : PlanContext) (x : InstId) (s : Planner) : c.Stable x s.Extends :=
  ⟨fun _ _ h => h, fun _ h => h, fun _ _ h => h,
    fun s' b op ty h => h.trans (extends_addTemp s' b x op ty), fail_of fun _ _ h => h,
    fun _ _ h => h⟩

theorem snapshot_of (fail : ∀ s why n, I s → I (c.fail why s n))
    (record : ∀ s sp (objects : List ScalarObject), (∀ o ∈ objects, o ∈ c.layout.objects) → I s →
      I { s with snapshots := s.snapshots.insert sp
                    (objects.map fun o => (o.inst, s.getFrom o.base o.slots)) })
    (h : I s) (sp : SafepointId) : I (c.snapshot s sp) := by
  simp only [PlanContext.snapshot]
  refine record _ _ _ (fun o ho => (mem_filter.1 ho).1) ?_
  refine foldlRecOn (motive := fun l : List ScalarObject × Planner => I l.2) _ _ h
    fun l hl y _ => target_of fail hl y

theorem planInst_of (snapshot : ∀ s sp, I s → I (c.snapshot s sp))
    (planOp : ∀ s op, c.body.op? x = some op → I s → I (c.planOp b x s op)) (h : I s) :
    I (c.planInst b s x) := by
  rw [planInst]
  split
  · exact h
  · rename_i op hop
    dsimp only
    split
    · exact planOp _ op hop (snapshot s _ h)
    · exact planOp s op hop h

section Blocks

variable {phisOf : SideTable .block (List Nat)} {ends : SideTable .block (Array Scalar)}

/-- What planning the terminator of a block comes to. -/
def termPlan (c : PlanContext) (b : BlockId) (s : Planner) : Planner :=
  match (c.body.block b).term with
  | .deopt sp => c.snapshot s sp
  | _ => s

/-- What planning a block comes to. -/
def planBlock (c : PlanContext) (phisOf : SideTable .block (List Nat)) (s : Planner) (b : BlockId) :
    Planner :=
  c.feed phisOf b (c.termPlan b ((c.body.code b).foldl (c.planInst b) (enter phisOf s b)))

theorem answers_planCode (c : PlanContext) (b : BlockId) : ∀ (xs : List InstId) (s : Planner),
    Metered.Answers (· = xs.foldl (c.planInst b) s) (c.planCode b xs s)
  | [], _ => .pure rfl
  | _ :: xs, _ => (Metered.Meets.any _).bind fun _ _ => (Metered.Meets.any _).bind fun _ _ =>
    answers_planCode c b xs _

theorem answers_planTerm (c : PlanContext) (b : BlockId) (s : Planner) :
    Metered.Answers (· = c.termPlan b s) (c.planTerm b s) := by
  rw [termPlan]
  cases hterm : (c.body.block b).term with
  | deopt sp =>
    rw [planTerm, hterm]
    exact (Metered.Meets.any _).bind fun _ _ => .pure rfl
  | _ =>
    rw [planTerm, hterm]
    exact .pure rfl

theorem answers_visitBlock (c : PlanContext) (phisOf : SideTable .block (List Nat)) (s : Planner)
    (b : BlockId) : Metered.Answers (· = c.planBlock phisOf s b) (c.visitBlock phisOf s b) := by
  refine (answers_planCode c b _ _).bind fun s' hs' => ?_
  subst hs'
  refine (answers_planTerm c b _).bind fun s' hs' => .pure ?_
  subst hs'
  rfl

theorem planBlock_rec (enter : ∀ s, ∀ idx ∈ (phisOf.get? b).getD [], I s →
      I (s.set (s.phis.getD idx default).var (.phi idx)))
    (inst : ∀ s, ∀ x ∈ c.body.code b, I s → I (c.planInst b s x))
    (snapshot : ∀ s sp, I s → I (c.snapshot s sp))
    (input : ∀ s idx, I s → I (addInput b s idx)) (h : I s) : I (c.planBlock phisOf s b) := by
  rw [planBlock, feed]
  refine foldlRecOn (motive := I) _ _ ?_ fun s h idx _ => input s idx h
  have hcode := foldlRecOn (motive := I) (c.body.code b) (c.planInst b)
    (foldlRecOn (motive := I) _ _ h fun s h idx hidx => enter s idx hidx h)
    fun s h x hx => inst s x hx h
  rw [termPlan]
  split
  · exact snapshot _ _ hcode
  · exact hcode

/-- The values with which a block starts: those at the end of its immediate dominator. -/
def envAt (c : PlanContext) (ends : SideTable .block (Array Scalar)) (b : BlockId) :
    Array Scalar :=
  ((c.body.domTree.idom? b).bind ends.get?).getD c.startEnv

theorem envAt_cases {Q : Array Scalar → Prop} (start : Q c.startEnv) (dominator : ∀ d env,
    c.body.domTree.idom? b = some d → ends.get? d = some env → Q env) : Q (c.envAt ends b) := by
  rw [envAt]
  rcases h : (c.body.domTree.idom? b).bind ends.get? with _ | env
  · exact start
  · obtain ⟨d, hd, henv⟩ := Option.bind_eq_some_iff.1 h
    exact dominator d env hd henv

variable {J : List BlockId → SideTable .block (Array Scalar) → Planner → Prop}

theorem meets_planBlocks_rec : ∀ (bs : List BlockId) {done ends s},
    (∀ b ∈ bs, ∀ done ends s, J done ends s → J (b :: done)
      (ends.insert b (c.planBlock phisOf { s with env := c.envAt ends b } b).env)
      (c.planBlock phisOf { s with env := c.envAt ends b } b)) → J done ends s →
    Metered.Answers (fun s => ∃ ends, J (bs.reverse ++ done) ends s)
      (c.planBlocks c.body.domTree phisOf bs ends s)
  | [], _, ends, _, _, h => .pure ⟨ends, h⟩
  | b :: bs, _, _, _, step, h => by
    rw [planBlocks]
    simp only [reverse_cons, append_assoc, singleton_append]
    refine (answers_visitBlock c phisOf _ b).bind fun s' hs' => ?_
    subst hs'
    exact meets_planBlocks_rec bs (fun d hd => step d (.tail _ hd)) (step b (.head _) _ _ _ h)

/-- What planning one block after another keeps, given those that are done and the values at their
ends, holds of all planned code. -/
theorem meets_rename_rec (step : ∀ b ∈ c.body.domTree.preorder, ∀ done ends s, J done ends s →
      let s' := c.planBlock (phisByBlock (c.varPhis (.ofTree c.body.flow c.body.domTree)))
        { s with env := c.envAt ends b } b
      J (b :: done) (ends.insert b s'.env) s')
    (start : J [] {}
      { env := #[], phis := (c.varPhis (.ofTree c.body.flow c.body.domTree)).toArray }) :
    Metered.Answers (fun s => ∃ ends, J c.body.domTree.preorder.reverse ends s)
      c.rename := by
  have hrec := meets_planBlocks_rec _ step start
  rw [append_nil] at hrec
  exact (Metered.Meets.any _).bind fun _ _ => hrec

end Blocks

section Code

variable (free : ∀ s env phis, I s → I { s with env, phis })
  (snapshot : ∀ s sp, I s → I (c.snapshot s sp))
  (planOp : ∀ b x s op, c.body.op? x = some op → I s → I (c.planOp b x s op))
include free snapshot planOp

theorem planBlock_of (h : I s) (phisOf : SideTable .block (List Nat)) (b : BlockId) :
    I (c.planBlock phisOf s b) :=
  planBlock_rec (fun s _ _ => free s _ _) (fun _ x _ => planInst_of snapshot (planOp b x)) snapshot
    (fun s _ => free s _ _) h

/-- What holds before anything is planned and is kept by every operation and every snapshot holds
of all planned code. -/
theorem meets_rename_of (start : ∀ phis, I { env := #[], phis }) : Metered.Answers I c.rename := by
  refine (meets_rename_rec (J := fun _ _ => I) (fun b _ _ _ s h =>
    planBlock_of free snapshot planOp (free s _ _ h) _ b) (start _)).mono ?_
  rintro s ⟨-, h⟩
  exact h

end Code

/-- What is dead has an operation with property `P`, and what is replaced is dead. -/
structure Buries (c : PlanContext) (P : Op → Prop) (s : Planner) : Prop where
  dead : ∀ x ∈ s.dead, ∃ op, c.body.op? x = some op ∧ P op
  replace : ∀ x v, s.replace.get? x = some v → x ∈ s.dead

theorem stable_buries {op} (hop : c.body.op? x = some op) (hP : P op) :
    c.Stable x (c.Buries P) := by
  have kill : ∀ s, c.Buries P s → ∀ y ∈ x :: s.dead, ∃ op, c.body.op? y = some op ∧ P op := by
    intro s h y hy
    rcases mem_cons.1 hy with rfl | hy
    · exact ⟨op, hop, hP⟩
    · exact h.dead y hy
  refine ⟨fun _ _ h => ⟨h.dead, h.replace⟩, fun s h => ⟨kill s h, fun y v hv => ?_⟩,
    fun s w h => ⟨kill s h, fun y v hv => ?_⟩, fun _ _ _ _ h => ⟨h.dead, h.replace⟩,
    fail_of fun _ _ h => ⟨h.dead, h.replace⟩, fun _ _ h => ⟨h.dead, h.replace⟩⟩
  · exact .tail x (h.replace y v hv)
  · rcases SideTable.get?_insert_cases _ _ _ hv with ⟨rfl, -⟩ | hv
    · exact .head _
    · exact .tail x (h.replace y v hv)

theorem meets_buries (hP : ∀ op, P op ∨ ∀ b x s, c.planOp b x s op = s) :
    Metered.Answers (c.Buries P) c.rename := by
  refine meets_rename_of (fun _ _ _ h => ⟨h.dead, h.replace⟩) (fun s sp h => ?_)
    (fun b x s op hop h => ?_) fun _ => ⟨fun x hx => (by cases hx), fun x v hv => (by cases hv)⟩
  · exact snapshot_of (fail_of fun _ _ h => ⟨h.dead, h.replace⟩)
      (fun _ _ _ _ h => ⟨h.dead, h.replace⟩) h sp
  · rcases hP op with hop' | hsame
    · exact (stable_buries hop hop').planOp h b op
    · rwa [hsame]

end PlanContext

namespace Retention

variable {r r' r'' : Retention} {why why' : KeepReason} {n k : Nat} {ns ns' : List Nat}

theorem size_keep (why : KeepReason) (r : Retention) (n : Nat) :
    (r.keep why n).reasons.size = r.reasons.size := by simp [keep]

theorem isReplaced_iff : r.isReplaced k = true ↔ r.reasons[k]? = some Option.none := by
  simp [isReplaced]

theorem isReplaced_keep : (r.keep why n).isReplaced k = true ↔ r.isReplaced k = true ∧ k ≠ n := by
  simp only [isReplaced_iff, keep, Array.getElem?_modify]
  by_cases h : n = k
  · subst h
    rcases r.reasons[n]? with _ | _ | _ <;> simp
  · simp [h, Ne.symm h]

theorem size_keepAll (why : KeepReason) (ns : List Nat) (r : Retention) :
    (r.keepAll why ns).reasons.size = r.reasons.size :=
  foldlRecOn (motive := fun r' : Retention => r'.reasons.size = r.reasons.size) _ _ rfl
    fun _ h _ _ => (size_keep ..).trans h

theorem isReplaced_keepAll :
    (r.keepAll why ns).isReplaced k = true ↔ r.isReplaced k = true ∧ k ∉ ns := by
  unfold keepAll
  induction ns generalizing r with
  | nil => simp
  | cons n ns ih => rw [foldl_cons, ih, isReplaced_keep]; simp [and_assoc]

theorem mem_kept_fst : n ∈ r.kept.map Prod.fst ↔ n < r.reasons.size ∧ r.isReplaced n = false := by
  simp only [kept, reason?, isReplaced, mem_map, mem_filterMap, mem_range,
    Option.map_eq_some_iff, Prod.exists, exists_and_right, exists_eq_right, Prod.mk.injEq]
  constructor
  · rintro ⟨why, n', hn, w, hw, rfl, rfl⟩
    refine ⟨hn, ?_⟩
    simp only [Array.getD_eq_getD_getElem?, Array.getElem?_eq_getElem hn, Option.getD_some] at hw
    simp [hn, hw]
  · rintro ⟨hn, hr⟩
    simp only [Array.getElem?_eq_getElem hn] at hr
    rcases hw : r.reasons[n] with _ | why
    · simp [hw] at hr
    · exact ⟨why, n, hn, why, by simp [hn, hw], rfl, rfl⟩

theorem mem_replaced : n ∈ r.replaced ↔ r.isReplaced n = true := by
  simp only [replaced, mem_filter, mem_range, and_iff_right_iff_imp, isReplaced_iff]
  exact fun h => (Array.getElem?_eq_some_iff.1 h).1

/-- Both are about the same allocations, and `r'` replaces only what `r` does. -/
structure Narrower (r' r : Retention) : Prop where
  size : r'.reasons.size = r.reasons.size
  replaced : ∀ n, r'.isReplaced n = true → r.isReplaced n = true

namespace Narrower

theorem refl (r : Retention) : r.Narrower r := ⟨rfl, fun _ => id⟩

theorem keepAll (h : r'.Narrower r) (hns : ∀ n ∈ ns, n ∈ ns') :
    (r'.keepAll why' ns').Narrower (r.keepAll why ns) where
  size := by rw [size_keepAll, size_keepAll, h.size]
  replaced n hn := by
    rw [isReplaced_keepAll] at hn ⊢
    exact ⟨h.replaced n hn.1, fun hmem => hn.2 (hns n hmem)⟩

theorem keepAll_left (h : r'.Narrower r) : (r'.keepAll why ns).Narrower r where
  size := (size_keepAll ..).trans h.size
  replaced n hn := h.replaced n (isReplaced_keepAll.1 hn).1

theorem kept (h : r'.Narrower r) : ∀ n ∈ r.kept.map Prod.fst, n ∈ r'.kept.map Prod.fst := by
  intro n hn
  rw [mem_kept_fst] at hn ⊢
  exact ⟨h.size ▸ hn.1, Bool.eq_false_iff.2 fun hr => by simp [h.replaced n hr] at hn⟩

theorem length_lt (h : r'.Narrower r) (hr : r.isReplaced n = true) (hr' : r'.isReplaced n = false) :
    r'.replaced.length < r.replaced.length := by
  have heq : r'.replaced = r.replaced.filter r'.isReplaced := by
    rw [Retention.replaced, Retention.replaced, filter_filter, h.size]
    refine filter_congr fun k _ => ?_
    rcases hk : r'.isReplaced k with _ | _
    · rfl
    · simp [h.replaced k hk]
  rw [heq, length_filter_lt_length_iff_exists]
  exact ⟨n, mem_replaced.2 hr, by simp [hr']⟩

end Narrower

/-- The check `f'` keeps at least what `f` keeps, and takes back nothing. -/
def Tighter (f' f : Retention → Retention) : Prop :=
  ∀ r' r : Retention, r'.Narrower r → (f' r').Narrower (f r) ∧ (f' r').Narrower r

namespace Tighter

variable {f f' h h' : Retention → Retention}

theorem none : Tighter id id := fun _ _ hr => ⟨hr, hr⟩

theorem keepAll (hns : ∀ n ∈ ns, n ∈ ns') :
    Tighter (Retention.keepAll why' ns') (Retention.keepAll why ns) := fun _ _ hr =>
  ⟨hr.keepAll hns, hr.keepAll_left⟩

theorem same (why : KeepReason) (ns : List Nat) :
    Tighter (Retention.keepAll why ns) (Retention.keepAll why ns) := keepAll fun _ => id

theorem more (why : KeepReason) (ns : List Nat) : Tighter (Retention.keepAll why ns) id :=
  fun _ _ hr => ⟨hr.keepAll_left, hr.keepAll_left⟩

theorem comp (hf : Tighter f' f) (hh : Tighter h' h) :
    Tighter (fun r => f' (h' r)) fun r => f (h r) := fun r' r hr =>
  ⟨(hf _ _ (hh r' r hr).1).1, (hf _ _ (hh r' r hr).2).2⟩

theorem foldl {α : Type} {f f'} {l : List α} (hf : ∀ a, Tighter (fun r => f' r a) fun r => f r a) :
    Tighter (fun r => l.foldl f' r) fun r => l.foldl f r := by
  induction l with
  | nil => exact none
  | cons a l ih => exact ih.comp (hf a)

end Tighter

end Retention

/-- `a'` has the merges of `a`, and lets no more of them be taken apart. -/
structure MergeAnalysis.Stricter (a' a : MergeAnalysis) : Prop where
  contains : ∀ x, a'.merges.contains x = a.merges.contains x
  reducible : ∀ x, a'.isReducible x = true → a.isReducible x = true
  irreducible : ∀ phi ∈ a.irreducible.map Prod.fst, phi ∈ a'.irreducible.map Prod.fst

theorem MergeAnalysis.Stricter.refl (a : MergeAnalysis) : a.Stricter a :=
  ⟨fun _ => rfl, fun _ => id, fun _ => id⟩

namespace RetentionContext

open Retention hiding none

variable {p : Program} {body : Body} {g : Graph} {a a' : MergeAnalysis} {settings : Settings}

section Checks

variable {c c' : RetentionContext} {forced forced' : List (Nat × KeepReason)}

theorem isSome_allocReason? (c : RetentionContext)
    (hf : ∀ n, (forced.lookup n).isSome → (forced'.lookup n).isSome) {n}
    (h : (c.allocReason? forced n).isSome) : (c.allocReason? forced' n).isSome := by
  simp only [allocReason?, Option.isSome_or, Bool.or_eq_true] at h ⊢
  exact h.imp_right (Or.imp_right (Or.imp_left (hf n)))

/-- After the allocations were checked, only those are replaced that have no reason to stay. -/
theorem allocReason?_eq_none {r n} (h : (c.checkAllocs forced r).isReplaced n = true)
    (hn : n ∈ c.graph.allocNumbers) : c.allocReason? forced n = none := by
  rw [checkAllocs] at h
  generalize c.graph.allocNumbers = l at h hn
  suffices hfold : r.isReplaced n = true ∧ (n ∈ l → c.allocReason? forced n = none) from hfold.2 hn
  clear hn
  induction l generalizing r with
  | nil => exact ⟨h, by simp⟩
  | cons k l ih =>
    obtain ⟨hr, hl⟩ := ih h
    rcases hk : c.allocReason? forced k with _ | why
    · simp only [hk] at hr
      exact ⟨hr, fun hmem => (mem_cons.1 hmem).elim (fun he => he ▸ hk) hl⟩
    · simp only [hk, isReplaced_keep] at hr
      exact ⟨hr.1, fun hmem => hl ((mem_cons.1 hmem).resolve_left hr.2)⟩

theorem tighter_checkAllocs (c : RetentionContext)
    (hf : ∀ n, (forced.lookup n).isSome → (forced'.lookup n).isSome) :
    Tighter (c.checkAllocs forced') (c.checkAllocs forced) := by
  refine Tighter.foldl fun n => ?_
  have hmono := c.isSome_allocReason? hf (n := n)
  rcases h : c.allocReason? forced n with _ | why <;>
    rcases h' : c.allocReason? forced' n with _ | why' <;> rw [h, h'] at hmono
  · exact Tighter.none
  · exact Tighter.more why' [n]
  · simp at hmono
  · exact Tighter.keepAll fun k hk => (hk : k ∈ [n])

variable (hs : a'.Stricter a)
include hs

theorem tighter_checkMerges :
    Tighter (checkMerges ⟨p, body, g, a', settings⟩) (checkMerges ⟨p, body, g, a, settings⟩) := by
  -- all that irreducible merges keep, at once
  have heq : ∀ a : MergeAnalysis, checkMerges ⟨p, body, g, a, settings⟩ =
      Retention.keepAll .irreducibleMerge ((a.irreducible.map Prod.fst).flatMap g.allocsOf) := by
    intro a
    funext r
    rw [checkMerges, Retention.keepAll, foldl_flatMap, foldl_map]
    rfl
  rw [heq, heq]
  refine Tighter.keepAll fun n hn => ?_
  obtain ⟨phi, hphi, hn⟩ := mem_flatMap.1 hn
  exact mem_flatMap.2 ⟨phi, hs.irreducible phi hphi, hn⟩

theorem tighter_checkOperand (x : InstId) :
    Tighter (fun r => checkOperand ⟨p, body, g, a', settings⟩ r x)
      fun r => checkOperand ⟨p, body, g, a, settings⟩ r x := by
  have hx := hs.reducible x
  intro r' r hr
  simp only [checkOperand]
  split
  · split
    · exact Tighter.same _ _ r' r hr
    · exact Tighter.more _ _ r' r hr
  · rename_i hkeep
    rw [if_neg]
    · exact Tighter.none r' r hr
    · simp only [Bool.and_eq_true, Bool.not_eq_true', not_and, Bool.not_eq_false] at hkeep ⊢
      exact fun ha => hx (hkeep ha)

omit hs in
theorem tighter_checkStore (a a' : MergeAnalysis) (base value : InstId) :
    Tighter (checkStore ⟨p, body, g, a', settings⟩ base value)
      (checkStore ⟨p, body, g, a, settings⟩ base value) := by
  intro r' r hr
  simp only [checkStore]
  split
  · exact Tighter.same _ _ r' r hr
  · exact Tighter.none r' r hr

theorem tighter_checkOp (x : InstId) (op : Op) :
    Tighter (checkOp ⟨p, body, g, a', settings⟩ x op)
      (checkOp ⟨p, body, g, a, settings⟩ x op) := by
  cases op with
  | phi => exact Tighter.same _ _
  | loadElem => exact Tighter.same _ _
  | storeElem array index value =>
    exact (tighter_checkStore a a' array value).comp (Tighter.same _ _)
  | storeField obj field value => exact tighter_checkStore a a' obj value
  | arrayFill array value => exact tighter_checkStore a a' array value
  | refEq lhs rhs =>
    have hl := hs.reducible lhs
    have hr := hs.reducible rhs
    intro r' r hn
    simp only [checkOp]
    split
    · rename_i hred
      rw [if_pos]
      · exact Tighter.none r' r hn
      · simp only [Bool.or_eq_true] at hred ⊢
        exact hred.imp_left (Or.imp hl hr)
    · split
      · exact Tighter.more _ _ r' r hn
      · exact Tighter.same _ _ r' r hn
  | checkCast => exact Tighter.same _ _
  | loadClass => exact Tighter.same _ _
  | rawStore => exact Tighter.same _ _
  | arrayCopy => exact (Tighter.same _ _).comp (Tighter.same _ _)
  | monitorEnter | monitorExit =>
    intro r' r hn
    simp only [checkOp]
    split
    · exact Tighter.none r' r hn
    · exact Tighter.same _ _ r' r hn
  | _ => exact Tighter.none

theorem tighter_checkInst (x : InstId) :
    Tighter (fun r => checkInst ⟨p, body, g, a', settings⟩ r x)
      fun r => checkInst ⟨p, body, g, a, settings⟩ r x := by
  simp only [checkInst, hs.contains]
  rcases body.op? x with _ | op
  · exact Tighter.none
  · dsimp only
    split
    · exact Tighter.none
    · exact (tighter_checkOp hs x op).comp (Tighter.foldl fun y => tighter_checkOperand hs y)

theorem tighter_checkInsts :
    Tighter (checkInsts ⟨p, body, g, a', settings⟩) (checkInsts ⟨p, body, g, a, settings⟩) :=
  (Tighter.foldl fun _ => Tighter.foldl fun x => tighter_checkOperand hs x).comp
    (Tighter.foldl fun _ => Tighter.foldl fun x => tighter_checkInst hs x)

omit hs in
theorem tighter_closeNested (a a' : MergeAnalysis) :
    Tighter (closeNested ⟨p, body, g, a', settings⟩) (closeNested ⟨p, body, g, a, settings⟩) :=
  fun _ _ hr => ⟨hr.keepAll (flood_mono _ (fun _ => id) (fun _ _ => id) hr.kept), hr.keepAll_left⟩

theorem tighter_checks :
    Tighter
      (fun r => closeNested ⟨p, body, g, a', settings⟩ <| checkLocks ⟨p, body, g, a', settings⟩ <|
        checkInsts ⟨p, body, g, a', settings⟩ <| checkMerges ⟨p, body, g, a', settings⟩ r)
      fun r => closeNested ⟨p, body, g, a, settings⟩ <| checkLocks ⟨p, body, g, a, settings⟩ <|
        checkInsts ⟨p, body, g, a, settings⟩ <| checkMerges ⟨p, body, g, a, settings⟩ r :=
  (tighter_closeNested a a').comp <| (Tighter.same _ _).comp <| (tighter_checkInsts hs).comp <|
    tighter_checkMerges hs

end Checks

end RetentionContext

namespace Retention

open RetentionContext

variable {p : Program} {body : Body} {g : Graph} {a a' : MergeAnalysis} {settings : Settings}
  {forced forced' : List (Nat × KeepReason)}

theorem compute_narrower_none :
    (compute p body g a settings forced).Narrower (.none g.allocCount) :=
  (tighter_checks (.refl a) _ _
    (tighter_checkAllocs ⟨p, body, g, a, settings⟩ (fun _ => id) _ _ (.refl _)).2).2

theorem length_replaced_compute_le :
    (compute p body g a settings forced).replaced.length ≤ g.allocCount := by
  refine Nat.le_trans (length_filter_le _ _) (Nat.le_of_eq ?_)
  rw [length_range, compute_narrower_none.size, Retention.none, Array.size_replicate]

/-- With fewer merges that can be taken apart, and more allocations forced to stay, no more
allocations are replaced. -/
theorem narrower_compute (hs : a'.Stricter a)
    (hf : ∀ n, (forced.lookup n).isSome → (forced'.lookup n).isSome) :
    (compute p body g a' settings forced').Narrower (compute p body g a settings forced) := by
  have hstart : (checkAllocs ⟨p, body, g, a', settings⟩ forced' (.none g.allocCount)).Narrower
      (checkAllocs ⟨p, body, g, a, settings⟩ forced (.none g.allocCount)) :=
    (tighter_checkAllocs ⟨p, body, g, a, settings⟩ hf _ _ (.refl _)).1
  exact (tighter_checks hs _ _ hstart).1

theorem isReplaced_compute_of_forced {n} (hn : (forced.lookup n).isSome) :
    (compute p body g a settings forced).isReplaced n = false := by
  refine Bool.eq_false_iff.2 fun hr => ?_
  have hchecked := (tighter_checks (.refl a) _ _ (.refl _)).2.replaced n hr
  have hlt : n < g.allocCount := by
    have hstart := compute_narrower_none.replaced n hr
    rw [isReplaced_iff, Array.getElem?_eq_some_iff] at hstart
    simpa [Retention.none] using hstart.1
  have hreason := allocReason?_eq_none hchecked (mem_range.2 hlt)
  simp only [allocReason?, Option.or_eq_none_iff] at hreason
  simp [hreason.2.2.1] at hn

end Retention

/-- What adding one allocation after another keeps holds of the layout. -/
theorem Layout.meets_ofRetention_of {p : Program} {g : Graph} {r : Retention}
    {I : List Nat → Layout → Prop} (start : I [] {}) (step : ∀ ns l, ∀ n ∈ r.replaced, ∀ shape,
      (g.shapeOf n).fixed? = some shape → I ns l →
        I (ns ++ [n]) (l.add n (g.alloc n).inst shape (shape.slots p))) :
    Metered.Answers (I r.replaced) (Layout.ofRetention p g r) := by
  refine Metered.Meets.foldlM (fun ns n rest l hns hl => ?_) start
  rw [Layout.addAlloc]
  dsimp only
  split
  · exact .throw trivial
  · rename_i shape hshape
    exact (Metered.Meets.any _).bind fun _ _ => .pure
      (step ns l n (by simp [hns]) shape hshape hl)

theorem Layout.replaced_of_contains (p : Program) (g : Graph) (r : Retention) :
    Metered.Answers (fun l => ∀ n, l.contains n = true → r.isReplaced n = true)
      (Layout.ofRetention p g r) := by
  refine Layout.meets_ofRetention_of (I := fun _ l => ∀ n, l.contains n = true →
    r.isReplaced n = true) (by simp [Layout.contains]) fun _ l n hn shape _ hl k hk => ?_
  simp only [Layout.add, Layout.contains, any_append, Bool.or_eq_true] at hk
  rcases hk with hk | hk
  · exact hl k hk
  · obtain rfl : n = k := by simpa using hk
    exact Retention.mem_replaced.1 hn

/-- The plan that a planner has come to. -/
def Planner.toPlan (s : Planner) (layout : Layout) : Plan :=
  { layout, phis := s.phis, aliases := VarPhi.simplify s.phis
    livePhis := s.livePhis (VarPhi.simplify s.phis), temps := s.temps, replace := s.replace
    dead := s.dead, snapshots := s.snapshots, monitorsRemoved := s.monitorsRemoved }

theorem Body.meets_plan_of {p : Program} {body : Body} {g : Graph} {r : Retention}
    {L : Layout → Prop} {P : Plan → Prop}
    (hlayout : Metered.Answers L (Layout.ofRetention p g r))
    (empty : ∀ layout, L layout → layout.objects = [] → P { layout })
    (renamed : ∀ layout, L layout → Metered.Answers (fun s => P (s.toPlan layout))
      (PlanContext.rename { program := p, body, graph := g, layout })) :
    Metered.Answers (fun planned => ∀ plan, planned = .ready plan → P plan)
      (body.plan p g r) := by
  rw [Body.plan]
  refine hlayout.bind fun layout hl => ?_
  split
  · rename_i hnone
    refine .pure ?_
    rintro _ ⟨⟩
    exact empty layout hl (isEmpty_iff.1 hnone)
  · refine (renamed layout hl).bind fun s hs => ?_
    refine (Metered.Meets.any _).bind fun _ _ => ?_
    dsimp only
    -- what has failed does not go into the plan
    obtain ⟨failures, hfail⟩ := foldl_fail_of
      (c := { program := p, body, graph := g, layout })
      (I := fun s' => ∃ failures, s' = { s with failures })
      (fail_of fun _ failures h => h.elim fun _ h => ⟨failures, by rw [h]⟩) ⟨_, rfl⟩
      .unresolved ((PlanContext.leaks _ s _ _).map ScalarObject.alloc)
    rw [hfail]
    split
    · refine .pure ?_
      rintro _ ⟨⟩
      exact hs
    · refine .pure ?_
      rintro _ ⟨⟩

namespace PlanContext

/-- Only allocations that were to be replaced have failed. -/
def FailsWithin (c : PlanContext) (s : Planner) : Prop :=
  ∀ e ∈ s.failures, c.layout.contains e.1 = true

variable {c : PlanContext} {s : Planner}

theorem FailsWithin.fail (h : FailsWithin c s) (why : KeepReason) (n : Nat) :
    FailsWithin c (c.fail why s n) := by
  rw [PlanContext.fail]
  split
  · rename_i hn
    simp only [Bool.and_eq_true] at hn
    intro e he
    rcases mem_cons.1 he with rfl | he
    · exact hn.1
    · exact h e he
  · exact h

theorem meets_rename_failsWithin (c : PlanContext) : Metered.Answers (FailsWithin c) c.rename := by
  have hstable : ∀ x, c.Stable x (FailsWithin c) := fun x =>
    ⟨fun _ _ h => h, fun _ h => h, fun _ _ h => h, fun _ _ _ _ h => h,
      fun _ why n h => h.fail why n, fun _ _ h => h⟩
  exact meets_rename_of (fun _ _ _ h => h)
    (fun s sp h => snapshot_of (fun s why n h => h.fail why n) (fun _ _ _ _ h => h) h sp)
    (fun b x s op _ h => (hstable x).planOp h b op) fun _ _ he => by cases he

end PlanContext

/-- If planning asks for another try, there are allocations to blame, and they were to be
replaced. -/
theorem Body.replaced_of_retry (p : Program) (body : Body) (g : Graph) (r : Retention) :
    Metered.Answers (fun planned => ∀ failures, planned = .retry failures →
      failures ≠ [] ∧ ∀ e ∈ failures, r.isReplaced e.1 = true) (body.plan p g r) := by
  rw [Body.plan]
  refine (Layout.replaced_of_contains p g r).bind fun layout hl => ?_
  split
  · exact .pure nofun
  · refine (meets_rename_failsWithin _).bind fun s hs => ?_
    refine (Metered.Meets.any _).bind fun _ _ => ?_
    dsimp only
    split
    · exact .pure nofun
    · rename_i hne
      refine .pure ?_
      rintro _ ⟨⟩
      refine ⟨by simpa using hne, fun e he => hl e.1 ?_⟩
      exact foldlRecOn (motive := PlanContext.FailsWithin _) _ _ hs
        (fun _ h n _ => h.fail _ n) e he

end EscapeAnalysis
