import EscapeAnalysis.Proofs.PlanSteps
import EscapeAnalysis.Proofs.ShapedRuns
import EscapeAnalysis.Scalar.Commit

/-!
# Running planned code

The temporaries of a plan become instructions (`TempOp.named`). `Machine.runTemps` runs some of them
in the order they were planned in. The variables of a replaced object are to hold what its slots
would hold, in a run that has the object (`PlanContext.Mirrors`).
-/

namespace EscapeAnalysis

open List

/-- The operation of a temporary whose operands are the instructions that `name` says. -/
def TempOp.named (name : Scalar → InstId) : TempOp → Op
  | narrow ty v => .unary (.narrow ty) (name v)
  | binary op lhs rhs => .binary op (name lhs) (name rhs)
  | loadElem array index => .loadElem (name array) (name index)
  | storeElem array index value => .storeElem (name array) (name index) (name value)
  | barrier store => .barrier (name (.temp store))

namespace Machine

variable {σ : Type} {m : Machine} {name : Scalar → InstId} {f f' f₁ : Frame} {h h' h₁ : Heap}
  {n : Nat} {ops ops' : List TempOp} {op : TempOp} {halt : Halt}

/-- Runs temporaries one after the other, the first of them number `n`. What stops one of them
stops those behind it. -/
def runTemps (m : Machine) (name : Scalar → InstId) :
    Nat → List TempOp → Frame → Heap → Except Halt Frame × Heap
  | _, [], f, h => (.ok f, h)
  | n, op :: ops, f, h =>
    match m.eval f h (name (.temp n)) (op.named name) with
    | .error halt => (.error halt, h)
    | .ok effect =>
      runTemps m name (n + 1) ops
        (f.setResult (name (.temp n)) (effect.apply m.program h).1) (effect.apply m.program h).2

theorem runTemps_cons_of_ok {effect} (he : m.eval f h (name (.temp n)) (op.named name) = .ok effect) :
    m.runTemps name n (op :: ops) f h =
      m.runTemps name (n + 1) ops
        (f.setResult (name (.temp n)) (effect.apply m.program h).1)
        (effect.apply m.program h).2 := by
  rw [runTemps, he]

theorem runTemps_cons_of_error (he : m.eval f h (name (.temp n)) (op.named name) = .error halt) :
    m.runTemps name n (op :: ops) f h = (.error halt, h) := by
  rw [runTemps, he]

theorem runTemps_append (hr : m.runTemps name n ops f h = (.ok f₁, h₁)) :
    m.runTemps name n (ops ++ ops') f h = m.runTemps name (n + ops.length) ops' f₁ h₁ := by
  induction ops generalizing n f h with
  | nil =>
    cases hr
    rfl
  | cons op ops ih =>
    rw [runTemps] at hr
    split at hr
    · cases hr
    · rename_i effect he
      rw [cons_append, runTemps_cons_of_ok he, ih hr, length_cons]
      congr 1
      omega

theorem runTemps_append_of_error (hr : m.runTemps name n ops f h = (.error halt, h₁)) :
    m.runTemps name n (ops ++ ops') f h = (.error halt, h₁) := by
  induction ops generalizing n f h with
  | nil => cases hr
  | cons op ops ih =>
    rw [runTemps] at hr
    split at hr
    · rename_i halt' he
      rw [cons_append, runTemps_cons_of_error he]
      exact hr
    · rename_i effect he
      rw [cons_append, runTemps_cons_of_ok he, ih hr]

end Machine

namespace Planner

variable {s s₁ s₂ : Planner}

def opsSince (s' s : Planner) : List TempOp := (s'.temps.toList.drop s.temps.size).map Temp.op

theorem opsSince_of_temps_eq (h : s₁.temps = s.temps) : s₁.opsSince s = [] := by
  simp [opsSince, h]

theorem opsSince_addTemp (s : Planner) (b : BlockId) (x : InstId) (op : TempOp) (ty : Option Ty) :
    (s.addTemp b x op ty).2.opsSince s = [op] := by
  simp [opsSince, addTemp]

theorem opsSince_of_append {l} (h : s.temps.toList ++ l = s₁.temps.toList) :
    s₁.opsSince s = l.map Temp.op := by
  rw [opsSince, ← h, ← Array.length_toList, drop_left]

theorem opsSince_append (h : s.Extends s₁) (h' : s₁.Extends s₂) :
    s₂.opsSince s = s₁.opsSince s ++ s₂.opsSince s₁ := by
  obtain ⟨l, hl⟩ := h
  obtain ⟨l', hl'⟩ := h'
  rw [opsSince_of_append hl, opsSince_of_append hl', ← map_append]
  exact opsSince_of_append (by rw [← hl', ← hl, append_assoc])

theorem length_opsSince (h : s.Extends s₁) :
    s.temps.size + (s₁.opsSince s).length = s₁.temps.size := by
  have := h.size_le
  simp only [opsSince, length_map, length_drop, Array.length_toList]
  omega

end Planner

/-! ## Values of variables -/

namespace Planner

variable {var base : Nat}

theorem get_set_self (s : Planner) (h : var < s.env.size) (v : Scalar) :
    (s.set var v).get var = v := by
  simp [get, set, h]

theorem get_set_of_ne (s : Planner) {w} (h : w ≠ var) (v : Scalar) :
    (s.set var v).get w = s.get w := by
  simp only [get, set, Array.getD_eq_getD_getElem?, Array.getElem?_setIfInBounds_ne (Ne.symm h)]

@[simp] theorem size_env_set (s : Planner) (var : Nat) (v : Scalar) :
    (s.set var v).env.size = s.env.size := by simp [set]

theorem setFrom_cons (s : Planner) (base : Nat) (v : Scalar) (vs : List Scalar) :
    s.setFrom base (v :: vs) = (s.set base v).setFrom (base + 1) vs := by
  simp only [setFrom, zipIdx_cons, foldl_cons, Nat.add_zero, Nat.zero_add]
  rw [zipIdx_succ, foldl_map]
  simp only [Nat.add_assoc, Nat.add_comm 1]

theorem temps_setFrom (s : Planner) (base : Nat) (vs : List Scalar) :
    (s.setFrom base vs).temps = s.temps := by
  induction vs generalizing s base with
  | nil => rfl
  | cons v vs ih => rw [setFrom_cons, ih]; rfl

theorem get_setFrom (s : Planner) {vs} (hsize : base + vs.length ≤ s.env.size) (w : Nat) :
    (s.setFrom base vs).get w =
      if base ≤ w then (vs[w - base]?).getD (s.get w) else s.get w := by
  induction vs generalizing s base with
  | nil => simp [setFrom]
  | cons v vs ih =>
    rw [length_cons] at hsize
    rw [setFrom_cons, ih _ (by rw [size_env_set]; omega)]
    by_cases hw : w = base
    · subst hw
      rw [if_neg (by omega), if_pos (Nat.le_refl _), get_set_self s (by omega)]
      simp
    · rw [get_set_of_ne s hw]
      by_cases hle : base ≤ w
      · obtain ⟨k, rfl⟩ : ∃ k, w = base + 1 + k := ⟨w - (base + 1), by omega⟩
        rw [if_pos (by omega), if_pos hle, Nat.add_sub_cancel_left,
          show base + 1 + k - base = k + 1 by omega, List.getElem?_cons_succ]
      · rw [if_neg (by omega), if_neg hle]

theorem length_getFrom (s : Planner) (base len : Nat) : (s.getFrom base len).length = len := by
  simp [getFrom]

theorem getElem?_getFrom (s : Planner) {len k} (hk : k < len) :
    (s.getFrom base len)[k]? = some (s.get (base + k)) := by
  simp [getFrom, hk]

theorem get_eq_of_getFrom {s s' : Planner} {n}
    (h : ∀ var, var < base ∨ base + n ≤ var → s'.get var = s.get var) (var : Nat) :
    s'.get var =
      if base ≤ var then ((s'.getFrom base n)[var - base]?).getD (s.get var) else s.get var := by
  split
  · by_cases hlt : var - base < n
    · rw [getElem?_getFrom s' hlt, Option.getD_some, show base + (var - base) = var by omega]
    · rw [List.getElem?_eq_none (by rw [length_getFrom]; omega), Option.getD_none]
      exact h var (by omega)
  · exact h var (by omega)

end Planner

/-- What a value of a plan is in frame `f`: constants are what they are, and all others have
instructions. -/
def Scalar.read? (name : Scalar → InstId) (f : Frame) : Scalar → Option Value
  | const k => some k.toValue
  | v => f.values.get? (name v)

/-- The values that there are when what is planned between `s` and `s'` has run. -/
inductive Planner.Known (body : Body) (s s' : Planner) : Scalar → Prop
  | current {v : Scalar} (h : v ∈ s.env) : Known body s s' v
  | inst {x : InstId} {inst} (h : body.insts.get? x = some inst) : Known body s s' (.inst x)
  | const (k : Const) : Known body s s' (.const k)
  | temp {i : Nat} (h : i < s'.temps.size) : Known body s s' (.temp i)

theorem Planner.Known.mono {body s s₁ s₂ v} (hv : Known body s s₁ v) (h : s₁.Extends s₂) :
    Known body s s₂ v := by
  cases hv with
  | current hv => exact .current hv
  | inst hx => exact .inst hx
  | const k => exact .const k
  | temp hi => exact .temp (Nat.lt_of_lt_of_le hi h.size_le)

theorem Planner.Known.get (body : Body) (s s' : Planner) (var : Nat) :
    Known body s s' (s.get var) := by
  rw [Planner.get, Array.getD]
  split
  · exact .current (Array.getElem_mem _)
  · exact .const .null

namespace Machine

variable {m : Machine} {c : PlanContext} {name : Scalar → InstId} {s s' s₁ s₂ s₃ : Planner}
  {f f' f₁ f₂ f₃ : Frame} {h h' : Heap} {v : Scalar} {w : Value} {i : Nat}

/-- The machine is about to run in frame `f` what is planned between `s` and `s'`. Every temporary
has got an instruction of its own, and the constants among the operands have been computed. -/
structure Emitted (m : Machine) (c : PlanContext) (name : Scalar → InstId) (s s' : Planner)
    (f : Frame) : Prop where
  wf : m.body.insts.WellFormed
  within : f.values.Within m.body.insts
  current : ∀ i, .temp i ∈ s.env → i < s.temps.size
  ops : ∀ (i : Nat) t, s.temps.size ≤ i → s'.temps[i]? = some t →
    m.body.op? (name (.temp i)) = some (t.op.named name)
  apart : ∀ i, s.temps.size ≤ i → i < s'.temps.size → ∀ v, Planner.Known c.body s s' v →
    name v = name (.temp i) → v = .temp i
  consts : ∀ (i : Nat) t k, s.temps.size ≤ i → s'.temps[i]? = some t →
    .const k ∈ t.op.operands → f.values.get? (name (.const k)) = some k.toValue

def runPlanned (m : Machine) (name : Scalar → InstId) (s s' : Planner) (f : Frame) (h : Heap) :
    Except Halt Frame × Heap :=
  m.runTemps name s.temps.size (s'.opsSince s) f h

theorem runPlanned_of_temps_eq (ht : s'.temps = s.temps) :
    m.runPlanned name s s' f h = (.ok f, h) := by
  rw [runPlanned, Planner.opsSince_of_temps_eq ht, runTemps]

theorem runPlanned_trans (h₁ : s₁.Extends s₂) (h2 : s₂.Extends s₃)
    (hr : m.runPlanned name s₁ s₂ f h = (.ok f', h')) :
    m.runPlanned name s₁ s₃ f h = m.runPlanned name s₂ s₃ f' h' := by
  rw [runPlanned, Planner.opsSince_append h₁ h2, runTemps_append hr, Planner.length_opsSince h₁,
    runPlanned]

theorem runPlanned_trans_of_error {halt} (h₁ : s₁.Extends s₂) (h2 : s₂.Extends s₃)
    (hr : m.runPlanned name s₁ s₂ f h = (.error halt, h')) :
    m.runPlanned name s₁ s₃ f h = (.error halt, h') := by
  rw [runPlanned, Planner.opsSince_append h₁ h2, runTemps_append_of_error hr]

theorem runPlanned_congr (name : Scalar → InstId) (ht : s₂.temps = s₁.temps) :
    m.runPlanned name s s₂ f h = m.runPlanned name s s₁ f h := by
  rw [runPlanned, runPlanned, Planner.opsSince, Planner.opsSince, ht]

theorem runPlanned_kill (x : InstId) :
    m.runPlanned name s (s'.kill x) f h = m.runPlanned name s s' f h := rfl

namespace Emitted

variable (he : m.Emitted c name s s' f) (hi : s.temps.size ≤ i)
include he hi

theorem get?_set (hlt : i < s'.temps.size) (w : Value) (hv : Planner.Known c.body s s' v) :
    (f.set (name (.temp i)) w).values.get? (name v) =
      if v = .temp i then some w else f.values.get? (name v) := by
  have hop := he.ops i _ hi (Array.getElem?_eq_getElem hlt)
  obtain ⟨inst, hinst, -⟩ := Option.map_eq_some_iff.1 hop
  rw [Frame.set, SideTable.get?_insert he.wf he.within hinst]
  by_cases hname : name v = name (.temp i)
  · rw [if_pos hname, if_pos (he.apart i hi hlt v hv hname)]
  · rw [if_neg hname, if_neg fun heq => hname (congrArg name heq)]

theorem set (hlt : i < s'.temps.size)
    (w : Value) : m.Emitted c name s s' (f.set (name (.temp i)) w) := by
  have hop := he.ops i _ hi (Array.getElem?_eq_getElem hlt)
  obtain ⟨inst, hinst, -⟩ := Option.map_eq_some_iff.1 hop
  refine ⟨he.wf, he.within.insert hinst w, he.current, he.ops, he.apart,
    fun j t k hj ht hk => ?_⟩
  rw [he.get?_set hi hlt w (.const k), if_neg nofun]
  exact he.consts j t k hj ht hk

theorem get?_operand {t} (ht : s'.temps[i]? = some t) (hv : v ∈ t.op.operands) :
    f.values.get? (name v) = v.read? name f := by
  cases v with
  | const k => exact he.consts i t k hi ht hv
  | inst x => rfl
  | phi idx => rfl
  | temp idx => rfl

end Emitted

/-- What is planned between `s₁` and `s₂`, a part of what is planned between `s` and `s'`, runs in
frame `f` and leads to `f'`. It computes values only, and keeps those there were. -/
structure Computes (m : Machine) (c : PlanContext) (name : Scalar → InstId)
    (s s' s₁ s₂ : Planner) (h : Heap) (f f' : Frame) : Prop where
  run : m.runPlanned name s₁ s₂ f h = (.ok f', h)
  emitted : m.Emitted c name s s' f'
  keeps : ∀ v, Planner.Known c.body s s₁ v → v.read? name f' = v.read? name f

namespace Computes

theorem of_temps_eq (he : m.Emitted c name s s' f) (ht : s₂.temps = s₁.temps) :
    m.Computes c name s s' s₁ s₂ h f f :=
  ⟨runPlanned_of_temps_eq ht, he, fun _ _ => rfl⟩

theorem trans (h₁ : s₁.Extends s₂) (h2 : s₂.Extends s₃)
    (hc : m.Computes c name s s' s₁ s₂ h f₁ f₂) (hc' : m.Computes c name s s' s₂ s₃ h f₂ f₃) :
    m.Computes c name s s' s₁ s₃ h f₁ f₃ where
  run := (runPlanned_trans h₁ h2 hc.run).trans hc'.run
  emitted := hc'.emitted
  keeps v hv := (hc'.keeps v (hv.mono h₁)).trans (hc.keeps v hv)

theorem addTemp (he : m.Emitted c name s s' f) {b x op ty} (hs : s.Extends s₁)
    (hs' : (s₁.addTemp b x op ty).2.Extends s')
    (hop : m.eval f h (name (.temp s₁.temps.size)) (op.named name) = .ok (.value w)) :
    ∃ f', m.Computes c name s s' s₁ (s₁.addTemp b x op ty).2 h f f' ∧
      (s₁.addTemp b x op ty).1.read? name f' = some w := by
  have hlt : s₁.temps.size < s'.temps.size := by
    have := hs'.size_le
    simp only [Planner.addTemp, Array.size_push] at this
    omega
  refine ⟨f.set (name (.temp s₁.temps.size)) w, ⟨?_, he.set hs.size_le hlt w, fun v hv => ?_⟩, ?_⟩
  · rw [runPlanned, Planner.opsSince_addTemp, runTemps_cons_of_ok hop]
    rfl
  · have hnew : v ≠ .temp s₁.temps.size := by
      rintro rfl
      cases hv with
      | current hv => exact Nat.not_lt.2 hs.size_le (he.current _ hv)
      | temp hlt => exact Nat.lt_irrefl _ hlt
    have hget := he.get?_set hs.size_le hlt w
      (hv.mono ((Planner.extends_addTemp s₁ b x op ty).trans hs'))
    rw [if_neg hnew] at hget
    cases v with
    | const k => rfl
    | inst x => exact hget
    | phi idx => exact hget
    | temp j => exact hget
  · exact (he.get?_set hs.size_le hlt w (.temp hlt)).trans (if_pos rfl)

end Computes

end Machine

namespace Layout

variable {l : Layout}

/-- The variables of an object lie behind those of the objects before it. -/
structure Packed (l : Layout) : Prop where
  within : ∀ o ∈ l.objects, o.base + o.slots ≤ l.vars.size
  sorted : l.objects.Pairwise fun o o' => o.base + o.slots ≤ o'.base

theorem Packed.apart (h : l.Packed) {o o'} (ho : o ∈ l.objects) (ho' : o' ∈ l.objects)
    (hne : o ≠ o') : o.base + o.slots ≤ o'.base ∨ o'.base + o'.slots ≤ o.base := by
  obtain ⟨i, hi, rfl⟩ := getElem_of_mem ho
  obtain ⟨j, hj, rfl⟩ := getElem_of_mem ho'
  have hsorted := pairwise_iff_getElem.1 h.sorted
  rcases Nat.lt_trichotomy i j with hlt | rfl | hlt
  · exact .inl (hsorted i j hi hj hlt)
  · exact absurd rfl hne
  · exact .inr (hsorted j i hj hi hlt)

end Layout

/-! ## Two runs side by side -/

namespace PlanContext

/-- One run has variables in place of objects that the other has in its heap `h`, each at the
reference that `home` says: the variables hold what the slots hold. -/
def Mirrors (c : PlanContext) (name : Scalar → InstId) (home : ScalarObject → Option ObjRef)
    (s : Planner) (f : Frame) (h : Heap) : Prop :=
  ∀ o ∈ c.layout.objects, ∀ r, home o = some r → ∃ obj, h.get? r = some obj ∧
    obj.shape = o.shape ∧ obj.fields.size = o.slots ∧
    ∀ k < o.slots, (s.get (o.base + k)).read? name f = obj.fields[k]?

variable {c : PlanContext} {name : Scalar → InstId} {home : ScalarObject → Option ObjRef}
  {s s' : Planner} {f f' : Frame} {h : Heap} {o : ScalarObject} {r : ObjRef}

namespace Mirrors

theorem write_real (hm : c.Mirrors name home s f h) (henv : s'.env = s.env)
    (hr : ∀ o ∈ c.layout.objects, home o ≠ some r) (p : Program) (first : Nat) (ws : List Value) :
    c.Mirrors name home s' f ((Effect.write r first ws).apply p h).2 := by
  intro o ho r' hr'
  obtain ⟨obj, hobj, hshape, hsize, hvars⟩ := hm o ho r' hr'
  have hne : r' ≠ r := by
    rintro rfl
    exact hr o ho hr'
  refine ⟨obj, ?_, hshape, hsize, fun k hk => ?_⟩
  · simp only [Effect.apply, Heap.get?_modify, if_neg hne, hobj]
  · rw [Planner.get, henv]
    exact hvars k hk

theorem write (hm : c.Mirrors name home s f h) (hl : c.layout.Packed)
    (hinj : ∀ o ∈ c.layout.objects, ∀ o' ∈ c.layout.objects, ∀ r,
      home o = some r → home o' = some r → o = o') (ho : o ∈ c.layout.objects)
    (hr : home o = some r) {first} {vs : List Scalar} {ws}
    (hvs : vs.map (Scalar.read? name f') = ws.map some) (hfit : first + vs.length ≤ o.slots)
    (hkeep : ∀ var, (s.get var).read? name f' = (s.get var).read? name f)
    (hget : ∀ var, s'.get var =
      if o.base + first ≤ var then (vs[var - (o.base + first)]?).getD (s.get var) else s.get var)
    (p : Program) : c.Mirrors name home s' f' ((Effect.write r first ws).apply p h).2 := by
  have hlen : vs.length = ws.length := by simpa using congrArg List.length hvs
  intro o' ho' r' hr'
  obtain ⟨obj, hobj, hshape, hsize, hvars⟩ := hm o' ho' r' hr'
  by_cases hoo : o' = o
  · subst hoo
    obtain rfl : r = r' := Option.mem_unique hr hr'
    refine ⟨{ obj with fields := writeSlots obj.fields first ws }, ?_, hshape, by simp [hsize],
      fun k hk => ?_⟩
    · simp only [Effect.apply, Heap.get?_modify, if_true, hobj, Option.map_some]
    · rw [getElem?_writeSlots, hget, hsize]
      by_cases hin : first ≤ k ∧ k < first + ws.length
      · have hk' : k - first < vs.length := by omega
        have hread := congrArg (fun l : List (Option Value) => l[k - first]?) hvs
        simp only [List.getElem?_map, List.getElem?_eq_getElem hk',
          List.getElem?_eq_getElem (hlen ▸ hk'), Option.map_some, Option.some.injEq] at hread
        rw [if_pos (by omega), if_pos ⟨hin.1, hin.2, hk⟩,
          show o'.base + k - (o'.base + first) = k - first by omega,
          List.getElem?_eq_getElem hk', List.getElem?_eq_getElem (hlen ▸ hk'), Option.getD_some,
          hread]
      · have hout : ¬(first ≤ k ∧ k < first + ws.length ∧ k < o'.slots) := by omega
        rw [if_neg hout]
        split
        · rw [List.getElem?_eq_none (by omega), Option.getD_none, hkeep, hvars k hk]
        · rw [hkeep, hvars k hk]
  · have hne : r' ≠ r := by
      rintro rfl
      exact hoo (hinj _ ho' _ ho _ hr' hr)
    refine ⟨obj, ?_, hshape, hsize, fun k hk => ?_⟩
    · simp only [Effect.apply, Heap.get?_modify, if_neg hne, hobj]
    · rw [hget]
      have happ := hl.apart ho' ho hoo
      split
      · rw [List.getElem?_eq_none (by omega), Option.getD_none, hkeep, hvars k hk]
      · rw [hkeep, hvars k hk]

end Mirrors

/-- A run that has variables in place of objects, about to run in frame `f` what is planned between
`s` and `s'`, beside a run that has the objects in its heap `h`. -/
structure Beside (c : PlanContext) (m : Machine) (name : Scalar → InstId)
    (home : ScalarObject → Option ObjRef) (s s' : Planner) (f : Frame) (h : Heap) : Prop where
  emitted : m.Emitted c name s s' f
  packed : c.layout.Packed
  env : s.env.size = c.layout.vars.size
  apart : ∀ o ∈ c.layout.objects, ∀ o' ∈ c.layout.objects, ∀ r,
    home o = some r → home o' = some r → o = o'
  mirrors : c.Mirrors name home s f h

end PlanContext

end EscapeAnalysis
