import EscapeAnalysis.Proofs.Heaps
import EscapeAnalysis.Proofs.Steps

/-!
# What leaving compiled code does to the heap

A debug value may be a choice between candidates, which may be choices in turn. In a frame that
holds the selectors it comes down to one value of an instruction, one constant or one recipe
(`DebugValue.Selects`). Evaluating it reads that value or refers to the object of the recipe
(`Rebuild.eval_eq_ok`). So rebuilding the objects of a debug state makes a few kinds of changes, and
what each of them keeps is kept by all of it (`Rebuild.Stable`).
-/

namespace EscapeAnalysis

open List EscapeAnalysis.Except

variable {body : Body} {program : Program} {h' : Heap} {s : SafepointId} {state : DeoptState}

namespace DebugValue

variable {selector other : InstId} {candidates : List DebugValue}

mutual

def parts : DebugValue → List DebugValue
  | value x => [value x]
  | const c => [const c]
  | object idx => [object idx]
  | merge selector other candidates => merge selector other candidates :: partsAll candidates

def partsAll : List DebugValue → List DebugValue
  | [] => []
  | v :: vs => v.parts ++ partsAll vs

end

theorem partsAll_eq_flatMap (vs : List DebugValue) : partsAll vs = vs.flatMap parts := by
  induction vs with
  | nil => rfl
  | cons v vs ih => rw [partsAll, ih, flatMap_cons]

theorem instsAll_eq_flatMap (vs : List DebugValue) : instsAll vs = vs.flatMap insts := by
  induction vs with
  | nil => rfl
  | cons v vs ih => rw [instsAll, ih, flatMap_cons]

theorem mapInstsAll_eq_map (r : InstId → InstId) (vs : List DebugValue) :
    mapInstsAll r vs = vs.map (mapInsts r) := by
  induction vs with
  | nil => rfl
  | cons v vs ih => rw [mapInstsAll, ih, map_cons]

theorem mem_parts_merge {w} :
    w ∈ (merge selector other candidates).parts ↔
      w = merge selector other candidates ∨ ∃ c ∈ candidates, w ∈ c.parts := by
  rw [parts, partsAll_eq_flatMap, mem_cons, mem_flatMap]

theorem mem_insts_merge {x} :
    x ∈ (merge selector other candidates).insts ↔
      x = selector ∨ x = other ∨ ∃ c ∈ candidates, x ∈ c.insts := by
  rw [insts, instsAll_eq_flatMap, mem_cons, mem_cons, mem_flatMap]

theorem induct {P : DebugValue → Prop} (value : ∀ x, P (.value x)) (const : ∀ c, P (.const c))
    (object : ∀ idx, P (.object idx))
    (merge : ∀ selector other candidates, (∀ c ∈ candidates, P c) →
      P (.merge selector other candidates)) (v : DebugValue) : P v := by
  cases v with
  | value x => exact value x
  | const c => exact const c
  | object idx => exact object idx
  | merge selector other candidates =>
    exact merge selector other candidates fun c _ => induct value const object merge c

theorem self_mem_parts (v : DebugValue) : v ∈ v.parts := by
  cases v <;> simp [parts]

theorem neg_one_toInt_ne (k : Nat) : (-1 : Int32).toInt ≠ k := by
  rw [show (-1 : Int32).toInt = -1 by decide]
  omega

/-- What a debug value comes down to: itself, unless it is a choice, in which case the selector
decides. -/
inductive Selects (values : SideTable .inst Value) : DebugValue → DebugValue → Prop
  | value (x : InstId) : Selects values (.value x) (.value x)
  | const (c : Const) : Selects values (.const c) (.const c)
  | object (idx : Nat) : Selects values (.object idx) (.object idx)
  | other {selector other : InstId} {candidates : List DebugValue} :
      values.get? selector = some (.int (-1)) →
      Selects values (.merge selector other candidates) (.value other)
  | candidate {selector other : InstId} {candidates : List DebugValue} {n : Int32} {k : Nat}
      {v leaf : DebugValue} : values.get? selector = some (.int n) → n.toInt = k →
      candidates[k]? = some v → Selects values v leaf →
      Selects values (.merge selector other candidates) leaf

/-- What a debug value other than a choice stands for, where `obj` has the objects of the
recipes. -/
def plain? (values : SideTable .inst Value) (obj : Nat → Option ObjRef) :
    DebugValue → Option Value
  | value x => values.get? x
  | const c => some c.toValue
  | object idx => (obj idx).map .ref
  | merge .. => none

/-- The debug value stands for `w`, where `obj` has the objects of the recipes. -/
def Denotes (values : SideTable .inst Value) (obj : Nat → Option ObjRef) (v : DebugValue)
    (w : Value) : Prop :=
  ∃ leaf, Selects values v leaf ∧ leaf.plain? values obj = some w

variable {values : SideTable .inst Value} {obj obj' : Nat → Option ObjRef} {v leaf : DebugValue}
  {w : Value}

namespace Selects

theorem unique {leaf'} (h : Selects values v leaf) (h' : Selects values v leaf') :
    leaf = leaf' := by
  induction h with
  | value | const | object =>
    cases h'
    rfl
  | other hs =>
    cases h' with
    | other => rfl
    | candidate hs' hk =>
      cases Option.mem_unique hs hs'
      exact absurd hk (neg_one_toInt_ne _)
  | candidate hs hk hv _ ih =>
    cases h' with
    | other hs' =>
      cases Option.mem_unique hs hs'
      exact absurd hk (neg_one_toInt_ne _)
    | candidate hs' hk' hv' h' =>
      cases Option.mem_unique hs hs'
      cases Int.ofNat.inj (hk.symm.trans hk')
      cases Option.mem_unique hv hv'
      exact ih h'

theorem ne_merge {selector other candidates} (h : Selects values v leaf) :
    leaf ≠ .merge selector other candidates := by
  induction h with
  | value | const | object | other => nofun
  | candidate _ _ _ _ ih => exact ih

theorem object_mem_parts {idx} (h : Selects values v (.object idx)) : .object idx ∈ v.parts := by
  generalize he : DebugValue.object idx = leaf at h
  induction h with
  | value | const | other => cases he
  | object => exact he ▸ self_mem_parts _
  | candidate _ _ hv _ ih => exact mem_parts_merge.2 (.inr ⟨_, mem_of_getElem? hv, ih he⟩)

theorem value_mem_insts {x} (h : Selects values v (.value x)) : x ∈ v.insts := by
  generalize he : DebugValue.value x = leaf at h
  induction h with
  | value =>
    cases he
    exact mem_singleton_self _
  | const | object => cases he
  | other =>
    cases he
    exact mem_insts_merge.2 (.inr (.inl rfl))
  | candidate _ _ hv _ ih =>
    exact mem_insts_merge.2 (.inr (.inr ⟨_, mem_of_getElem? hv, ih he⟩))

end Selects

/-- The selector of a choice has a value that decides it. -/
def Decided (values : SideTable .inst Value) (selector : InstId) (candidates : List DebugValue) :
    Prop :=
  ∃ n : Int32, values.get? selector = some (.int n) ∧
    (n = -1 ∨ ∃ k : Nat, n.toInt = k ∧ k < candidates.length)

theorem exists_selects (h : ∀ selector other candidates,
    .merge selector other candidates ∈ v.parts → Decided values selector candidates) :
    ∃ leaf, Selects values v leaf := by
  induction v using induct with
  | value x => exact ⟨_, .value x⟩
  | const c => exact ⟨_, .const c⟩
  | object idx => exact ⟨_, .object idx⟩
  | merge selector other candidates ih =>
    obtain ⟨n, hn, rfl | ⟨k, hk, hlt⟩⟩ := h selector other candidates (self_mem_parts _)
    · exact ⟨_, .other hn⟩
    · have hmem := getElem_mem hlt
      obtain ⟨leaf, hleaf⟩ := ih _ hmem fun selector' other' candidates' hpart =>
        h selector' other' candidates' (mem_parts_merge.2 (.inr ⟨_, hmem, hpart⟩))
      exact ⟨leaf, .candidate hn hk (List.getElem?_eq_getElem hlt) hleaf⟩

theorem Denotes.mono (h : Denotes values obj v w) (hobj : ∀ i o, obj i = some o → obj' i = some o) :
    Denotes values obj' v w := by
  obtain ⟨leaf, hleaf, hw⟩ := h
  refine ⟨leaf, hleaf, ?_⟩
  cases leaf with
  | object idx =>
    obtain ⟨o, ho, rfl⟩ := Option.map_eq_some_iff.1 hw
    exact Option.map_eq_some_iff.2 ⟨o, hobj idx o ho, rfl⟩
  | _ => exact hw

theorem Denotes.of_selects_object {idx} (h : Denotes values obj v w)
    (hs : Selects values v (.object idx)) : ∃ o, obj idx = some o ∧ w = .ref o := by
  obtain ⟨leaf, hleaf, hw⟩ := h
  cases hleaf.unique hs
  obtain ⟨o, ho, rfl⟩ := Option.map_eq_some_iff.1 hw
  exact ⟨o, ho, rfl⟩

end DebugValue

def DebugState.parts (s : DebugState) : List DebugValue := s.debugValues.flatMap DebugValue.parts

/-- The recipes that are named are there. -/
def DebugState.Closed (s : DebugState) : Prop :=
  ∀ idx, .object idx ∈ s.parts → idx < s.recipes.length

/-- There is such an object, and it can be locked once more. -/
def Heap.Lockable (h : Heap) (o : ObjRef) : Prop :=
  ∃ obj, h.get? o = some obj ∧ obj.isFull = false

namespace Rebuild

variable {program : Program} {values : SideTable .inst Value} {recipes : List Recipe} {h : Heap}
  {r r' r₁ r₂ : Rebuild} {v leaf : DebugValue} {w : Value} {ws ws' : List Value} {o : ObjRef}
  {idx : Nat} {s : SafepointId} {x : InstId} {res : Value × Rebuild}

theorem read_eq_ok : read values x = .ok w ↔ values.get? x = some w := by
  rw [read]
  cases values.get? x with
  | none => simp [throw, throwThe, MonadExceptOf.throw]
  | some w => simp [pure, Except.pure]

/-- The rebuilding after creating the object of the recipe with the given index. -/
def create (program : Program) (r : Rebuild) (shape : Shape) (idx : Nat) : Rebuild where
  heap := { (r.heap.alloc program shape).2 with
    rematerialized := (r.heap.alloc program shape).2.rematerialized + 1 }
  built := r.built.setIfInBounds idx (some (r.heap.alloc program shape).1)
  pending := r.pending ++ [idx]

theorem object_eq_ok : object program recipes r idx = .ok (o, r₁) ↔
    r.built[idx]? = some (some o) ∧ r₁ = r ∨
    ∃ recipe, r.built[idx]? = some none ∧ recipes[idx]? = some recipe ∧
      o = (r.heap.alloc program recipe.shape).1 ∧ r₁ = r.create program recipe.shape idx := by
  rw [object]
  split
  · rename_i o' hb
    simp [hb, pure, Except.pure, eq_comm]
  · rename_i recipe hb hrecipe
    simp [hb, hrecipe, pure, Except.pure, create, eq_comm]
  · rename_i hnone hsome
    constructor
    · intro he
      cases he
    · rintro (⟨hb, -⟩ | ⟨recipe, hb, hrecipe, -⟩)
      · exact (hnone o hb).elim
      · exact (hsome recipe hb hrecipe).elim

/-! ## Evaluating debug values -/

theorem eval_value :
    eval program values recipes r (.value x) = .ok res ↔
      ∃ v, values.get? x = some v ∧ res = (v, r) := by
  simp only [eval, bind_eq_ok, pure_eq_ok, read_eq_ok, @eq_comm _ res]

theorem eval_object : eval program values recipes r (.object idx) = .ok (w, r') ↔
    ∃ o, object program recipes r idx = .ok (o, r') ∧ w = .ref o := by
  simp only [eval, bind_eq_ok, pure_eq_ok, Prod.mk.injEq]
  constructor
  · rintro ⟨⟨o, r₁⟩, ho, rfl, rfl⟩
    exact ⟨o, ho, rfl⟩
  · rintro ⟨o, ho, rfl⟩
    exact ⟨_, ho, rfl, rfl⟩

theorem evalNth_eq (selector : Int) : ∀ (vs : List DebugValue) (n : Nat),
    evalNth program values recipes r selector vs n =
      match vs[n]? with
      | some v => eval program values recipes r v
      | none => .error (.selectorOutOfRange selector)
  | [], _ => by
    rw [evalNth]
    rfl
  | v :: _, 0 => by
    rw [evalNth]
    rfl
  | _ :: vs, n + 1 => by
    rw [evalNth, evalNth_eq selector vs n]
    rfl

theorem eval_of_selects (hs : v.Selects values leaf) :
    eval program values recipes r v = eval program values recipes r leaf := by
  induction hs with
  | value | const | object => rfl
  | other hs =>
    simp only [eval, read, hs]
    rfl
  | @candidate selector other candidates n k v leaf hs hk hv _ ih =>
    have hn : n ≠ -1 := by
      rintro rfl
      exact DebugValue.neg_one_toInt_ne k hk
    simp only [eval, read, hs, pure_bind, Value.toInt?, if_neg hn, hk,
      if_neg (Int.not_lt.2 (Int.natCast_nonneg k)), Int.toNat_natCast]
    rw [evalNth_eq, hv, ← ih]

theorem exists_selects_of_eval (he : eval program values recipes r v = .ok res) :
    ∃ leaf, v.Selects values leaf := by
  induction v using DebugValue.induct with
  | value x => exact ⟨_, .value x⟩
  | const c => exact ⟨_, .const c⟩
  | object idx => exact ⟨_, .object idx⟩
  | merge selector other candidates ih =>
    simp only [eval, bind_eq_ok, read_eq_ok] at he
    obtain ⟨v, hs, he⟩ := he
    cases v with
    | int n =>
      simp only [Value.toInt?] at he
      split at he
      · rename_i hn
        exact ⟨_, .other (hn ▸ hs)⟩
      · split at he
        · cases he
        · rename_i hneg
          rw [evalNth_eq] at he
          split at he
          · rename_i c hc
            obtain ⟨leaf, hleaf⟩ := ih c (mem_of_getElem? hc) he
            exact ⟨leaf, .candidate hs (by omega) hc hleaf⟩
          · cases he
    | _ => cases he

/-- Evaluating a debug value gives the value it stands for, or the object of the recipe that it
comes down to. -/
theorem eval_eq_ok : eval program values recipes r v = .ok (w, r') ↔
    v.Denotes values (fun _ => none) w ∧ r' = r ∨
      ∃ idx o, v.Selects values (.object idx) ∧ object program recipes r idx = .ok (o, r') ∧
        w = .ref o := by
  constructor
  · intro he
    obtain ⟨leaf, hs⟩ := exists_selects_of_eval he
    rw [eval_of_selects hs] at he
    cases leaf with
    | value x =>
      obtain ⟨v, hx, hres⟩ := eval_value.1 he
      cases hres
      exact .inl ⟨⟨_, hs, hx⟩, rfl⟩
    | const c =>
      rw [eval] at he
      cases he
      exact .inl ⟨⟨_, hs, rfl⟩, rfl⟩
    | object idx =>
      obtain ⟨o, ho, rfl⟩ := eval_object.1 he
      exact .inr ⟨idx, o, hs, ho, rfl⟩
    | merge => exact absurd rfl hs.ne_merge
  · rintro (⟨⟨leaf, hs, hw⟩, rfl⟩ | ⟨idx, o, hs, ho, rfl⟩)
    · rw [eval_of_selects hs]
      cases leaf with
      | value x => exact eval_value.2 ⟨w, hw, rfl⟩
      | const c =>
        cases hw
        rw [eval]
        rfl
      | object | merge => cases hw
    · rw [eval_of_selects hs]
      exact eval_object.2 ⟨o, ho, rfl⟩

theorem lock_eq_ok : r.lock o = .ok r' ↔
    r.heap.Lockable o ∧ r' = { r with heap := r.heap.lock o } := by
  rw [lock]
  constructor
  · intro he
    split at he
    · cases he
    · rename_i obj hobj
      split at he
      · cases he
      · cases he
        exact ⟨⟨obj, hobj, by simpa using ‹¬ obj.isFull = true›⟩, rfl⟩
  · rintro ⟨⟨obj, hobj, hroom⟩, rfl⟩
    rw [hobj]
    dsimp only
    rw [hroom]
    rfl

theorem lock_of_isFull {obj} (hobj : r.heap.get? o = some obj) (hfull : obj.isFull = true) :
    r.lock o = .error (.lockOverflow o) := by
  rw [lock, hobj]
  dsimp only
  rw [hfull]
  rfl

theorem evalMonitor_of_lock {m e} (he : eval program values recipes r m.obj = .ok (.ref o, r₁))
    (hm : m.eliminated = true) (hlock : r₁.lock o = .error e) :
    evalMonitor program values recipes s r m = .error e := by
  rw [evalMonitor, he]
  dsimp only [bind, Except.bind]
  rw [hm, hlock]
  rfl

theorem evalMonitor_eq_ok {m} :
    evalMonitor program values recipes s r m = .ok (w, r') ↔
      ∃ r₁, eval program values recipes r m.obj = .ok (w, r₁) ∧
        (m.eliminated = false ∧ r' = r₁ ∨ m.eliminated = true ∧
          ∃ o, w = .ref o ∧ r₁.lock o = .ok r') := by
  simp only [evalMonitor, bind_eq_ok]
  constructor
  · rintro ⟨⟨v, r₁⟩, hv, he⟩
    cases hm : m.eliminated with
    | false =>
      rw [hm] at he
      cases he
      exact ⟨_, hv, .inl ⟨rfl, rfl⟩⟩
    | true =>
      rw [hm] at he
      cases v with
      | ref o =>
        obtain ⟨r₂, hlock, he⟩ := bind_eq_ok.1 he
        cases he
        exact ⟨r₁, hv, .inr ⟨rfl, o, rfl, hlock⟩⟩
      | _ => cases he
  · rintro ⟨r₁, hv, ⟨hm, rfl⟩ | ⟨hm, o, rfl, hlock⟩⟩
    · exact ⟨_, hv, by rw [hm]; rfl⟩
    · exact ⟨_, hv, by rw [hm]; exact bind_eq_ok.2 ⟨r', hlock, rfl⟩⟩

theorem fillFields_cons_eq_ok {slots vs} :
    fillFields program values recipes slots o r idx (v :: vs) = .ok r' ↔
      ∃ w ty r₁, eval program values recipes r v = .ok (w, r₁) ∧ slots[idx]? = some ty ∧
        fillFields program values recipes slots o
          { r₁ with heap := r₁.heap.setField o idx (w.narrow ty) } (idx + 1) vs = .ok r' := by
  rw [fillFields, bind_eq_ok]
  constructor
  · rintro ⟨⟨w, r₁⟩, hv, he⟩
    dsimp only at he
    split at he
    · cases he
    · exact ⟨w, _, r₁, hv, ‹_›, he⟩
  · rintro ⟨w, ty, r₁, hv, hty, he⟩
    refine ⟨(w, r₁), hv, ?_⟩
    dsimp only
    rw [hty]
    exact he

/-! ## What all changes keep -/

/-- A reference is one that an instruction holds or that a recipe was built into. -/
def Knows (values : SideTable .inst Value) (r : Rebuild) (w : Value) : Prop :=
  ∀ o, w = .ref o → (∃ x, values.get? x = some (.ref o)) ∨ ∃ i : Nat, r.built[i]? = some (some o)

/-- Each change that rebuilding makes keeps `I`: an object is created, gets a lock or the value of a
slot, and is done with. -/
structure Stable (program : Program) (values : SideTable .inst Value) (recipes : List Recipe)
    (I : Rebuild → Prop) : Prop where
  create : ∀ r idx recipe, I r → r.built[idx]? = some none → recipes[idx]? = some recipe →
    I (r.create program recipe.shape idx)
  lock : ∀ r o, I r → I { r with heap := r.heap.lock o }
  setField : ∀ r (i : Nat) o recipe j ty w, I r → r.built[i]? = some (some o) →
    recipes[i]? = some recipe → (recipe.shape.slots program)[j]? = some ty → r.Knows values w →
    I { r with heap := r.heap.setField o j (w.narrow ty) }
  pop : ∀ r pending, I r → I { r with pending }

/-- A part of the rebuilding, from `r` to `r'`, that gave the values `ws`. -/
structure Leads (values : SideTable .inst Value) (I : Rebuild → Prop) (r r' : Rebuild)
    (ws : List Value) : Prop where
  inv : I r'
  built : ∀ (i : Nat) (o : ObjRef), r.built[i]? = some (some o) → r'.built[i]? = some (some o)
  knows : ∀ w ∈ ws, r'.Knows values w

section Stable

variable {I : Rebuild → Prop}

theorem Leads.refl (hr : I r) : Leads values I r r [] := ⟨hr, fun _ _ h => h, nofun⟩

theorem Leads.append (h1 : Leads values I r r₁ ws) (h2 : Leads values I r₁ r₂ ws') :
    Leads values I r r₂ (ws ++ ws') where
  inv := h2.inv
  built i o hi := h2.built i o (h1.built i o hi)
  knows w hw o ho := (mem_append.1 hw).elim
    (fun hw => (h1.knows w hw o ho).imp_right fun ⟨i, hi⟩ => ⟨i, h2.built i o hi⟩)
    fun hw => h2.knows w hw o ho

namespace Stable

variable (hI : Stable program values recipes I)
include hI

theorem eval (hr : I r) (he : Rebuild.eval program values recipes r v = .ok (w, r')) :
    Leads values I r r' [w] := by
  rcases eval_eq_ok.1 he with ⟨⟨leaf, -, hw⟩, rfl⟩ | ⟨idx, o, -, ho, rfl⟩
  · refine ⟨hr, fun _ _ h => h, forall_mem_singleton.2 fun o ho => .inl ?_⟩
    subst ho
    cases leaf with
    | value x => exact ⟨x, hw⟩
    | const c => cases c <;> cases hw
    | object | merge => cases hw
  · rcases object_eq_ok.1 ho with ⟨hb, rfl⟩ | ⟨recipe, hb, hrecipe, rfl, rfl⟩
    · refine ⟨hr, fun _ _ h => h, forall_mem_singleton.2 fun o' ho' => .inr ⟨idx, ?_⟩⟩
      cases ho'
      exact hb
    · have hlt := (Array.getElem?_eq_some_iff.1 hb).1
      refine ⟨hI.create r idx recipe hr hb hrecipe, fun i o hi => ?_,
        forall_mem_singleton.2 fun o' ho' => .inr ⟨idx, ?_⟩⟩
      · rw [Rebuild.create, Array.getElem?_setIfInBounds_ne, hi]
        rintro rfl
        cases hi.symm.trans hb
      · cases ho'
        rw [Rebuild.create, Array.getElem?_setIfInBounds_self_of_lt hlt]

theorem evalAll {vs} (hr : I r) (he : Rebuild.evalAll program values recipes r vs = .ok (ws, r')) :
    Leads values I r r' ws := by
  induction vs generalizing r ws with
  | nil =>
    cases he
    exact .refl hr
  | cons v vs ih =>
    simp only [Rebuild.evalAll, bind_eq_ok, pure_eq_ok, Prod.mk.injEq] at he
    obtain ⟨⟨w, r₁⟩, hv, ⟨ws', r₂⟩, hvs, rfl, rfl⟩ := he
    have h1 := hI.eval hr hv
    exact h1.append (ih h1.inv hvs)

theorem evalMonitors {ms} (hr : I r)
    (he : Rebuild.evalMonitors program values recipes s r ms = .ok (ws, r')) :
    Leads values I r r' ws := by
  induction ms generalizing r ws with
  | nil =>
    cases he
    exact .refl hr
  | cons m ms ih =>
    simp only [Rebuild.evalMonitors, bind_eq_ok, pure_eq_ok, Prod.mk.injEq] at he
    obtain ⟨⟨w, r₁⟩, hm, ⟨ws', r₂⟩, hms, rfl, rfl⟩ := he
    obtain ⟨r0, hv, hlock⟩ := evalMonitor_eq_ok.1 hm
    have h0 := hI.eval hr hv
    have h1 : Leads values I r r₁ [w] := by
      rcases hlock with ⟨-, rfl⟩ | ⟨-, o, -, hlock⟩
      · exact h0
      · obtain ⟨-, rfl⟩ := lock_eq_ok.1 hlock
        exact ⟨hI.lock r0 o h0.inv, h0.built, h0.knows⟩
    exact h1.append (ih h1.inv hms)

theorem fillFields {i first : Nat} {recipe fields} (hrecipe : recipes[i]? = some recipe) (hr : I r)
    (hb : r.built[i]? = some (some o))
    (he : Rebuild.fillFields program values recipes (recipe.shape.slots program) o r first fields =
      .ok r') : Leads values I r r' [] := by
  induction fields generalizing r first with
  | nil =>
    cases he
    exact .refl hr
  | cons v fields ih =>
    obtain ⟨w, ty, r₁, hv, hty, he⟩ := fillFields_cons_eq_ok.1 he
    have h1 := hI.eval hr hv
    have hb1 := h1.built i o hb
    have hset := hI.setField r₁ i o recipe first ty w h1.inv hb1 hrecipe hty (h1.knows w (.head _))
    have h2 := ih hset hb1 he
    exact ⟨h2.inv, fun i o hi => h2.built i o (h1.built i o hi), nofun⟩

theorem fill {n : Nat} (hr : I r) (he : Rebuild.fill program values recipes n r = .ok r') :
    Leads values I r r' [] := by
  induction n generalizing r with
  | zero =>
    cases he
    exact .refl hr
  | succ n ih =>
    rw [Rebuild.fill] at he
    split at he
    · cases he
      exact .refl hr
    · split at he
      · rename_i idx pending _ _ _ o recipe hb hrecipe
        obtain ⟨r₁, hf, he⟩ := bind_eq_ok.1 he
        have h1 := hI.fillFields hrecipe (hI.pop r pending hr) hb hf
        have h2 := ih h1.inv he
        exact ⟨h2.inv, fun i o hi => h2.built i o (h1.built i o hi), nofun⟩
      · cases he

end Stable

end Stable

end Rebuild

/-- What each change keeps holds when compiled code has been left, and all references in the state
are known. -/
theorem Body.deoptimize_stable {h values}
    (hd : body.deoptimize program h values s = .ok (state, h')) :
    ∃ recipes, ∀ I, Rebuild.Stable program values recipes I →
      I { heap := h, built := Array.replicate recipes.length none } →
      ∃ r, I r ∧ r.heap = h' ∧ ∀ w ∈ state.locals ++ state.monitors, r.Knows values w := by
  rw [Body.deoptimize] at hd
  split at hd
  · cases hd
  · rename_i dstate _
    simp only [bind_eq_ok, pure_eq_ok, Prod.mk.injEq] at hd
    obtain ⟨⟨locals, r₁⟩, he1, ⟨monitors, r₂⟩, he2, r3, he3, rfl, rfl⟩ := hd
    refine ⟨dstate.recipes, fun I hI hstart => ?_⟩
    have h1 := hI.evalAll hstart he1
    have h2 := hI.evalMonitors h1.inv he2
    have h3 := (h1.append h2).append (hI.fill h2.inv he3)
    exact ⟨r3, h3.inv, rfl, by simpa using h3.knows⟩

/-! ## What was there before -/

namespace Rebuild

variable {program : Program} {values : SideTable .inst Value} {recipes : List Recipe} {h : Heap}
  {r : Rebuild}

/-- The rebuilding that started in heap `h` has left the objects of `h` alone, up to their locks. -/
structure Over (h : Heap) (r : Rebuild) : Prop where
  wellFormed : r.heap.objects.WellFormed
  old : ∀ o obj, h.get? o = some obj →
    ∃ obj', r.heap.get? o = some obj' ∧ obj'.shape = obj.shape ∧ obj'.fields = obj.fields
  globals : r.heap.globals = h.globals
  built : ∀ (i : Nat) (o : ObjRef), r.built[i]? = some (some o) → h.get? o = none

namespace Over

theorem create (hr : Over h r) (shape : Shape) (idx : Nat) :
    Over h (r.create program shape idx) := by
  have hfresh : ∀ o obj, h.get? o = some obj → o ≠ (r.heap.alloc program shape).1 := by
    rintro o obj hobj rfl
    obtain ⟨obj', hobj', -⟩ := hr.old _ obj hobj
    rw [Heap.get?_alloc_fst hr.wellFormed] at hobj'
    cases hobj'
  refine ⟨Heap.wellFormed_alloc hr.wellFormed _ _, fun o obj hobj => ?_, hr.globals,
    fun i o hi => ?_⟩
  · obtain ⟨obj', hobj', hkept⟩ := hr.old o obj hobj
    refine ⟨obj', ?_, hkept⟩
    show (r.heap.alloc program shape).2.get? o = some obj'
    rw [Heap.get?_alloc hr.wellFormed, if_neg (hfresh o obj hobj), hobj']
  · rw [Rebuild.create, Array.getElem?_setIfInBounds] at hi
    split at hi
    · split at hi
      · cases hi
        exact Option.eq_none_iff_forall_ne_some.2 fun obj hobj => hfresh _ obj hobj rfl
      · cases hi
    · exact hr.built i o hi

theorem modify (hr : Over h r) (o : ObjRef) {f}
    (hf : ∀ obj, h.get? o = some obj → ∀ obj', (f obj').shape = obj'.shape ∧
      (f obj').fields = obj'.fields) : Over h { r with heap := r.heap.modify o f } := by
  refine ⟨Heap.wellFormed_modify hr.wellFormed o f, fun o' obj hobj => ?_, hr.globals, hr.built⟩
  obtain ⟨obj', hobj', hshape, hfields⟩ := hr.old o' obj hobj
  show ∃ obj', (r.heap.modify o f).get? o' = some obj' ∧ _
  rw [Heap.get?_modify]
  split
  · rename_i he
    subst he
    obtain ⟨h1, h2⟩ := hf obj hobj obj'
    exact ⟨f obj', by rw [hobj']; rfl, h1.trans hshape, h2.trans hfields⟩
  · exact ⟨obj', hobj', hshape, hfields⟩

theorem start (hwf : h.objects.WellFormed) (n : Nat) :
    Over h { heap := h, built := Array.replicate n none } :=
  ⟨hwf, fun o obj hobj => ⟨obj, hobj, rfl, rfl⟩, rfl, fun i o hi => by
    simp [Array.getElem?_replicate] at hi⟩

theorem stable : Stable program values recipes (Over h) where
  create _ idx recipe hr _ _ := hr.create recipe.shape idx
  lock _ o hr := hr.modify o fun _ _ _ => ⟨rfl, rfl⟩
  setField _ i o _ _ _ _ hr hb _ _ _ := hr.modify o fun obj hobj => by
    rw [hr.built i o hb] at hobj
    cases hobj
  pop _ _ hr := ⟨hr.wellFormed, hr.old, hr.globals, hr.built⟩

end Over

end Rebuild

theorem Body.deoptimize_old {h values} (hwf : h.objects.WellFormed)
    (hd : body.deoptimize program h values s = .ok (state, h')) :
    (∀ o obj, h.get? o = some obj →
      ∃ obj', h'.get? o = some obj' ∧ obj'.shape = obj.shape ∧ obj'.fields = obj.fields) ∧
      h'.globals = h.globals := by
  obtain ⟨recipes, hI⟩ := deoptimize_stable hd
  obtain ⟨r, hr, rfl, -⟩ := hI (Rebuild.Over h) Rebuild.Over.stable (.start hwf _)
  exact ⟨hr.old, hr.globals⟩

end EscapeAnalysis
