import EscapeAnalysis.Proofs.Records
import EscapeAnalysis.Scalar.Recipes

/-!
# Debug states without replaced allocations

A debug state that names replaced allocations gets one recipe for each of them, with a field for
each slot (`Committed.Describes`). Recipes that were there before are left as they are: a replaced
allocation that one of them names stays named (`Body.emit_describes`).
-/

namespace EscapeAnalysis

open List DebugValue

theorem Option.Rel.imp {α β : Type} {R R'} {o : Option α} {o' : Option β} (h : Option.Rel R o o')
    (hR : ∀ a b, R a b → R' a b) : Option.Rel R' o o' := by
  cases h with
  | some h => exact .some (hR _ _ h)
  | none => exact .none

namespace DebugValue

variable {v : DebugValue} {index : InstId → Option Nat} {x : InstId} {idx : Nat}

theorem toObjectsAll_eq_map (vs : List DebugValue) :
    toObjectsAll index vs = vs.map (toObjects index) := by
  induction vs with
  | nil => rfl
  | cons v vs ih => rw [toObjectsAll, ih, map_cons]

theorem mentionsAll_eq_flatMap (gone : InstId → Bool) (vs : List DebugValue) :
    mentionsAll gone vs = vs.flatMap (mentions gone) := by
  induction vs with
  | nil => rfl
  | cons v vs ih => rw [mentionsAll, ih, flatMap_cons]

theorem mem_mentions {gone} : x ∈ v.mentions gone ↔ .value x ∈ v.parts ∧ gone x = true := by
  induction v using induct with
  | value y =>
    by_cases hx : x = y
    · subst hx
      by_cases hgone : gone x = true <;> simp [mentions, parts, hgone]
    · by_cases hgone : gone y = true <;> simp [mentions, parts, hgone, hx]
  | const | object => simp [mentions, parts]
  | merge selector other candidates ih =>
    simp only [mentions, mentionsAll_eq_flatMap, mem_flatMap, mem_parts_merge, reduceCtorEq,
      false_or, ← exists_and_right, and_assoc]
    exact exists_congr fun c => and_congr_right fun hc => ih c hc

theorem value_mem_parts_toObjects :
    .value x ∈ (v.toObjects index).parts ↔ .value x ∈ v.parts ∧ index x = none := by
  induction v using induct with
  | value y => rcases hy : index y with _ | i <;> simp +contextual [toObjects, parts, hy]
  | const | object => simp [toObjects, parts]
  | merge selector other candidates ih =>
    simp only [toObjects, toObjectsAll_eq_map, mem_parts_merge, reduceCtorEq, false_or,
      mem_map, exists_exists_and_eq_and]
    simp only [← exists_and_right, and_assoc]
    exact exists_congr fun c => and_congr_right fun hc => ih c hc

theorem object_mem_parts_toObjects (h : .object idx ∈ (v.toObjects index).parts) :
    .object idx ∈ v.parts ∨ ∃ x, index x = some idx := by
  induction v using induct with
  | value y =>
    rw [toObjects] at h
    split at h
    · rename_i i hi
      cases mem_singleton.1 h
      exact .inr ⟨y, hi⟩
    · cases mem_singleton.1 h
  | const | object => exact .inl h
  | merge selector other candidates ih =>
    simp only [toObjects, toObjectsAll_eq_map, mem_parts_merge, reduceCtorEq, false_or,
      mem_map, exists_exists_and_eq_and] at h ⊢
    obtain ⟨c, hc, h⟩ := h
    exact (ih c hc h).imp (fun h => ⟨c, hc, h⟩) id

theorem Direct.not_object_mem_parts (h : v.Direct) : .object idx ∉ v.parts := by
  cases v with
  | value | const => simp [parts]
  | object | merge => exact h.elim

theorem object_mem_parts_mapInsts {r} :
    .object idx ∈ (v.mapInsts r).parts ↔ .object idx ∈ v.parts := by
  induction v using induct with
  | value | const | object => simp [mapInsts, parts]
  | merge selector other candidates ih =>
    simp only [mapInsts, mapInstsAll_eq_map, mem_parts_merge, reduceCtorEq, false_or,
      mem_map, exists_exists_and_eq_and]
    exact exists_congr fun c => and_congr_right fun hc => ih c hc

end DebugValue

namespace DebugState

variable {s : DebugState}

theorem mem_parts_iff {w} :
    w ∈ s.parts ↔ (∃ v ∈ s.locals ++ s.monitors.map MonitorSlot.obj, w ∈ v.parts) ∨
      ∃ recipe ∈ s.recipes, ∃ v ∈ recipe.fields, w ∈ v.parts := by
  rw [parts, debugValues, flatMap_append, flatMap_assoc, mem_append]
  simp only [mem_flatMap]

theorem debugValues_mapInsts (r : InstId → InstId) :
    (s.mapInsts r).debugValues = s.debugValues.map (DebugValue.mapInsts r) := by
  simp [debugValues, mapInsts, mapTop, Function.comp_def, flatMap_map, map_flatMap]

theorem Closed.mapInsts (h : s.Closed) (r : InstId → InstId) : (s.mapInsts r).Closed := by
  intro idx hpart
  obtain ⟨v, hv, hpart⟩ := mem_flatMap.1 hpart
  rw [debugValues_mapInsts] at hv
  obtain ⟨u, hu, rfl⟩ := mem_map.1 hv
  have hmem := object_mem_parts_mapInsts.1 hpart
  have hlt := h idx (mem_flatMap.2 ⟨u, hu, hmem⟩)
  rwa [DebugState.mapInsts, length_map]

end DebugState

namespace Committed

variable {p : Program} {body body' : Body} {c : Committed} {sp : SafepointId} {s s' : DebugState}
  {x y : InstId} {v : DebugValue} {fields : List DebugValue}

/-! ## Which allocations get recipes -/

theorem nodup_described (c : Committed) (sp : SafepointId) (s : DebugState) :
    (c.described sp s).Nodup :=
  nodup_flood _ _ _ _ _ (nodup_eraseDups _) fun _ h => h

theorem mem_described_of_root (hx : c.isGone x = true)
    (hv : v ∈ s.locals ++ s.monitors.map MonitorSlot.obj) (hpart : .value x ∈ v.parts) :
    x ∈ c.described sp s := by
  refine (mem_flood ..).1 x (mem_eraseDups.2 (mem_flatMap.2 ⟨v, hv, ?_⟩))
  exact mem_mentions.2 ⟨hpart, hx⟩

theorem isGone_of_mem_described (hx : x ∈ c.described sp s) : c.isGone x = true := by
  refine flood_induction _ (P := fun x => c.isGone x = true) (fun y x _ h _ => ?_) _ _
    (fun x h => ?_) x hx
  · obtain ⟨v, -, h⟩ := mem_flatMap.1 h
    exact (mem_mentions.1 h).2
  · obtain ⟨v, -, h⟩ := mem_flatMap.1 (mem_eraseDups.1 h)
    exact (mem_mentions.1 h).2

def indexAt (c : Committed) (sp : SafepointId) (s : DebugState) (x : InstId) : Option Nat :=
  ((c.described sp s).idxOf? x).map (s.recipes.length + ·)

theorem indexAt_eq_some {i} : c.indexAt sp s x = some i ↔
    ∃ k, (c.described sp s)[k]? = some x ∧ i = s.recipes.length + k := by
  simp only [indexAt, Option.map_eq_some_iff, List.idxOf?_eq_some_iff, eq_comm (a := i)]
  refine exists_congr fun k => and_congr_left fun _ => ⟨?_, fun h => ?_⟩
  · rintro ⟨hk, rfl, -⟩
    exact List.getElem?_eq_getElem hk
  · obtain ⟨hk, rfl⟩ := List.getElem?_eq_some_iff.1 h
    refine ⟨hk, rfl, fun j hj he => ?_⟩
    exact Nat.ne_of_lt hj ((getElem_inj (nodup_described c sp s)).1 he)

theorem indexAt_eq_none : c.indexAt sp s x = none ↔ x ∉ c.described sp s := by
  rw [indexAt, Option.map_eq_none_iff, List.idxOf?_eq_none_iff]

theorem describe_eq_ok : c.describe sp s = .ok s' ↔ ∃ added,
    (c.described sp s).mapM (c.recipe sp (c.indexAt sp s)) = .ok added ∧
      s' = { s with
        locals := s.locals.map (toObjects (c.indexAt sp s))
        monitors := s.monitors.map (MonitorSlot.toObjects (c.indexAt sp s))
        recipes := s.recipes ++ added } := by
  simp only [describe, Except.bind_eq_ok, Except.pure_eq_ok, eq_comm (a := s')]
  rfl

section

variable (hc : c.OfBody p body)
include hc

theorem mem_eliminated_iff : x ∈ c.eliminated ↔ c.isGone x = true := by
  simp only [eliminated, isGone, mem_map, Option.isSome_iff_exists]
  constructor
  · rintro ⟨o, ho, rfl⟩
    exact hc.layout.known o ho
  · rintro ⟨o, ho⟩
    exact ⟨o, hc.layout.found x o ho⟩

theorem mem_described_of_field (hx : c.isGone x = true)
    (hy : y ∈ c.described sp s) (hfields : c.fieldsAt? sp y = some fields) (hv : v ∈ fields)
    (hpart : .value x ∈ v.parts) : x ∈ c.described sp s := by
  have hnext : x ∈ ((c.fieldsAt? sp y).getD []).flatMap (DebugValue.mentions c.isGone) := by
    rw [hfields]
    exact mem_flatMap.2 ⟨v, hv, mem_mentions.2 ⟨hpart, hx⟩⟩
  rcases (mem_flood ..).2 y hy x hnext ((mem_eliminated_iff hc).2 hx) with h | h
  · exact (mem_flood ..).1 x h
  · exact h

theorem recipe_eq_ok (hx : c.isGone x = true) {index recipe}
    (h : c.recipe sp index x = .ok recipe) :
    ∃ o ∈ c.layout.objects, ∃ fields, o.inst = x ∧ c.fieldsAt? sp x = some fields ∧
      recipe = ⟨o.shape, fields.map (toObjects index)⟩ := by
  obtain ⟨o, ho⟩ := Option.isSome_iff_exists.1 hx
  obtain ⟨hmem, hinst⟩ := hc.layout.found x o ho
  rw [Committed.recipe] at h
  split at h
  · rename_i fields hfields
    cases h
    exact ⟨o, hmem, fields, hinst, hfields, by rw [ho]; rfl⟩
  · cases h

/-- What is recorded of an object has a value for each of its slots, and none names a recipe. -/
theorem fieldsAt?_eq_some {o} (ho : o ∈ c.layout.objects)
    (h : c.fieldsAt? sp o.inst = some fields) :
    fields.length = (o.shape.slots p).length ∧ ∀ v ∈ fields, v.Direct := by
  obtain ⟨l, hl, hlookup⟩ := Option.bind_eq_some_iff.1 h
  have hmem : (o.inst, fields) ∈ l := by
    obtain ⟨l1, l2, rfl, -⟩ := lookup_eq_some_iff.1 hlookup
    exact mem_append_right _ (.head _)
  obtain ⟨o', ho', hinst, hlen⟩ := hc.records sp l hl _ hmem
  refine ⟨?_, hc.direct sp l hl _ hmem⟩
  rw [hlen, hc.layout.slots o' ho', hc.layout.shape_unique ho' ho hinst]

theorem getElem?_added {added}
    (hadded : (c.described sp s).mapM (c.recipe sp (c.indexAt sp s)) = .ok added) {k : Nat} :
    (∀ x, (c.described sp s)[k]? = some x → ∃ recipe, added[k]? = some recipe) ∧
    ∀ recipe, added[k]? = some recipe → ∃ o ∈ c.layout.objects, ∃ fields,
      (c.described sp s)[k]? = some o.inst ∧ c.fieldsAt? sp o.inst = some fields ∧
      recipe = ⟨o.shape, fields.map (toObjects (c.indexAt sp s))⟩ := by
  have hat := congrArg (·[k]?) (Except.mapM_eq_ok.1 hadded)
  simp only [List.getElem?_map] at hat
  refine ⟨fun x hx => ?_, fun recipe hrecipe => ?_⟩
  · rw [hx, Option.map_some] at hat
    obtain ⟨recipe, hrecipe, -⟩ := Option.map_eq_some_iff.1 hat.symm
    exact ⟨recipe, hrecipe⟩
  · rw [hrecipe, Option.map_some] at hat
    obtain ⟨x, hx, hok⟩ := Option.map_eq_some_iff.1 hat
    obtain ⟨o, ho, fields, rfl, hfields, rfl⟩ :=
      recipe_eq_ok hc (isGone_of_mem_described (mem_of_getElem? hx)) hok
    exact ⟨o, ho, fields, hx, hfields, rfl⟩

end

theorem not_mem_parts_toObjects (h : .value x ∈ v.parts → x ∈ c.described sp s) :
    .value x ∉ (v.toObjects (c.indexAt sp s)).parts := by
  intro hpart
  obtain ⟨hmem, hnone⟩ := value_mem_parts_toObjects.1 hpart
  exact indexAt_eq_none.1 hnone (h hmem)

section

variable (hc : c.OfBody p body) (h : c.describe sp s = .ok s')
include hc h

/-- The debug values of the new state: those of locals and monitors, converted, those of the recipes
that were there, and what was recorded of the allocations that get recipes, converted. -/
theorem mem_parts_describe {w : DebugValue} (hw : w ∈ s'.parts) :
    (∃ v ∈ s.locals ++ s.monitors.map MonitorSlot.obj,
      w ∈ (v.toObjects (c.indexAt sp s)).parts) ∨
    (∃ recipe ∈ s.recipes, ∃ v ∈ recipe.fields, w ∈ v.parts) ∨
    ∃ o ∈ c.layout.objects, o.inst ∈ c.described sp s ∧ ∃ fields,
      c.fieldsAt? sp o.inst = some fields ∧ ∃ v ∈ fields,
      w ∈ (v.toObjects (c.indexAt sp s)).parts := by
  obtain ⟨added, hadded, rfl⟩ := describe_eq_ok.1 h
  rcases DebugState.mem_parts_iff.1 hw with ⟨v, hv, hw⟩ | ⟨recipe, hrecipe, v, hv, hw⟩
  · have htop : v ∈ (s.locals ++ s.monitors.map MonitorSlot.obj).map
        (toObjects (c.indexAt sp s)) := by
      simpa [MonitorSlot.toObjects, Function.comp_def] using hv
    obtain ⟨u, hu, rfl⟩ := mem_map.1 htop
    exact .inl ⟨u, hu, hw⟩
  · rcases mem_append.1 hrecipe with hrecipe | hrecipe
    · exact .inr (.inl ⟨recipe, hrecipe, v, hv, hw⟩)
    · obtain ⟨k, hk⟩ := mem_iff_getElem?.1 hrecipe
      obtain ⟨o, ho, fields, hat, hfields, rfl⟩ := (getElem?_added hc hadded).2 recipe hk
      obtain ⟨u, hu, rfl⟩ := mem_map.1 hv
      exact .inr (.inr ⟨o, ho, mem_of_getElem? hat, fields, hfields, u, hu, hw⟩)

theorem value_mem_parts_describe (hx : x ∈ c.eliminated) : .value x ∈ s'.parts ↔
      ∃ recipe ∈ s.recipes, ∃ v ∈ recipe.fields, .value x ∈ v.parts := by
  have hgone := (mem_eliminated_iff hc).1 hx
  constructor
  · intro hpart
    rcases mem_parts_describe hc h hpart with ⟨v, hv, hw⟩ | hold | ⟨o, -, ho, fields, hf, v, hv, hw⟩
    · exact absurd hw (not_mem_parts_toObjects fun hmem => mem_described_of_root hgone hv hmem)
    · exact hold
    · exact absurd hw (not_mem_parts_toObjects fun hmem =>
        mem_described_of_field hc hgone ho hf hv hmem)
  · rintro ⟨recipe, hrecipe, v, hv, hmem⟩
    obtain ⟨added, -, rfl⟩ := describe_eq_ok.1 h
    exact DebugState.mem_parts_iff.2
      (.inr ⟨recipe, mem_append_left _ hrecipe, v, hv, hmem⟩)

theorem indexAt_iff (i : Nat) :
    (∃ x, c.indexAt sp s x = some i) ↔ s.recipes.length ≤ i ∧ i < s'.recipes.length := by
  obtain ⟨added, hadded, rfl⟩ := describe_eq_ok.1 h
  rw [length_append]
  constructor
  · rintro ⟨x, hi⟩
    obtain ⟨k, hk, rfl⟩ := indexAt_eq_some.1 hi
    obtain ⟨recipe, hrecipe⟩ := (getElem?_added hc hadded).1 x hk
    have hlt := (List.getElem?_eq_some_iff.1 hrecipe).1
    omega
  · rintro ⟨hle, hlt⟩
    have hk : i - s.recipes.length < added.length := by omega
    obtain ⟨o, -, -, hat, -⟩ := (getElem?_added hc hadded).2 _ (List.getElem?_eq_getElem hk)
    exact ⟨o.inst, indexAt_eq_some.2 ⟨_, hat, by omega⟩⟩

theorem closed_describe (hs : s.Closed) : s'.Closed := by
  intro idx hpart
  have hold : .object idx ∈ s.parts → idx < s'.recipes.length := by
    intro hmem
    have hlt := hs idx hmem
    obtain ⟨added, -, rfl⟩ := describe_eq_ok.1 h
    rw [length_append]
    omega
  have hnew : ∀ x, c.indexAt sp s x = some idx → idx < s'.recipes.length :=
    fun x hx => ((indexAt_iff hc h idx).1 ⟨x, hx⟩).2
  rcases mem_parts_describe hc h hpart with
    ⟨v, hv, hw⟩ | hrecipes | ⟨o, ho, -, fields, hfields, v, hv, hw⟩
  · rcases object_mem_parts_toObjects hw with hw | ⟨x, hx⟩
    · exact hold (DebugState.mem_parts_iff.2 (.inl ⟨v, hv, hw⟩))
    · exact hnew x hx
  · exact hold (DebugState.mem_parts_iff.2 (.inr hrecipes))
  · rcases object_mem_parts_toObjects hw with hw | ⟨x, hx⟩
    · exact absurd hw ((fieldsAt?_eq_some hc ho hfields).2 v hv).not_object_mem_parts
    · exact hnew x hx

end

/-- `s'` is `s` with recipes for replaced allocations, of which `index` has the numbers. -/
structure Describes (p : Program) (c : Committed) (sp : SafepointId) (s s' : DebugState)
    (index : InstId → Option Nat) (added : List Recipe) : Prop where
  locals : s'.locals = s.locals.map (toObjects index)
  monitors : s'.monitors = s.monitors.map (MonitorSlot.toObjects index)
  recipes : s'.recipes = s.recipes ++ added
  numbers : ∀ i, (∃ x, index x = some i) ↔ s.recipes.length ≤ i ∧ i < s'.recipes.length
  distinct : ∀ x y i, index x = some i → index y = some i → x = y
  recipe : ∀ x i, index x = some i → ∃ o ∈ c.layout.objects, ∃ fields, o.inst = x ∧
    c.fieldsAt? sp x = some fields ∧
    s'.recipes[i]? = some ⟨o.shape, fields.map (toObjects index)⟩
  sized : ∀ recipe ∈ added, recipe.fields.length = (recipe.shape.slots p).length
  left : ∀ x ∈ c.eliminated, .value x ∈ s'.parts ↔
    ∃ recipe ∈ s.recipes, ∃ v ∈ recipe.fields, .value x ∈ v.parts

theorem describes_of_describe (hc : c.OfBody p body) (h : c.describe sp s = .ok s') :
    ∃ index added, c.Describes p sp s s' index added := by
  obtain ⟨added, hadded, hs'⟩ := describe_eq_ok.1 h
  have hrecipes : s'.recipes = s.recipes ++ added := by rw [hs']
  refine ⟨c.indexAt sp s, added,
    { locals := by rw [hs']
      monitors := by rw [hs']
      recipes := hrecipes
      numbers := indexAt_iff hc h
      distinct := ?distinct, recipe := ?recipe, sized := ?sized
      left := fun x hx => value_mem_parts_describe hc h hx }⟩
  case distinct =>
    intro x y i hx hy
    obtain ⟨k, hk, rfl⟩ := indexAt_eq_some.1 hx
    obtain ⟨k', hk', he⟩ := indexAt_eq_some.1 hy
    rw [Nat.add_left_cancel he] at hk
    exact Option.mem_unique hk hk'
  case recipe =>
    intro x i hi
    obtain ⟨k, hk, rfl⟩ := indexAt_eq_some.1 hi
    obtain ⟨recipe, hrecipe⟩ := (getElem?_added hc hadded).1 x hk
    obtain ⟨o, ho, fields, hat, hfields, rfl⟩ := (getElem?_added hc hadded).2 recipe hrecipe
    cases Option.mem_unique hk hat
    refine ⟨o, ho, fields, rfl, hfields, ?_⟩
    rw [hrecipes, List.getElem?_append_right (Nat.le_add_right ..), Nat.add_sub_cancel_left,
      hrecipe]
  case sized =>
    intro recipe hrecipe
    obtain ⟨k, hk⟩ := mem_iff_getElem?.1 hrecipe
    obtain ⟨o, ho, fields, hat, hfields, rfl⟩ := (getElem?_added hc hadded).2 recipe hk
    rw [length_map]
    exact (fieldsAt?_eq_some hc ho hfields).1

/-- Some states have been described; the others are as they were, and come later in the list. -/
def Describing (c : Committed) (rest : List (SafepointId × DebugState)) (body' : Body) : Prop :=
  (∀ e ∈ rest, c.body.states.get? e.1 = some e.2) ∧ ∀ sp, Option.Rel
    (fun s s' => c.describe sp s = .ok s' ∨ s' = s ∧ (sp, s) ∈ rest)
    (c.body.states.get? sp) (body'.states.get? sp)

theorem Describing.step {e} {rest : List (SafepointId × DebugState)}
    (h : c.Describing (e :: rest) body') (he : c.describe e.1 e.2 = .ok s') :
    c.Describing rest (body'.modifyState e.1 fun _ => s') := by
  refine ⟨fun e' he' => h.1 e' (.tail _ he'), fun sp => ?_⟩
  have hrel := h.2 sp
  rw [Body.modifyState, SlotTable.get?_modify]
  split
  · rename_i hsp
    subst hsp
    rw [h.1 e (.head _)] at hrel ⊢
    generalize body'.states.get? e.1 = o' at hrel ⊢
    cases hrel with
    | some _ => exact .some (.inl he)
  · rename_i hne
    refine Option.Rel.imp hrel fun s s' hs => hs.imp_right fun hs => ⟨hs.1, ?_⟩
    rcases mem_cons.1 hs.2 with hmem | hmem
    · exact absurd (congrArg Prod.fst hmem) hne
    · exact hmem

theorem describe_of_emit (h : c.emit = .ok body') (sp : SafepointId) :
    Option.Rel (fun s s' => c.describe sp s = .ok s') (c.body.states.get? sp)
      (body'.states.get? sp) := by
  have hmeets : Except.Answers (c.Describing []) c.emit := by
    refine Except.Meets.foldlM (I := c.Describing) (fun e rest b hb => ?_) _ _
      ⟨fun e he => SlotTable.mem_toList_iff.1 he, fun sp => ?_⟩
    · exact (Except.Meets.self _).bind fun s' he => hb.step he
    · cases hs : c.body.states.get? sp with
      | some s => exact .some (.inr ⟨rfl, SlotTable.mem_toList_iff.2 hs⟩)
      | none => exact .none
  rw [h] at hmeets
  exact Option.Rel.imp (hmeets.2 sp) fun s s' hs => hs.resolve_right fun hs => by cases hs.2

end Committed

/-- Carrying out a plan renames instructions in the debug states. Replaced allocations are then
named by recipes, except in recipes that were there before. -/
theorem Body.emit_describes {p : Program} {body body' : Body} {settings settings' : Settings}
    {g : Graph} {changed : Bool} {r : Retention} {plan : Plan} {c : Committed}
    {b₀ b₁ b₂ b₃ : Budget} (hwf : body.WellFormed)
    (hgraph : Metered.Yields ((Graph.ofBody p body settings).propagate settings') b₀ (g, changed)
      b₁)
    (hr : ∀ n ∈ r.replaced, n < g.allocs.size)
    (hplan : Metered.Yields (body.plan p g r) b₂ (.ready plan) b₃)
    (hcommit : plan.commit body = .ok c) (hemit : c.emit = .ok body') :
    ∃ ren, c.body.states = body.states.map (DebugState.mapInsts ren) ∧ ∀ sp, Option.Rel
      (fun s s' => (∃ index added, c.Describes p sp (s.mapInsts ren) s' index added) ∧
        (s.Closed → s'.Closed))
      (body.states.get? sp) (body'.states.get? sp) := by
  have hc := Body.recorded hwf hgraph hr hplan hcommit
  obtain ⟨ren, hstates⟩ := hc.states
  refine ⟨ren, hstates, fun sp => ?_⟩
  have hrel := Committed.describe_of_emit hemit sp
  rw [hstates, SlotTable.get?_map] at hrel
  generalize body.states.get? sp = o, body'.states.get? sp = o' at hrel ⊢
  cases o with
  | none =>
    cases hrel
    exact .none
  | some s =>
    cases hrel with
    | some hs =>
      exact .some ⟨Committed.describes_of_describe hc hs,
        fun hclosed => Committed.closed_describe hc hs (hclosed.mapInsts ren)⟩

/-- Nodes that lead to a node. -/
def linkedNodes : Program where
  classes := .ofEntries [{ name := "Node", parent := none, layout := [⟨0, 1⟩], flags := {} }]
  fields := .ofEntries [{ name := "next", ty := .ref, holder := ⟨0, 1⟩ }]

/-- Leaves compiled code with a node, and with a recipe for another node that leads to it. -/
def leaveWithNode : Body where
  blocks := .ofEntries [{ insts := [⟨0, 1⟩], term := .deopt ⟨0, 1⟩ }]
  insts := .ofEntries [⟨.new ⟨0, 1⟩, some .ref⟩]
  states := .ofEntries
    [{ locals := [.object 0, .value ⟨0, 1⟩]
       recipes := [⟨.inst ⟨0, 1⟩, [.value ⟨0, 1⟩]⟩] }]
  entry := ⟨0, 1⟩
  params := []
  ret := none

theorem exists_emit_leaveWithNode : ∃ g changed b1 plan b3 c body' s',
    Metered.Yields ((Graph.ofBody linkedNodes leaveWithNode {}).propagate {}) { limit := 100 }
      (g, changed) b1 ∧
    Metered.Yields (leaveWithNode.plan linkedNodes g (.none g.allocs.size)) { limit := 100 }
      (.ready plan) b3 ∧
    plan.commit leaveWithNode = .ok c ∧ c.emit = .ok body' ∧ c.eliminated = [⟨0, 1⟩] ∧
    body'.states.get? ⟨0, 1⟩ = some s' ∧ s'.recipes.length = 2 ∧ .value ⟨0, 1⟩ ∈ s'.parts := by
  obtain ⟨⟨g, changed⟩, b1, hgraph, h⟩ := Metered.exists_yields
    (x := (Graph.ofBody linkedNodes leaveWithNode {}).propagate {}) (b := { limit := 100 })
    (P := fun r => (Metered.result? (leaveWithNode.plan linkedNodes r.1 (.none r.1.allocs.size))
      { limit := 100 }).any fun planned => match planned with
        | .retry _ => false
        | .ready plan => (plan.commit leaveWithNode).toOption.any fun c =>
          c.eliminated = [⟨0, 1⟩] ∧ c.emit.toOption.any fun body' =>
          (body'.states.get? ⟨0, 1⟩).any fun s' => s'.recipes.length = 2 ∧
            ⟨0, 1⟩ ∈ s'.debugValues.flatMap (DebugValue.mentions fun _ => true))
    (by decide +kernel)
  obtain ⟨planned, b3, hplan, h⟩ := Metered.exists_yields h
  cases planned with
  | retry failures => cases h
  | ready plan =>
    obtain ⟨c, hcommit, h⟩ := Except.exists_ok_of_any h
    obtain ⟨heliminated, h⟩ := of_decide_eq_true h
    obtain ⟨body', hemit, h⟩ := Except.exists_ok_of_any h
    obtain ⟨s', hs', h⟩ := (Option.any_eq_true ..).1 h
    obtain ⟨hlen, h⟩ := of_decide_eq_true h
    obtain ⟨v, hv, hmem⟩ := mem_flatMap.1 h
    exact ⟨g, changed, b1, plan, b3, c, body', s', hgraph, hplan, hcommit, hemit, heliminated, hs',
      hlen, mem_flatMap.2 ⟨v, hv, (mem_mentions.1 hmem).1⟩⟩

/-- The node gets a recipe. -/
theorem Body.emit_describes_leaveWithNode : ∃ (c : Committed) (body' : Body),
    c.emit = .ok body' ∧ c.eliminated = [⟨0, 1⟩] ∧
    ∃ ren, c.body.states = leaveWithNode.states.map (DebugState.mapInsts ren) ∧ ∀ sp, Option.Rel
      (fun s s' => (∃ index added, c.Describes linkedNodes sp (s.mapInsts ren) s' index added) ∧
        (s.Closed → s'.Closed))
      (leaveWithNode.states.get? sp) (body'.states.get? sp) := by
  obtain ⟨g, changed, b₁, plan, b₃, c, body', s', hgraph, hplan, hcommit, hemit, heliminated, -⟩ :=
    exists_emit_leaveWithNode
  have hr : ∀ n ∈ (Retention.none g.allocs.size).replaced, n < g.allocs.size := by
    simp +contextual [Retention.replaced, Retention.none]
  exact ⟨c, body', hemit, heliminated, Body.emit_describes (.ofEntries rfl) hgraph hr hplan hcommit
    hemit⟩

/-- But the recipe that was there still names it. -/
theorem emit_leaveWithNode_names : ∃ g changed b₁ plan b₃ c body' s',
    Metered.Yields ((Graph.ofBody linkedNodes leaveWithNode {}).propagate {}) { limit := 100 }
      (g, changed) b₁ ∧
    Metered.Yields (leaveWithNode.plan linkedNodes g (.none g.allocs.size)) { limit := 100 }
      (.ready plan) b₃ ∧
    plan.commit leaveWithNode = .ok c ∧ c.emit = .ok body' ∧
    body'.states.get? ⟨0, 1⟩ = some s' ∧ ∃ x ∈ c.eliminated, .value x ∈ s'.parts := by
  obtain ⟨g, changed, b₁, plan, b₃, c, body', s', hgraph, hplan, hcommit, hemit, heliminated, hs',
    -, hmem⟩ := exists_emit_leaveWithNode
  exact ⟨g, changed, b₁, plan, b₃, c, body', s', hgraph, hplan, hcommit, hemit, hs', ⟨0, 1⟩,
    heliminated ▸ mem_singleton_self _, hmem⟩

end EscapeAnalysis
