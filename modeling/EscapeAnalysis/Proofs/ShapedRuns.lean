import EscapeAnalysis.Proofs.PointsTo

/-!
# Well-shaped heaps

An object has one slot for each slot of its shape, and a slot holds a value that fits its type.
Creating objects, writing fitting values and leaving compiled code keep a heap well shaped, and
objects never change their shapes.

An operation that runs in a well-shaped heap, on references that designate objects, finds every
object and slot it asks for (`Machine.Safe.eval`). So every state of a run that starts in a
well-shaped heap has one, if its host keeps heaps well shaped (`Machine.wellShaped_run`).
-/

namespace EscapeAnalysis

open List Heap

theorem Value.narrow_narrow (v : Value) (t : Ty) : (v.narrow t).narrow t = v.narrow t := by
  cases v <;> cases t <;> simp [narrow, toLong?]

theorem Value.narrow_default (t : Ty) : t.default.toValue.narrow t = t.default.toValue := by
  cases t <;> rfl

namespace Heap

variable {h h' h'' : Heap} {p : Program} {o : ObjRef} {obj : Object} {v : Value} {t : Ty}
  {shape : Shape}

/-- The objects of `h` are there in `h'`, with the shapes they had. -/
def Keeps (h h' : Heap) : Prop :=
  ∀ o obj, h.get? o = some obj → ∃ obj', h'.get? o = some obj' ∧ obj'.shape = obj.shape

theorem Keeps.refl (h : Heap) : h.Keeps h := fun _ obj hobj => ⟨obj, hobj, rfl⟩

theorem Keeps.trans (hk : h.Keeps h') (hk' : h'.Keeps h'') : h.Keeps h'' := by
  intro o obj hobj
  obtain ⟨obj', hobj', hshape'⟩ := hk o obj hobj
  obtain ⟨obj'', hobj'', hshape''⟩ := hk' o obj' hobj'
  exact ⟨obj'', hobj'', hshape''.trans hshape'⟩

theorem Keeps.live (hk : h.Keeps h') (ho : h.Live o) : h'.Live o := by
  obtain ⟨obj, hobj⟩ := ho
  obtain ⟨obj', hobj', -⟩ := hk o obj hobj
  exact ⟨obj', hobj'⟩

/-- The value can stand in a slot of type `t`: a reference designates an object, and a number is
not changed by storing it. -/
structure Fits (h : Heap) (v : Value) (t : Ty) : Prop where
  live : ∀ o, v = .ref o → h.Live o
  narrow : v.narrow t = v

theorem Fits.mono (hv : h.Fits v t) (hk : h.Keeps h') : h'.Fits v t :=
  ⟨fun o ho => hk.live (hv.live o ho), hv.narrow⟩

theorem fits_default (h : Heap) (t : Ty) : h.Fits t.default.toValue t :=
  ⟨fun o => by cases t <;> simp [Ty.default, Const.toValue], Value.narrow_default t⟩

theorem fits_narrow (hv : ∀ o, v = .ref o → h.Live o) (t : Ty) : h.Fits (v.narrow t) t :=
  ⟨fun o ho => hv o (Value.narrow_eq_ref.1 ho), Value.narrow_narrow v t⟩

/-- Every object has the slots of its shape, and what slots and globals hold fits their types. -/
structure WellShaped (h : Heap) (p : Program) : Prop where
  wellFormed : h.objects.WellFormed
  size : ∀ o obj, h.get? o = some obj → obj.fields.size = (obj.shape.slots p).length
  slots : ∀ o obj (i : Nat) t v, h.get? o = some obj → (obj.shape.slots p)[i]? = some t →
    obj.fields[i]? = some v → h.Fits v t
  globals : ∀ g, h.Fits (h.global p g) (p.globalTy g)

theorem wellShaped_empty (p : Program) : ({} : Heap).WellShaped p where
  wellFormed := .empty
  size o obj ho := by simp [get?, SlotTable.get?] at ho
  slots o obj i t v ho := by simp [get?, SlotTable.get?] at ho
  globals g := fits_default _ _

namespace WellShaped

variable (hw : h.WellShaped p)
include hw

theorem congr (hobjects : h'.objects = h.objects)
    (hglobals : h'.globals = h.globals) : h'.WellShaped p := by
  have hget : ∀ o, h'.get? o = h.get? o := fun o => by rw [get?, hobjects, get?]
  have hk : h.Keeps h' := fun o obj hobj => ⟨obj, (hget o).trans hobj, rfl⟩
  refine ⟨hobjects ▸ hw.wellFormed, fun o obj ho => hw.size o obj (hget o ▸ ho),
    fun o obj i t v ho ht hv => (hw.slots o obj i t v (hget o ▸ ho) ht hv).mono hk, fun g => ?_⟩
  have hg : h'.global p g = h.global p g := by rw [global, hglobals, global]
  exact hg ▸ (hw.globals g).mono hk

theorem slot (ho : h.get? o = some obj) {i : Nat}
    (hv : obj.fields[i]? = some v) : ∃ t, (obj.shape.slots p)[i]? = some t ∧ h.Fits v t := by
  have hi : i < (obj.shape.slots p).length := by
    rw [← hw.size o obj ho]
    exact (Array.getElem?_eq_some_iff.1 hv).1
  exact ⟨_, List.getElem?_eq_getElem hi, hw.slots o obj i _ v ho (List.getElem?_eq_getElem hi) hv⟩

theorem live_of_field (ho : h.get? o = some obj) {i : Nat} {o'}
    (hv : obj.fields[i]? = some (.ref o')) : h.Live o' := by
  obtain ⟨t, -, hfits⟩ := hw.slot ho hv
  exact hfits.live o' rfl

theorem keeps_alloc (shape : Shape) : h.Keeps (h.alloc p shape).2 := by
  intro o obj hobj
  refine ⟨obj, ?_, rfl⟩
  rw [get?_alloc hw.wellFormed, if_neg, hobj]
  rintro rfl
  rw [get?_alloc_fst hw.wellFormed] at hobj
  cases hobj

theorem get?_alloc_self (shape : Shape) :
    (h.alloc p shape).2.get? (h.alloc p shape).1 =
      some { shape, fields := freshFields p shape } := by
  rw [get?_alloc hw.wellFormed, if_pos rfl]

theorem alloc (shape : Shape) : (h.alloc p shape).2.WellShaped p where
  wellFormed := wellFormed_alloc hw.wellFormed p shape
  size o obj ho := by
    rw [get?_alloc hw.wellFormed] at ho
    split at ho
    · cases ho
      simp [freshFields]
    · exact hw.size o obj ho
  slots o obj i t v ho ht hv := by
    rw [get?_alloc hw.wellFormed] at ho
    split at ho
    · cases ho
      obtain rfl : t.default.toValue = v := by simpa [freshFields, ht] using hv
      exact fits_default _ t
    · exact (hw.slots o obj i t v ho ht hv).mono (hw.keeps_alloc shape)
  globals g := (hw.globals g).mono (hw.keeps_alloc shape)

end WellShaped

theorem keeps_modify {f} (hf : ∀ obj, (f obj).shape = obj.shape) : h.Keeps (h.modify o f) := by
  intro o' obj hobj
  rw [get?_modify, hobj]
  split
  · exact ⟨f obj, rfl, hf obj⟩
  · exact ⟨obj, rfl, rfl⟩

theorem WellShaped.modify (hw : h.WellShaped p) {f} (hshape : ∀ obj, (f obj).shape = obj.shape)
    (hfields : ∀ obj, h.get? o = some obj → (f obj).fields.size = obj.fields.size ∧
      ∀ (i : Nat) t v, (obj.shape.slots p)[i]? = some t → (f obj).fields[i]? = some v →
        h.Fits v t) : (h.modify o f).WellShaped p := by
  have hk : h.Keeps (h.modify o f) := keeps_modify hshape
  -- an object after the change is one from before, or the changed one
  have cases : ∀ {o' obj'}, (h.modify o f).get? o' = some obj' → h.get? o' = some obj' ∨
      ∃ obj, h.get? o = some obj ∧ obj' = f obj := by
    intro o' obj' ho'
    rw [get?_modify] at ho'
    split at ho'
    · rename_i he
      subst he
      obtain ⟨obj, hobj, rfl⟩ := Option.map_eq_some_iff.1 ho'
      exact .inr ⟨obj, hobj, rfl⟩
    · exact .inl ho'
  refine ⟨wellFormed_modify hw.wellFormed o f, fun o' obj' ho' => ?_,
    fun o' obj' i t v ho' ht hv => ?_, fun g => (hw.globals g).mono hk⟩
  · rcases cases ho' with ho' | ⟨obj, hobj, rfl⟩
    · exact hw.size o' obj' ho'
    · rw [hshape, (hfields obj hobj).1]
      exact hw.size o obj hobj
  · rcases cases ho' with ho' | ⟨obj, hobj, rfl⟩
    · exact (hw.slots o' obj' i t v ho' ht hv).mono hk
    · rw [hshape] at ht
      exact ((hfields obj hobj).2 i t v ht hv).mono hk

theorem WellShaped.write (hw : h.WellShaped p) {first vs}
    (hvs : ∀ obj, h.get? o = some obj → ∀ (k : Nat) t v, vs[k]? = some v →
      (obj.shape.slots p)[first + k]? = some t → h.Fits v t) :
    (h.modify o fun obj => { obj with fields := writeSlots obj.fields first vs }).WellShaped p := by
  refine hw.modify (fun _ => rfl) fun obj hobj => ⟨by simp, fun i t v ht hv => ?_⟩
  rw [getElem?_writeSlots] at hv
  split at hv
  · rename_i hi
    exact hvs obj hobj (i - first) t v hv (by rwa [show first + (i - first) = i by omega])
  · exact hw.slots o obj i t v hobj ht hv

theorem keeps_setGlobal (h : Heap) (g : GlobalId) (v : Value) : h.Keeps (h.setGlobal g v) :=
  Keeps.refl h

theorem WellShaped.setGlobal (hw : h.WellShaped p) {g} (hv : h.Fits v (p.globalTy g)) :
    (h.setGlobal g v).WellShaped p := by
  have hk := keeps_setGlobal h g v
  refine ⟨hw.wellFormed, hw.size,
    fun o obj i t v ho ht hv => (hw.slots o obj i t v ho ht hv).mono hk, fun g' => ?_⟩
  unfold Heap.global
  rcases hget : (h.setGlobal g v).globals.get? g' with _ | w
  · exact fits_default _ _
  · rcases SideTable.get?_insert_cases h.globals g v hget with ⟨rfl, rfl⟩ | hold
    · exact hv.mono hk
    · have := hw.globals g'
      rw [Heap.global, hold] at this
      exact this.mono hk

end Heap

/-- No object or slot was asked for that does not exist. -/
abbrev Finds {α : Type} (res : Except RunError α) : Prop :=
  Except.Meets (fun e => e.isDangling = false) (fun _ => True) res

namespace Rebuild

variable {program : Program} {values : SideTable .inst Value} {recipes : List Recipe}
  {h : Heap} {r : Rebuild}

/-- The rebuilding that started in heap `h` keeps the heap well shaped, and the objects it has
built have the shapes of their recipes. -/
structure Shaped (program : Program) (recipes : List Recipe) (h : Heap) (r : Rebuild) : Prop where
  heap : r.heap.WellShaped program
  keeps : h.Keeps r.heap
  built : ∀ (i : Nat) o, r.built[i]? = some (some o) → ∃ obj recipe, r.heap.get? o = some obj ∧
    recipes[i]? = some recipe ∧ obj.shape = recipe.shape

namespace Shaped

variable {o : ObjRef} {recipe : Recipe} {w : Value}

theorem modify (hr : Shaped program recipes h r) {f} (hshape : ∀ obj, (f obj).shape = obj.shape)
    (hw : (r.heap.modify o f).WellShaped program) :
    Shaped program recipes h { r with heap := r.heap.modify o f } where
  heap := hw
  keeps := hr.keeps.trans (keeps_modify hshape)
  built i o' hi := by
    obtain ⟨obj, recipe, hobj, hrecipe, hsame⟩ := hr.built i o' hi
    obtain ⟨obj', hobj', hshape'⟩ := keeps_modify (o := o) hshape o' obj hobj
    exact ⟨obj', recipe, hobj', hrecipe, hshape'.trans hsame⟩

theorem create (hr : Shaped program recipes h r) {idx} (hrecipe : recipes[idx]? = some recipe) :
    Shaped program recipes h (r.create program recipe.shape idx) := by
  have hk := hr.heap.keeps_alloc recipe.shape
  refine ⟨(hr.heap.alloc recipe.shape).congr rfl rfl, hr.keeps.trans hk, fun i o hi => ?_⟩
  rw [Rebuild.create, Array.getElem?_setIfInBounds] at hi
  split at hi
  · split at hi
    · rename_i hidx _
      cases hi
      exact ⟨_, recipe, hr.heap.get?_alloc_self recipe.shape, hidx ▸ hrecipe, rfl⟩
    · cases hi
  · obtain ⟨obj, recipe', hobj, hrecipe', hsame⟩ := hr.built i o hi
    obtain ⟨obj', hobj', hshape'⟩ := hk o obj hobj
    exact ⟨obj', recipe', hobj', hrecipe', hshape'.trans hsame⟩

theorem live (hvalues : ∀ x o, values.get? x = some (.ref o) → h.Live o)
    (hr : Shaped program recipes h r) (hw : r.Knows values w) (ho : w = .ref o) :
    r.heap.Live o := by
  rcases hw o ho with ⟨x, hx⟩ | ⟨i, hi⟩
  · exact hr.keeps.live (hvalues x o hx)
  · obtain ⟨obj, -, hobj, -⟩ := hr.built i o hi
    exact ⟨obj, hobj⟩

theorem setField (hr : Shaped program recipes h r) {i j : Nat} {ty}
    (hb : r.built[i]? = some (some o)) (hrecipe : recipes[i]? = some recipe)
    (hty : (recipe.shape.slots program)[j]? = some ty) (hw : ∀ o, w = .ref o → r.heap.Live o) :
    Shaped program recipes h { r with heap := r.heap.setField o j (w.narrow ty) } := by
  obtain ⟨obj, recipe', hobj, hrecipe', hshape⟩ := hr.built i o hb
  obtain rfl : recipe' = recipe := by simpa [hrecipe] using hrecipe'.symm
  refine hr.modify (fun _ => rfl) ?_
  refine hr.heap.modify (fun _ => rfl) fun obj' hobj' => ⟨by simp, fun k t u ht hu => ?_⟩
  obtain rfl : obj = obj' := by simpa [hobj] using hobj'
  simp only [Array.getElem?_setIfInBounds] at hu
  split at hu
  · rename_i hk
    split at hu
    · cases hu
      rw [hshape, ← hk] at ht
      obtain rfl : ty = t := by simpa [hty] using ht
      exact fits_narrow hw ty
    · cases hu
  · exact hr.heap.slots o obj k t u hobj ht hu

theorem stable (hvalues : ∀ x o, values.get? x = some (.ref o) → h.Live o) :
    Stable program values recipes (Shaped program recipes h) where
  create _ _ _ hr _ hrecipe := hr.create hrecipe
  lock _ o hr := hr.modify (fun _ => rfl) <| hr.heap.modify (fun _ => rfl) fun obj hobj =>
    ⟨rfl, fun i t v ht hv => hr.heap.slots o obj i t v hobj ht hv⟩
  setField _ _ _ _ _ _ _ hr hb hrecipe hty hw :=
    hr.setField hb hrecipe hty fun _ => hr.live hvalues hw
  pop _ _ hr := ⟨hr.heap, hr.keeps, hr.built⟩

end Shaped

theorem finds_eval (r : Rebuild) (v : DebugValue) :
    Finds (eval program values recipes r v) := by
  have hread : ∀ x, Finds (read values x) := by
    intro x
    unfold read
    split
    · trivial
    · rfl
  induction v using DebugValue.induct with
  | value x =>
    rw [eval]
    exact (hread x).bind fun _ _ => trivial
  | const c =>
    rw [eval]
    trivial
  | object idx =>
    rw [eval]
    refine Except.Meets.bind (Q := fun _ => True) ?_ fun _ _ => trivial
    unfold object
    split
    · trivial
    · trivial
    · rfl
  | merge selector other candidates ih =>
    rw [eval]
    refine (hread selector).bind fun v _ => ?_
    split
    · rfl
    · split
      · exact (hread other).bind fun _ _ => trivial
      · split
        · rfl
        · rw [evalNth_eq]
          split
          · rename_i c hc
            exact ih c (mem_of_getElem? hc)
          · rfl

theorem finds_evalAll (r : Rebuild) (vs : List DebugValue) :
    Finds (evalAll program values recipes r vs) := by
  induction vs generalizing r with
  | nil => trivial
  | cons v vs ih =>
    rw [evalAll]
    exact (finds_eval r v).bind fun _ _ => (ih _).bind fun _ _ => trivial

/-- A lock that is to be taken is that of an object. -/
theorem Shaped.finds_evalMonitors (hvalues : ∀ x o, values.get? x = some (.ref o) → h.Live o)
    (hr : Shaped program recipes h r) (s : SafepointId) (ms : List MonitorSlot) :
    Finds (evalMonitors program values recipes s r ms) := by
  induction ms generalizing r with
  | nil => trivial
  | cons m ms ih =>
    have hmonitor : Finds (evalMonitor program values recipes s r m) := by
      refine ((finds_eval r m.obj).and (.self _)).bind fun a ha => ?_
      obtain ⟨w, r₁⟩ := a
      have h1 := (stable hvalues).eval hr ha.2
      dsimp only
      split
      · split
        · rename_i o
          obtain ⟨obj, hobj⟩ := h1.inv.live hvalues (h1.knows _ (.head _)) rfl
          refine Except.Meets.bind (Q := fun _ => True) ?_ fun _ _ => trivial
          unfold lock
          rw [hobj]
          dsimp only
          split
          · rfl
          · trivial
        · rfl
      · trivial
    rw [evalMonitors]
    refine (hmonitor.and (.self _)).bind fun a ha => ?_
    obtain ⟨w, r₁⟩ := a
    have hr₁ : Shaped program recipes h r₁ := by
      obtain ⟨r₀, hv, hlock⟩ := evalMonitor_eq_ok.1 ha.2
      have h0 := (stable hvalues).eval hr hv
      rcases hlock with ⟨-, rfl⟩ | ⟨-, o, -, hlock⟩
      · exact h0.inv
      · obtain ⟨-, rfl⟩ := lock_eq_ok.1 hlock
        exact (stable hvalues).lock r₀ o h0.inv
    exact (ih hr₁).bind fun _ _ => trivial

theorem finds_fillFields {slots : List Ty} {fields : List DebugValue} {first : Nat}
    (hlen : first + fields.length ≤ slots.length) (o : ObjRef) (r : Rebuild) :
    Finds (fillFields program values recipes slots o r first fields) := by
  induction fields generalizing r first with
  | nil => trivial
  | cons v fields ih =>
    rw [length_cons] at hlen
    rw [fillFields]
    refine (finds_eval r v).bind fun _ _ => ?_
    dsimp only
    rw [List.getElem?_eq_getElem (by omega)]
    exact ih (by omega) _

theorem finds_fill (hlen : ∀ recipe ∈ recipes, recipe.fields.length ≤
      (recipe.shape.slots program).length) (n : Nat) (r : Rebuild) :
    Finds (fill program values recipes n r) := by
  induction n generalizing r with
  | zero => trivial
  | succ n ih =>
    rw [fill]
    split
    · trivial
    · split
      · rename_i o recipe hb hrecipe
        refine (finds_fillFields ?_ o _).bind fun r' _ => ih r'
        rw [Nat.zero_add]
        exact hlen recipe (mem_of_getElem? hrecipe)
      · rfl

end Rebuild

/-- No recipe of the debug state has more values than its shape has slots. -/
def DebugState.Fitting (p : Program) (st : DebugState) : Prop :=
  ∀ recipe ∈ st.recipes, recipe.fields.length ≤ (recipe.shape.slots p).length

/-- The body passes the check, and the site that is kept for the debug state is reachable, so the
check has looked at the state. -/
structure Body.Vetted (p : Program) (body : Body) (sp : SafepointId) : Prop where
  wf : body.WellFormed
  check : body.check p = .ok ()
  site : ∃ site, body.sites.get? sp = some site ∧ site.block ∈ body.flow.order.blocks

theorem Body.Vetted.fitting {p : Program} {body : Body} {sp : SafepointId} (h : body.Vetted p sp) :
    (body.state sp).Fitting p := by
  obtain ⟨site, hsite, hb⟩ := h.site
  exact fun recipe hrecipe => (length_fields_of_check h.wf h.check hsite hb hrecipe).le

/-- Leaving compiled code asks for no object or slot that does not exist. -/
theorem Body.finds_deoptimize {body : Body} {program h values sp} (hw : h.WellShaped program)
    (hvalues : ∀ x o, values.get? x = some (.ref o) → h.Live o)
    (hfit : (body.state sp).Fitting program) :
    Finds (body.deoptimize program h values sp) := by
  unfold Body.deoptimize
  split
  · rfl
  · rename_i state hstate
    rw [Body.state, hstate, Option.getD_some] at hfit
    have start : Rebuild.Shaped program state.recipes h
        { heap := h, built := Array.replicate state.recipes.length none } :=
      ⟨hw, .refl h, fun i o hi => by simp [Array.getElem?_replicate] at hi⟩
    refine ((Rebuild.finds_evalAll ..).and (.self _)).bind fun (locals, r₁) ⟨_, he₁⟩ => ?_
    have h1 := (Rebuild.Shaped.stable hvalues).evalAll start he₁
    refine (h1.inv.finds_evalMonitors hvalues sp state.monitors).bind fun _ _ => ?_
    exact (Rebuild.finds_fill hfit _ _).bind fun _ _ => trivial

theorem Body.wellShaped_deoptimize {body : Body} {program h h' values s state}
    (hw : h.WellShaped program) (hvalues : ∀ x o, values.get? x = some (.ref o) → h.Live o)
    (hd : body.deoptimize program h values s = .ok (state, h')) :
    h'.WellShaped program ∧ h.Keeps h' ∧
      ∀ o, .ref o ∈ state.locals ++ state.monitors → h'.Live o := by
  obtain ⟨recipes, hI⟩ := deoptimize_stable hd
  obtain ⟨r, hr, rfl, hknows⟩ := hI _ (Rebuild.Shaped.stable hvalues)
    ⟨hw, .refl h, fun i o hi => by simp [Array.getElem?_replicate] at hi⟩
  exact ⟨hr.heap, hr.keeps, fun o ho => hr.live hvalues (hknows _ ho) rfl⟩

/-- What the effect gives or stores refers to objects, and it writes existing slots with values that
fit. -/
def Effect.Fits (p : Program) (h : Heap) : Effect → Prop
  | .value v => ∀ o, v = .ref o → h.Live o
  | .write o first vs => ∃ obj, h.get? o = some obj ∧ first + vs.length ≤ obj.fields.size ∧
      ∀ (k : Nat) t v, vs[k]? = some v → (obj.shape.slots p)[first + k]? = some t → h.Fits v t
  | .setGlobal g v => h.Fits v (p.globalTy g)
  | .none | .alloc _ | .setLocks _ _ => True

theorem Effect.Fits.apply {p h} {eff : Effect} (hf : eff.Fits p h) (hw : h.WellShaped p) :
    (eff.apply p h).2.WellShaped p ∧ h.Keeps (eff.apply p h).2 ∧
      ∀ o, (eff.apply p h).1 = some (.ref o) → (eff.apply p h).2.Live o := by
  cases eff with
  | none => exact ⟨hw, .refl h, fun o ho => by cases ho⟩
  | value v => exact ⟨hw, .refl h, fun o ho => hf o (Option.some.inj ho)⟩
  | alloc shape =>
    refine ⟨(hw.alloc shape).congr rfl rfl, hw.keeps_alloc shape, fun o ho => ?_⟩
    cases ho
    exact ⟨_, hw.get?_alloc_self shape⟩
  | write o first vs =>
    obtain ⟨obj, hobj, -, hvs⟩ := hf
    refine ⟨hw.write fun obj' hobj' => ?_, keeps_modify fun _ => rfl, fun o ho => by cases ho⟩
    obtain rfl : obj = obj' := by simpa [hobj] using hobj'
    exact hvs
  | setLocks o n =>
    exact ⟨hw.modify (fun _ => rfl) fun obj hobj => ⟨rfl, fun i t v ht hv =>
      hw.slots o obj i t v hobj ht hv⟩, keeps_modify fun _ => rfl, fun o ho => by cases ho⟩
  | setGlobal g v => exact ⟨hw.setGlobal hf, h.keeps_setGlobal g v, fun o ho => by cases ho⟩

namespace Heap

variable {h : Heap} {p : Program} {o : ObjRef} {obj : Object} {elem : Ty}

theorem slots_of_fieldIndex? {c field idx} (hc : obj.shape = .inst c)
    (hidx : p.fieldIndex? c field = some idx) :
    (obj.shape.slots p)[idx]? = some (p.fieldTy field) := by
  simp [hc, Shape.slots, Program.layout_of_fieldIndex? hidx]

theorem slots_of_elem? {t} {i : Nat} (helem : obj.elem? = some elem)
    (ht : (obj.shape.slots p)[i]? = some t) : t = elem := by
  rcases hs : obj.shape with c | ⟨elem', len⟩
  · simp [Object.elem?, hs, Shape.elem?] at helem
  · obtain rfl : elem' = elem := by simpa [Object.elem?, hs, Shape.elem?] using helem
    simp only [hs, Shape.slots, List.getElem?_replicate] at ht
    split at ht
    · exact (Option.some.inj ht).symm
    · cases ht

theorem WellShaped.lt_size (hw : h.WellShaped p) (ho : h.get? o = some obj) {i t}
    (ht : (obj.shape.slots p)[i]? = some t) : i < obj.fields.size := by
  rw [hw.size o obj ho]
  exact (List.getElem?_eq_some_iff.1 ht).1

/-- Writing values that fit the type of the elements into an array fits. -/
theorem fits_elems {first} {vs : List Value} (ho : h.get? o = some obj)
    (helem : obj.elem? = some elem) (hle : first + vs.length ≤ obj.fields.size)
    (hvs : ∀ v ∈ vs, h.Fits v elem) : (Effect.write o first vs).Fits p h :=
  ⟨obj, ho, hle, fun _ _ v hv ht => slots_of_elem? helem ht ▸ hvs v (mem_of_getElem? hv)⟩

end Heap

namespace Machine

/-- The operation asks for no object or slot that does not exist, and what it gives satisfies
`P`. -/
def Safe {α : Type} (P : α → Prop) (r : Except Halt α) : Prop :=
  Except.Meets (fun halt => ∀ e, halt = .error e → e.isDangling = false) P r

variable {m : Machine} {f : Frame} {h : Heap} {x : InstId} {op : Op} {eff : Effect}
  (hw : h.WellShaped m.program) (hf : ∀ x o, f.values.get? x = some (.ref o) → h.Live o)
include hw hf

section

variable (hexc : ∀ o, f.exception = some (.object (.ref o)) → h.Live o)
  (hargs : ∀ o, .ref o ∈ m.args → h.Live o)
include hexc hargs

theorem Acts.fits (ha : Acts m f h op eff) : eff.Fits m.program h := by
  cases ha with
  | none | new | newArray | monitorEnter | monitorExit => trivial
  | plain hv => exact fun o ho => absurd ho (hv o)
  | param hv => exact fun o ho => hargs o (mem_of_getElem? (ho ▸ hv))
  | loadField _ hob _ _ hv | loadElem _ hob _ hv =>
    exact fun o ho => hw.live_of_field hob (ho ▸ hv)
  | storeField _ hv hob hc hidx =>
    have hslot := slots_of_fieldIndex? hc hidx
    refine ⟨_, hob, hw.lt_size hob hslot, fun k t w hk ht => ?_⟩
    obtain ⟨rfl, rfl⟩ : k = 0 ∧ _ = w := by simpa [List.getElem?_singleton] using hk
    obtain rfl : m.program.fieldTy _ = t := by simpa [hslot] using ht
    exact fits_narrow (fun o ho => hf _ o (ho ▸ hv)) _
  | storeElem _ _ hob helem hv _ hlt =>
    refine fits_elems hob helem hlt fun w hw => ?_
    rw [mem_singleton.1 hw]
    exact fits_narrow (fun o ho => hf _ o (ho ▸ hv)) _
  | rawStore hob helem hle =>
    refine fits_elems hob helem (by simpa [rawElements] using hle) fun w hw => ?_
    obtain ⟨k, -, rfl⟩ := mem_map.1 hw
    exact fits_narrow (fun o ho => by cases ho) _
  | arrayCopy _ _ _ _ _ hsource hdest helem hpos hle =>
    obtain ⟨elem, hsrc⟩ := Option.isSome_iff_exists.1 helem.1
    refine fits_elems hdest (helem.2 ▸ hsrc) ?_ fun w hw' => ?_
    · simp only [length_take, length_drop, Array.length_toList]
      omega
    · -- what is copied fits the elements of the source, which have the same type
      obtain ⟨k, hk⟩ := mem_iff_getElem?.1 (mem_of_mem_drop (mem_of_mem_take hw'))
      rw [Array.getElem?_toList] at hk
      obtain ⟨t, ht, hfits⟩ := hw.slot hsource hk
      rwa [slots_of_elem? hsrc ht] at hfits
  | arrayFill _ hv hob helem =>
    refine fits_elems hob helem (by simp) fun w hw => ?_
    rw [(mem_replicate.1 hw).2]
    exact fits_narrow (fun o ho => hf _ o (ho ▸ hv)) _
  | loadGlobal g => exact fun o ho => (hw.globals g).live o ho
  | storeGlobal hv => exact fits_narrow (fun o ho => hf _ o (ho ▸ hv)) _
  | checkCast hv => exact fun o ho => hf _ o (ho ▸ hv)
  | @exception t ht =>
    intro o ho
    refine hexc o ?_
    cases t with
    | object v => exact ht.trans (congrArg (some <| Thrown.object ·) ho)
    | _ => cases ho

/-- An operation asks for no object or slot that does not exist, and its effect fits the heap. -/
theorem Safe.eval (x : InstId) (op : Op) : Safe (Effect.Fits m.program h) (m.eval f h x op) := by
  rcases he : m.eval f h x op with halt | eff
  · rintro e rfl
    cases stops_of_eval he with
    | uncomputed | late => rfl
    | noObject hy ho =>
      obtain ⟨ob, hob⟩ := hf _ _ hy
      simp [ho] at hob
    | noSlot hob hc hidx hslot =>
      -- the slot exists because the object has all slots of its shape
      have hlt := hw.lt_size hob (slots_of_fieldIndex? hc hidx)
      simp [Array.getElem?_eq_getElem hlt] at hslot
    | wrong _ hdangling => exact hdangling
  · exact (acts_of_eval he).fits hw hf hexc hargs

end

end Machine

/-- A host that keeps heaps well shaped: objects stay with their shapes, and what the host holds and
hands back designates objects; `holds s o` says that the host refers to `o` in its state `s`. -/
def Host.KeepsShapes {σ : Type} (host : Host σ) (p : Program) (holds : σ → ObjRef → Prop) : Prop :=
  ∀ callee args h s reply h' s', h.WellShaped p → (∀ o, .ref o ∈ args → h.Live o) →
    (∀ o, holds s o → h.Live o) → host.call p callee args h s = .ok (reply, h', s') →
    h'.WellShaped p ∧ h.Keeps h' ∧ (∀ o, holds s' o → h'.Live o) ∧
      ∀ o, reply.value? = some (.ref o) → h'.Live o

def Exit.Mentions (o : ObjRef) : Exit → Prop
  | .ret v => v = some (.ref o)
  | .threw t => t = .object (.ref o)
  | .deopt state => .ref o ∈ state.locals ++ state.monitors

namespace Machine

variable {σ : Type} {m : Machine} {host : Host σ} {holds : σ → ObjRef → Prop} {s t : RunState σ}
  {e : RunError}

/-- The heap is well shaped, and what the frame, the arguments and the host refer to exists. -/
structure Shaped (m : Machine) (holds : σ → ObjRef → Prop) (s : RunState σ) : Prop where
  heap : s.heap.WellShaped m.program
  values : ∀ x o, s.frame.values.get? x = some (.ref o) → s.heap.Live o
  exception : ∀ o, s.frame.exception = some (.object (.ref o)) → s.heap.Live o
  args : ∀ o, .ref o ∈ m.args → s.heap.Live o
  held : ∀ o, holds s.host o → s.heap.Live o

theorem shaped_start {heap state} (hheap : heap.WellShaped m.program)
    (hargs : ∀ o, .ref o ∈ m.args → heap.Live o) (hheld : ∀ o, holds state o → heap.Live o) :
    m.Shaped holds (m.start heap state) where
  heap := hheap
  values x o hv := by simp [start, SideTable.get?] at hv
  exception o ho := by simp [start] at ho
  args := hargs
  held := hheld

namespace Shaped

theorem update (hs : m.Shaped holds s) (hheap : t.heap.WellShaped m.program)
    (hkeeps : s.heap.Keeps t.heap)
    (hvalues : ∀ x o, t.frame.values.get? x = some (.ref o) →
      s.frame.values.get? x = some (.ref o) ∨ t.heap.Live o)
    (hexc : ∀ o, t.frame.exception = some (.object (.ref o)) →
      s.frame.exception = some (.object (.ref o)) ∨ t.heap.Live o)
    (hheld : ∀ o, holds t.host o → holds s.host o ∨ t.heap.Live o) : m.Shaped holds t where
  heap := hheap
  values x o hv := (hvalues x o hv).elim (fun hv => hkeeps.live (hs.values x o hv)) id
  exception o ho := (hexc o ho).elim (fun ho => hkeeps.live (hs.exception o ho)) id
  args o ho := hkeeps.live (hs.args o ho)
  held o ho := (hheld o ho).elim (fun ho => hkeeps.live (hs.held o ho)) id

theorem safe_eval (hs : m.Shaped holds s) (x : InstId) (op : Op) :
    Safe (Effect.Fits m.program s.heap) (m.eval s.frame s.heap x op) :=
  .eval hs.heap hs.values hs.exception hs.args x op

theorem live_of_args (hs : m.Shaped holds s) {xs : List InstId} {vs}
    (ha : xs.mapM s.frame.get = .ok vs) {o} (ho : .ref o ∈ vs) : s.heap.Live o := by
  rw [mapM_get_eq_ok] at ha
  have hmem : some (.ref o) ∈ xs.map s.frame.values.get? := ha ▸ mem_map_of_mem ho
  obtain ⟨x, -, hx⟩ := mem_map.1 hmem
  exact hs.values x o hx

variable (hhost : host.KeepsShapes m.program holds) {x : InstId} {heap : Heap} {state : σ}
include hhost

section

variable (hs : m.Shaped holds s)
include hs

theorem does {op : Op} {v} (hd : m.Does host s x op v heap state) :
    heap.WellShaped m.program ∧ s.heap.Keeps heap ∧ (∀ o, holds state o → heap.Live o) ∧
      ∀ o, v = some (.ref o) → heap.Live o := by
  cases hd with
  | plain hc he =>
    have hfits := hs.safe_eval x op
    rw [he] at hfits
    obtain ⟨hw, hk, hv⟩ := Effect.Fits.apply hfits hs.heap
    exact ⟨hw, hk, fun o ho => hk.live (hs.held o ho), hv⟩
  | call ha hh =>
    exact hhost _ _ _ _ _ _ _ hs.heap (fun o ho => hs.live_of_args ha ho) hs.held hh

theorem throws {op : Op} {t} (ht : m.Throws host s x op t heap state) :
    heap.WellShaped m.program ∧ s.heap.Keeps heap ∧ (∀ o, holds state o → heap.Live o) ∧
      ∀ o, t = .object (.ref o) → heap.Live o := by
  cases ht with
  | plain hc he =>
    refine ⟨hs.heap, .refl _, hs.held, fun o ho => ?_⟩
    cases stops_of_eval he with
    | thrown ht => exact absurd ho (ht _)
  | @call c args v heap state ha hh =>
    obtain ⟨hw, hk, hheld, hreply⟩ :=
      hhost _ _ _ _ _ _ _ hs.heap (fun o ho => hs.live_of_args ha ho) hs.held hh
    refine ⟨hw, hk, hheld, fun o ho => hreply o ?_⟩
    cases v <;> simp_all [Thrown.ofValue, Reply.value?]

theorem step (h : m.Step host s t) : m.Shaped holds t ∧ s.heap.Keeps t.heap := by
  cases h with
  | enter hr hf =>
    obtain ⟨incoming, -, hin, rfl⟩ := enterPhis_spec hf
    refine ⟨hs.update hs.heap (.refl _) (fun x o hv => ?_) (fun _ => .inl) fun _ => .inl, .refl _⟩
    rcases SideTable.mem_of_get?_foldl_insert hv with hmem | hold
    · obtain ⟨p, -, hp⟩ := hin _ hmem
      obtain ⟨inputs, y, -, -, hy⟩ := phiInput_eq_ok.1 hp
      exact .inr (hs.values y o hy)
    · exact .inl hold
  | @op x rest op v heap state hr ho hl hd =>
    obtain ⟨hw, hk, hheld, hv⟩ := hs.does hhost hd
    refine ⟨hs.update hw hk (fun y o hy => ?_) (fun o ho => by simp_all) fun o ho =>
      .inr (hheld o ho), hk⟩
    cases v with
    | none => exact .inl hy
    | some v =>
      rcases SideTable.get?_insert_cases s.frame.values x v hy with ⟨-, he⟩ | hold
      · exact .inr (hv o (he ▸ rfl))
      · exact .inl hold
  | caught hr ho hl ht hterm =>
    obtain ⟨hw, hk, hheld, hthrown⟩ := hs.throws hhost ht
    exact ⟨hs.update hw hk (fun _ _ => .inl) (fun o ho => .inr (hthrown o (Option.some.inj ho)))
      fun o ho => .inr (hheld o ho), hk⟩
  | goTo hr hb => exact ⟨⟨hs.heap, hs.values, hs.exception, hs.args, hs.held⟩, .refl _⟩

theorem steps (h : m.Steps host s t) : m.Shaped holds t ∧ s.heap.Keeps t.heap := by
  induction h with
  | refl => exact ⟨hs, .refl _⟩
  | tail _ hstep ih =>
    obtain ⟨hu, hk⟩ := ih.1.step hhost hstep
    exact ⟨hu, ih.2.trans hk⟩

theorem ends {exit : Exit} (h : m.Ends host s exit heap state) :
    heap.WellShaped m.program ∧ s.heap.Keeps heap ∧ ∀ o, exit.Mentions o → heap.Live o := by
  cases h with
  | ret => exact ⟨hs.heap, .refl _, fun o ho => by cases ho⟩
  | retValue hr hterm hv =>
    exact ⟨hs.heap, .refl _, fun o ho => hs.values _ o (hv.trans ho)⟩
  | @throw x v hr hterm hv =>
    refine ⟨hs.heap, .refl _, fun o ho => hs.values x o ?_⟩
    cases v <;> simp_all [Thrown.ofValue, Exit.Mentions]
  | deopt _ _ hd | leave _ _ _ hd => exact Body.wellShaped_deoptimize hs.heap hs.values hd
  | uncaught hr ho hl ht hterm =>
    obtain ⟨hw, hk, -, hthrown⟩ := hs.throws hhost ht
    exact ⟨hw, hk, hthrown⟩

end

end Shaped

theorem keepsShapes_idle (p : Program) : Host.idle.KeepsShapes p fun _ _ => False := by
  intro callee args h s reply h' s' hw _ _ hcall
  cases hcall
  exact ⟨hw, .refl h, fun o ho => ho.elim, fun o ho => by cases ho⟩

/-- Leaves compiled code at a debug state with a recipe for an object without slots that has a value
too many. The state is also that of a block which nothing leads to. -/
def overfill : Machine where
  program :=
    { classes := .ofEntries [{ name := "Empty", parent := none, layout := [], flags := {} }]
      fields := .ofEntries [] }
  body :=
    { blocks := .ofEntries
        [{ term := .jump ⟨1, 1⟩ }, { insts := [⟨0, 1⟩], term := .ret none },
          { term := .deopt ⟨0, 1⟩ }]
      insts := .ofEntries [⟨.safepoint ⟨0, 1⟩, none⟩]
      states := .ofEntries
        [{ locals := [.object 0], recipes := [⟨.inst ⟨0, 1⟩, [.const (.int 5)]⟩] }]
      entry := ⟨0, 1⟩
      params := []
      ret := none }
  args := []
  forced := some ⟨0, 1⟩

end Machine

end EscapeAnalysis
