import EscapeAnalysis.Proofs.LockErasure

/-!
# The objects that leaving compiled code builds

Leaving compiled code at a debug state that the frame can evaluate always succeeds, and the heap
then has just what the state describes (`Body.deoptimize_rebuilt`). A recipe is built when it is
first met and filled in turn. The rounds suffice since each fills one object, and the objects
waiting are never more than the rounds left (`Rebuild.Phase.room`).
-/

namespace EscapeAnalysis

open List

/-- The slots hold what the debug values of the recipe stand for, as slots of their types do. -/
def Recipe.FilledIn (program : Program) (values : SideTable .inst Value)
    (obj : Nat → Option ObjRef) (recipe : Recipe) (slots : Array Value) : Prop :=
  ∀ (j : Nat) v ty, recipe.fields[j]? = some v → (recipe.shape.slots program)[j]? = some ty →
    ∃ w, v.Denotes values obj w ∧ slots[j]? = some (w.narrow ty)

theorem Recipe.FilledIn.mono {program values obj obj'} {recipe : Recipe} {slots}
    (h : recipe.FilledIn program values obj slots) (hobj : ∀ i o, obj i = some o → obj' i = some o)
    : recipe.FilledIn program values obj' slots := by
  intro j v ty hv hty
  obtain ⟨w, hw, hslot⟩ := h j v ty hv hty
  exact ⟨w, hw.mono hobj, hslot⟩

namespace DebugState

/-- The state can be evaluated in the frame: what it names is there, and every recipe has a debug
value for each slot. -/
structure Readable (program : Program) (values : SideTable .inst Value) (s : DebugState) :
    Prop where
  objects : s.Closed
  fields : ∀ recipe ∈ s.recipes, recipe.fields.length = (recipe.shape.slots program).length
  insts : ∀ x ∈ s.insts, ∃ v, values.get? x = some v
  decided : ∀ selector other candidates, .merge selector other candidates ∈ s.parts →
    DebugValue.Decided values selector candidates

/-- Every lock that has to be taken is on an object, be it there or still to be built. -/
def LocksObjects (values : SideTable .inst Value) (h : Heap) (s : DebugState) : Prop :=
  ∀ m ∈ s.monitors, m.eliminated = true → (∃ idx, m.obj.Selects values (.object idx)) ∨
    ∃ x o, m.obj.Selects values (.value x) ∧ values.get? x = some (.ref o) ∧ h.Live o

/-- The recipes that the locals and monitors lead to, through the candidates that are selected and
the fields of recipes. -/
inductive Needed (values : SideTable .inst Value) (s : DebugState) : Nat → Prop
  | root {v : DebugValue} {idx} : v ∈ s.locals ++ s.monitors.map MonitorSlot.obj →
      v.Selects values (.object idx) → Needed values s idx
  | field {i idx : Nat} {recipe v} : Needed values s i →
      s.recipes[i]? = some recipe → v ∈ recipe.fields → v.Selects values (.object idx) →
      Needed values s idx

/-- A debug value of the state that may be evaluated, since the recipe it comes down to, if any, is
needed. -/
structure Wanted (values : SideTable .inst Value) (s : DebugState) (v : DebugValue) : Prop where
  mem : v ∈ s.debugValues
  needed : ∀ idx, v.Selects values (.object idx) → s.Needed values idx

section Wanted

variable {values : SideTable .inst Value} {s : DebugState} {v : DebugValue}

theorem wanted_of_local (hv : v ∈ s.locals) : s.Wanted values v :=
  ⟨mem_append_left _ (mem_append_left _ hv),
    fun _ => .root (mem_append_left _ hv)⟩

theorem wanted_of_monitor {m} (hm : m ∈ s.monitors) : s.Wanted values m.obj :=
  have hmem : m.obj ∈ s.monitors.map MonitorSlot.obj := mem_map_of_mem hm
  ⟨mem_append_left _ (mem_append_right _ hmem),
    fun _ => .root (mem_append_right _ hmem)⟩

theorem wanted_of_field {i recipe} (hi : s.Needed values i) (hrecipe : s.recipes[i]? = some recipe)
    (hv : v ∈ recipe.fields) : s.Wanted values v :=
  ⟨mem_append_right _ (mem_flatMap.2 ⟨recipe, mem_of_getElem? hrecipe, hv⟩),
    fun _ => .field hi hrecipe hv⟩

end Wanted

/-- The number of locks on `o` that the code did not take, where the monitors have the given
values. -/
def owed (s : DebugState) (monitors : List Value) (o : ObjRef) : Nat :=
  (s.monitors.zip monitors).countP fun e => e.1.eliminated && e.2 = .ref o

/-- The lock that the last of the values `ws` of the first monitors asks for would be one too many
for the count of `o`. -/
structure Overflows (values : SideTable .inst Value) (s : DebugState) (h : Heap) (o : ObjRef)
    (ws : List Value) (obj : Nat → Option ObjRef) : Prop where
  monitors : List.Forall₂ (fun m w => m.obj.Denotes values obj w) (s.monitors.take ws.length) ws
  count : h.locksOf o + s.owed ws o = UInt32.size

/-- The state and the heap `h'` are what `s` describes in heap `h`, where `obj` has the objects of
the recipes. -/
structure Rebuilt (program : Program) (values : SideTable .inst Value) (s : DebugState) (h : Heap)
    (d : DeoptState) (h' : Heap) (obj : Nat → Option ObjRef) : Prop where
  built : ∀ i, (∃ o, obj i = some o) ↔ s.Needed values i
  distinct : ∀ i j o, obj i = some o → obj j = some o → i = j
  locals : List.Forall₂ (DebugValue.Denotes values obj) s.locals d.locals
  monitors : List.Forall₂ (fun m w => m.obj.Denotes values obj w) s.monitors d.monitors
  new : ∀ i o, obj i = some o → h.get? o = none ∧ ∃ recipe x, s.recipes[i]? = some recipe ∧
    h'.get? o = some x ∧ x.shape = recipe.shape ∧ x.fields.size = recipe.fields.length ∧
    recipe.FilledIn program values obj x.fields ∧ x.locks.toNat = s.owed d.monitors o
  old : ∀ o x, h.get? o = some x → ∃ locks, h'.get? o = some { x with locks } ∧
    locks.toNat = x.locks.toNat + s.owed d.monitors o
  only : ∀ o, h'.Live o → h.Live o ∨ ∃ i, obj i = some o
  globals : h'.globals = h.globals
  allocations : h'.allocations = h.allocations
  rematerialized : h'.rematerialized =
    h.rematerialized + (List.range s.recipes.length).countP fun i => (obj i).isSome

end DebugState

theorem exists_of_forall₂ {α β : Type} {R l} {l' : List β} (h : List.Forall₂ R l l') {a : α}
    (ha : a ∈ l) : ∃ b, R a b := by
  induction h with
  | nil => cases ha
  | cons hab _ ih =>
    rcases mem_cons.1 ha with rfl | ha
    · exact ⟨_, hab⟩
    · exact ih ha

theorem countP_range_of_flip {p q k} (hp : p k = false) (hq : q k = true)
    (hsame : ∀ i, i ≠ k → q i = p i) :
    ∀ n, k < n → (List.range n).countP q = (List.range n).countP p + 1
  | n + 1, hk => by
    rw [range_succ, countP_append, countP_append]
    by_cases he : k = n
    · subst he
      have : (List.range k).countP q = (List.range k).countP p :=
        countP_congr fun i hi => by rw [hsame i (Nat.ne_of_lt (mem_range.1 hi))]
      simp [this, hp, hq]
    · rw [countP_range_of_flip hp hq hsame n (by omega), countP_singleton,
        countP_singleton, hsame n (Ne.symm he)]
      omega

namespace Rebuild

variable {program : Program} {values : SideTable .inst Value} {recipes : List Recipe}
  {r r' r'' : Rebuild} {o : ObjRef}

def obj (r : Rebuild) (i : Nat) : Option ObjRef := r.built[i]?.join

theorem obj_eq_some {i} : r.obj i = some o ↔ r.built[i]? = some (some o) := by
  rw [obj, Option.join_eq_some_iff]

theorem obj_start (h : Heap) (n i : Nat) :
    obj { heap := h, built := Array.replicate n none } i = none := by
  rw [obj, Array.getElem?_replicate]
  split <;> rfl

/-- How many of the first `n` recipes have an object. -/
def count (r : Rebuild) (n : Nat) : Nat := (List.range n).countP fun i => (r.obj i).isSome

theorem count_le (r : Rebuild) (n : Nat) : r.count n ≤ n := by
  simpa [count] using (countP_le_length (p := fun i => (r.obj i).isSome) (l := List.range n))

/-- From `r` to `r'` objects were created, which all have to be filled, and no slot was written but
those of `target`. -/
structure Grows (target : ObjRef → Prop) (r r' : Rebuild) : Prop where
  obj : ∀ i o, r.obj i = some o → r'.obj i = some o
  kept : ∀ o x, ¬ target o → r.heap.get? o = some x →
    ∃ x', r'.heap.get? o = some x' ∧ x'.fields = x.fields
  pending : ∀ i ∈ r.pending, i ∈ r'.pending
  new : ∀ i o, r'.obj i = some o → r.obj i = some o ∨ i ∈ r'.pending

namespace Grows

variable {target target' : ObjRef → Prop}

theorem refl (target : ObjRef → Prop) (r : Rebuild) : Grows target r r :=
  ⟨fun _ _ h => h, fun _ x _ h => ⟨x, h, rfl⟩, fun _ h => h, fun _ _ => .inl⟩

theorem trans (h : Grows target r r') (h' : Grows target r' r'') : Grows target r r'' := by
  refine ⟨fun i o ho => h'.obj i o (h.obj i o ho), fun o x ht hx => ?_,
    fun i hi => h'.pending i (h.pending i hi), fun i o ho => ?_⟩
  · obtain ⟨x', hx', he⟩ := h.kept o x ht hx
    obtain ⟨x'', hx'', he'⟩ := h'.kept o x' ht hx'
    exact ⟨x'', hx'', he'.trans he⟩
  · rcases h'.new i o ho with ho | hi
    · exact (h.new i o ho).imp id (h'.pending i)
    · exact .inr hi

theorem mono (h : Grows target r r') (ht : ∀ o, target o → target' o) : Grows target' r r' :=
  ⟨h.obj, fun o x ho => h.kept o x fun h => ho (ht o h), h.pending, h.new⟩

theorem modify (r : Rebuild) {o f} (hf : ¬ target o → ∀ x, (f x).fields = x.fields) :
    Grows target r { r with heap := r.heap.modify o f } := by
  refine ⟨fun _ _ h => h, fun o' x ho' hx => ?_, fun _ h => h, fun _ _ => .inl⟩
  have hget := Heap.get?_modify r.heap o o' f
  by_cases he : o' = o
  · subst he
    rw [if_pos rfl, hx] at hget
    exact ⟨f x, hget, hf ho' x⟩
  · rw [if_neg he, hx] at hget
    exact ⟨x, hget, rfl⟩

end Grows

section Create

variable {shape : Shape} {idx i : Nat} {o : ObjRef} {x : Object}

theorem obj_create_eq_some (hb : r.built[idx]? = some none) :
    (r.create program shape idx).obj i = some o ↔
      i = idx ∧ o = (r.heap.alloc program shape).1 ∨ i ≠ idx ∧ r.obj i = some o := by
  have hidx : idx < r.built.size := (Array.getElem?_eq_some_iff.1 hb).1
  simp only [obj_eq_some, create, Array.getElem?_setIfInBounds]
  by_cases hi : i = idx
  · subst hi
    simp [hidx, eq_comm]
  · simp [hi, Ne.symm hi]

section

variable (hwf : r.heap.objects.WellFormed)
include hwf

theorem get?_create (program : Program) (shape : Shape)
    (idx : Nat) (o : ObjRef) : (r.create program shape idx).heap.get? o =
      if o = (r.heap.alloc program shape).1 then
        some { shape, fields := Heap.freshFields program shape }
      else r.heap.get? o :=
  Heap.get?_alloc hwf program shape o

theorem get?_create_of_some (program : Program) (shape : Shape)
    (idx : Nat) (hx : r.heap.get? o = some x) :
    (r.create program shape idx).heap.get? o = some x := by
  rw [get?_create hwf, if_neg, hx]
  rintro rfl
  rw [Heap.get?_alloc_fst hwf] at hx
  cases hx

theorem Grows.create (program : Program) (shape : Shape) (hb : r.built[idx]? = some none) :
    Grows (fun _ => False) r (r.create program shape idx) := by
  refine ⟨fun i o ho => (obj_create_eq_some hb).2 (.inr ⟨?_, ho⟩),
    fun o x _ hx => ⟨x, get?_create_of_some hwf _ _ _ hx, rfl⟩,
    fun i hi => mem_append_left _ hi, fun i o ho => ?_⟩
  · rintro rfl
    rw [obj_eq_some, hb] at ho
    cases ho
  · rcases (obj_create_eq_some hb).1 ho with ⟨rfl, -⟩ | ⟨-, ho⟩
    · exact .inr (mem_append_right _ (.head _))
    · exact .inl ho

end

theorem count_create {n} (program : Program) (shape : Shape) (hb : r.built[idx]? = some none)
    (hn : idx < n) : (r.create program shape idx).count n = r.count n + 1 := by
  refine countP_range_of_flip (k := idx) ?_ ?_ (fun i hi => ?_) n hn
  · simp [obj, hb]
  · simp [(obj_create_eq_some hb).2 (.inl ⟨rfl, rfl⟩)]
  · rw [Bool.eq_iff_iff, Option.isSome_iff_exists, Option.isSome_iff_exists]
    simp only [obj_create_eq_some hb, hi, false_and, ne_eq, not_false_eq_true, true_and, false_or]

end Create

/-- The recipe is built, and its object has the slots it gives. -/
def Filled (program : Program) (values : SideTable .inst Value) (recipes : List Recipe)
    (r : Rebuild) (i : Nat) : Prop :=
  ∃ o recipe x, r.obj i = some o ∧ recipes[i]? = some recipe ∧ r.heap.get? o = some x ∧
    recipe.FilledIn program values r.obj x.fields

theorem Filled.mono {target i} (h : r.Filled program values recipes i) (hgrows : Grows target r r')
    (ho : r.obj i = some o) (htarget : ¬ target o) : r'.Filled program values recipes i := by
  obtain ⟨o', recipe, x, ho', hrecipe, hx, hfilled⟩ := h
  cases Option.mem_unique ho ho'
  obtain ⟨x', hx', hsame⟩ := hgrows.kept o x htarget hx
  exact ⟨o, recipe, x', hgrows.obj i o ho, hrecipe, hx', hsame ▸ hfilled.mono hgrows.obj⟩

/-- Where rebuilding the state stands that started in heap `h`: the recipes built are needed ones,
their objects are the only new ones, `taken` locks were taken, and `fuel` rounds suffice to fill
what is still to be filled. -/
structure Phase (program : Program) (values : SideTable .inst Value) (state : DebugState)
    (h : Heap) (taken : ObjRef → Nat) (fuel : Nat) (r : Rebuild) : Prop where
  base : Over h r
  size : r.built.size = state.recipes.length
  needed : ∀ i o, r.obj i = some o → state.Needed values i
  distinct : ∀ i j o, r.obj i = some o → r.obj j = some o → i = j
  made : ∀ i o, r.obj i = some o → ∃ recipe x, state.recipes[i]? = some recipe ∧
    r.heap.get? o = some x ∧ x.shape = recipe.shape ∧
    x.fields.size = (recipe.shape.slots program).length
  only : ∀ o, r.heap.Live o → h.Live o ∨ ∃ i, r.obj i = some o
  locks : ∀ o, r.heap.locksOf o = h.locksOf o + taken o
  allocations : r.heap.allocations = h.allocations
  counted : r.heap.rematerialized = h.rematerialized + r.count state.recipes.length
  pending : ∀ i ∈ r.pending, ∃ o, r.obj i = some o
  room : r.pending.length + state.recipes.length ≤ fuel + r.count state.recipes.length

namespace Phase

variable {state : DebugState} {h : Heap} {taken : ObjRef → Nat} {fuel idx i n : Nat} {o : ObjRef}

theorem start (hwf : h.objects.WellFormed) : Phase program values state h (fun _ => 0)
    state.recipes.length { heap := h, built := Array.replicate state.recipes.length none } := by
  refine ⟨.start hwf _, Array.size_replicate, fun i o hi => ?_, fun i j o hi => ?_,
    fun i o hi => ?_, fun _ => .inl, fun _ => rfl, rfl, ?_, nofun, ?_⟩
  · rw [obj_start] at hi
    cases hi
  · rw [obj_start] at hi
    cases hi
  · rw [obj_start] at hi
    cases hi
  · simp [count, obj_start]
  · simp

section

variable (hr : Phase program values state h taken fuel r)
include hr

theorem create {recipe} (hb : r.built[idx]? = some none)
    (hrecipe : state.recipes[idx]? = some recipe) (hneed : state.Needed values idx) :
    Phase program values state h taken fuel (r.create program recipe.shape idx) := by
  have hwf := hr.base.wellFormed
  have hgrows := Grows.create hwf program recipe.shape hb
  have hcount := count_create program recipe.shape hb
    (hr.size ▸ (Array.getElem?_eq_some_iff.1 hb).1)
  -- no object so far is the new one
  have hnew : ∀ i, r.obj i ≠ some (r.heap.alloc program recipe.shape).1 := by
    intro i hi
    obtain ⟨-, x, -, hx, -⟩ := hr.made i _ hi
    rw [Heap.get?_alloc_fst hwf] at hx
    cases hx
  refine
    { base := hr.base.create recipe.shape idx
      size := ?size, needed := ?needed, distinct := ?distinct, made := ?made, only := ?only
      locks := fun o => (Heap.locksOf_alloc hwf o).trans (hr.locks o)
      allocations := hr.allocations, counted := ?counted, pending := ?pending, room := ?room }
  case size => simpa [Rebuild.create] using hr.size
  case needed =>
    intro i o ho
    rcases (obj_create_eq_some hb).1 ho with ⟨rfl, -⟩ | ⟨-, ho⟩
    · exact hneed
    · exact hr.needed i o ho
  case distinct =>
    intro i j o hi hj
    rcases (obj_create_eq_some hb).1 hi with ⟨hi, ho⟩ | ⟨-, hi⟩ <;>
      rcases (obj_create_eq_some hb).1 hj with ⟨hj, ho'⟩ | ⟨-, hj⟩
    · exact hi.trans hj.symm
    · exact absurd (ho ▸ hj) (hnew j)
    · exact absurd (ho' ▸ hi) (hnew i)
    · exact hr.distinct i j o hi hj
  case made =>
    intro i o ho
    rcases (obj_create_eq_some hb).1 ho with ⟨rfl, rfl⟩ | ⟨-, ho⟩
    · refine ⟨recipe, _, hrecipe, (get?_create hwf _ _ _ _).trans (if_pos rfl), rfl, ?_⟩
      simp [Heap.freshFields]
    · obtain ⟨recipe', x, hrecipe', hx, hshape⟩ := hr.made i o ho
      exact ⟨recipe', x, hrecipe', get?_create_of_some hwf _ _ _ hx, hshape⟩
  case only =>
    rintro o ⟨x, hx⟩
    rw [get?_create hwf] at hx
    split at hx
    · rename_i he
      exact .inr ⟨idx, (obj_create_eq_some hb).2 (.inl ⟨rfl, he⟩)⟩
    · refine (hr.only o ⟨x, hx⟩).imp id ?_
      rintro ⟨i, hi⟩
      exact ⟨i, hgrows.obj i o hi⟩
  case counted =>
    rw [hcount, ← Nat.add_assoc, ← hr.counted]
    rfl
  case pending =>
    intro i hi
    rcases mem_append.1 hi with hi | hi
    · obtain ⟨o, ho⟩ := hr.pending i hi
      exact ⟨o, hgrows.obj i o ho⟩
    · exact ⟨_, (obj_create_eq_some hb).2 (.inl ⟨mem_singleton.1 hi, rfl⟩)⟩
  case room =>
    have hroom := hr.room
    rw [hcount, show (r.create program recipe.shape idx).pending = r.pending ++ [idx] from rfl,
      length_append, length_singleton]
    omega

theorem object (hidx : idx < state.recipes.length) (hneed : state.Needed values idx) :
    ∃ o r', Rebuild.object program state.recipes r idx = .ok (o, r') ∧
      Phase program values state h taken fuel r' ∧ Grows (fun _ => False) r r' ∧
      r'.obj idx = some o := by
  obtain ⟨_ | o, hbuilt⟩ : ∃ b, r.built[idx]? = some b :=
    ⟨_, Array.getElem?_eq_getElem (hr.size ▸ hidx)⟩
  · have hrecipe := List.getElem?_eq_getElem hidx
    exact ⟨_, _, object_eq_ok.2 (.inr ⟨_, hbuilt, hrecipe, rfl, rfl⟩),
      hr.create hbuilt hrecipe hneed, .create hr.base.wellFormed _ _ hbuilt,
      (obj_create_eq_some hbuilt).2 (.inl ⟨rfl, rfl⟩)⟩
  · exact ⟨o, r, object_eq_ok.2 (.inl ⟨hbuilt, rfl⟩), hr, .refl _ _, obj_eq_some.2 hbuilt⟩

theorem modify {taken' f} (hover : Over h { r with heap := r.heap.modify o f })
    (hf : ∀ x, (f x).shape = x.shape ∧ (f x).fields.size = x.fields.size)
    (hlocks : ∀ o', (r.heap.modify o f).locksOf o' = h.locksOf o' + taken' o') :
    Phase program values state h taken' fuel { r with heap := r.heap.modify o f } := by
  refine ⟨hover, hr.size, hr.needed, hr.distinct, fun i o' ho' => ?_, fun o' ho' => ?_, hlocks,
    hr.allocations, hr.counted, hr.pending, hr.room⟩
  · obtain ⟨recipe, x, hrecipe, hx, hshape, hsize⟩ := hr.made i o' ho'
    have hget := Heap.get?_modify r.heap o o' f
    by_cases he : o' = o
    · rw [if_pos he, hx] at hget
      exact ⟨recipe, f x, hrecipe, hget, (hf x).1.trans hshape, (hf x).2.trans hsize⟩
    · rw [if_neg he, hx] at hget
      exact ⟨recipe, x, hrecipe, hget, hshape, hsize⟩
  · exact hr.only o' ((Heap.live_modify o f).1 ho')

theorem lock (ho : r.heap.Lockable o) :
    Phase program values state h (fun o' => taken o' + if o' = o then 1 else 0) fuel
      { r with heap := r.heap.lock o } := by
  refine hr.modify (hr.base.modify o fun _ _ _ => ⟨rfl, rfl⟩) (fun _ => ⟨rfl, rfl⟩) fun o' => ?_
  rw [← Nat.add_assoc, ← hr.locks o']
  exact Heap.locksOf_lock ho o'

theorem setField {first} (ho : r.obj i = some o) (w : Value) :
    Phase program values state h taken fuel { r with heap := r.heap.setField o first w } := by
  refine hr.modify (hr.base.modify o fun x hx => ?_) (fun x => ⟨rfl, by simp⟩) fun o' => ?_
  · rw [hr.base.built i o (obj_eq_some.1 ho)] at hx
    cases hx
  · rw [← hr.locks o']
    exact Heap.locksOf_modify_fields r.heap o o' _

variable (hs : state.Readable program values)
include hs

theorem eval {v} (hv : state.Wanted values v) :
    ∃ w r', Rebuild.eval program values state.recipes r v = .ok (w, r') ∧
      Phase program values state h taken fuel r' ∧ Grows (fun _ => False) r r' ∧
      v.Denotes values r'.obj w := by
  obtain ⟨leaf, hleaf⟩ := DebugValue.exists_selects fun selector other candidates hpart =>
    hs.decided selector other candidates (mem_flatMap.2 ⟨v, hv.mem, hpart⟩)
  rw [eval_of_selects hleaf]
  cases leaf with
  | value x =>
    obtain ⟨w, hw⟩ := hs.insts x (mem_flatMap.2 ⟨v, hv.mem, hleaf.value_mem_insts⟩)
    exact ⟨w, r, eval_value.2 ⟨w, hw, rfl⟩, hr, .refl _ _, _, hleaf, hw⟩
  | const c => exact ⟨c.toValue, r, by rw [Rebuild.eval]; rfl, hr, .refl _ _, _, hleaf, rfl⟩
  | object idx =>
    have hidx := hs.objects idx (mem_flatMap.2 ⟨v, hv.mem, hleaf.object_mem_parts⟩)
    obtain ⟨o, r', he, hr', hgrows, ho⟩ := hr.object hidx (hv.needed idx hleaf)
    exact ⟨.ref o, r', eval_object.2 ⟨o, he, rfl⟩, hr', hgrows, _, hleaf,
      Option.map_eq_some_iff.2 ⟨o, ho, rfl⟩⟩
  | merge => exact absurd rfl hleaf.ne_merge

theorem evalAll {vs} (hvs : ∀ v ∈ vs, state.Wanted values v) :
    ∃ ws r', Rebuild.evalAll program values state.recipes r vs = .ok (ws, r') ∧
      Phase program values state h taken fuel r' ∧ Grows (fun _ => False) r r' ∧
      List.Forall₂ (DebugValue.Denotes values r'.obj) vs ws := by
  induction vs generalizing r with
  | nil => exact ⟨[], r, rfl, hr, .refl _ _, .nil⟩
  | cons v vs ih =>
    obtain ⟨w, r1, he1, hr1, hgrows1, hw⟩ := hr.eval hs (hvs v (.head _))
    obtain ⟨ws, r2, he2, hr2, hgrows2, hws⟩ := ih hr1 fun v hv => hvs v (.tail _ hv)
    refine ⟨w :: ws, r2, ?_, hr2, hgrows1.trans hgrows2, .cons (hw.mono hgrows2.obj) hws⟩
    simp only [Rebuild.evalAll, Except.bind_eq_ok]
    exact ⟨_, he1, _, he2, rfl⟩

theorem evalMonitor (hlocks : state.LocksObjects values h) (s : SafepointId) {m}
    (hm : m ∈ state.monitors) :
    ∃ w r', Grows (fun _ => False) r r' ∧ m.obj.Denotes values r'.obj w ∧
      (Rebuild.evalMonitor program values state.recipes s r m = .ok (w, r') ∧
        Phase program values state h
          (fun o => taken o + if m.eliminated && w = .ref o then 1 else 0) fuel r' ∨
      ∃ o, Rebuild.evalMonitor program values state.recipes s r m = .error (.lockOverflow o) ∧
        m.eliminated = true ∧ w = .ref o ∧ h.locksOf o + taken o + 1 = UInt32.size) := by
  obtain ⟨w, r1, he, hr1, hgrows, hw⟩ := hr.eval hs (DebugState.wanted_of_monitor hm)
  cases hm' : m.eliminated with
  | false =>
    exact ⟨w, r1, hgrows, hw, .inl ⟨evalMonitor_eq_ok.2 ⟨r1, he, .inl ⟨hm', rfl⟩⟩, by simpa using hr1⟩⟩
  | true =>
    obtain ⟨o, rfl, ho⟩ : ∃ o, w = .ref o ∧ r1.heap.Live o := by
      rcases hlocks m hm hm' with ⟨idx, hsel⟩ | ⟨x, o, hsel, hx, x', hx'⟩
      · obtain ⟨o, ho, rfl⟩ := hw.of_selects_object hsel
        obtain ⟨-, x, -, hx, -⟩ := hr1.made idx o ho
        exact ⟨o, rfl, x, hx⟩
      · obtain ⟨leaf, hleaf, hw⟩ := hw
        cases hleaf.unique hsel
        obtain ⟨x1, hx1, -⟩ := hr1.base.old o x' hx'
        exact ⟨o, Option.mem_unique hw hx, x1, hx1⟩
    obtain ⟨x, hx⟩ := ho
    cases hfull : x.isFull with
    | false =>
      have hlock : r1.heap.Lockable o := ⟨x, hx, hfull⟩
      refine ⟨.ref o, { r1 with heap := r1.heap.lock o },
        hgrows.trans (.modify r1 fun _ _ => rfl), hw, .inl ⟨?_, ?_⟩⟩
      · exact evalMonitor_eq_ok.2 ⟨r1, he, .inr ⟨hm', o, rfl, lock_eq_ok.2 ⟨hlock, rfl⟩⟩⟩
      · simpa [eq_comm] using hr1.lock hlock
    | true =>
      refine ⟨.ref o, r1, hgrows, hw, .inr ⟨o, ?_, rfl, rfl, ?_⟩⟩
      · exact evalMonitor_of_lock he hm' (lock_of_isFull hx hfull)
      · rw [← hr1.locks o, Heap.locksOf_of_get? hx]
        exact of_decide_eq_true hfull

/-- All monitors get their values, or the last of those that did asks for a lock too many. -/
theorem evalMonitors (hlocks : state.LocksObjects values h) (s : SafepointId) {ms}
    (hms : ∀ m ∈ ms, m ∈ state.monitors) :
    ∃ ws r', Grows (fun _ => False) r r' ∧
      List.Forall₂ (fun m w => m.obj.Denotes values r'.obj w) (ms.take ws.length) ws ∧
      (Rebuild.evalMonitors program values state.recipes s r ms = .ok (ws, r') ∧
        ws.length = ms.length ∧
        Phase program values state h
          (fun o => taken o + (ms.zip ws).countP fun e => e.1.eliminated && e.2 = .ref o) fuel r' ∨
      ∃ o, Rebuild.evalMonitors program values state.recipes s r ms = .error (.lockOverflow o) ∧
        h.locksOf o + taken o + (ms.zip ws).countP (fun e => e.1.eliminated && e.2 = .ref o) =
          UInt32.size) := by
  induction ms generalizing r taken with
  | nil => exact ⟨[], r, .refl _ _, .nil, .inl ⟨rfl, rfl, hr⟩⟩
  | cons m ms ih =>
    obtain ⟨w, r1, hgrows1, hw, ⟨he1, hr1⟩ | ⟨o, he1, hm, rfl, hcount⟩⟩ :=
      hr.evalMonitor hs hlocks s (hms m (.head _))
    · obtain ⟨ws, r2, hgrows2, hws, h2⟩ := ih hr1 fun m hm => hms m (.tail _ hm)
      refine ⟨w :: ws, r2, hgrows1.trans hgrows2, .cons (hw.mono hgrows2.obj) hws, ?_⟩
      rcases h2 with ⟨he2, hlen, hr2⟩ | ⟨o, he2, hcount⟩
      · refine .inl ⟨?_, by simp [hlen], ?_⟩
        · simp only [Rebuild.evalMonitors, Except.bind_eq_ok]
          exact ⟨_, he1, _, he2, rfl⟩
        · simpa only [zip_cons_cons, countP_cons, Nat.add_assoc, Nat.add_comm] using hr2
      · refine .inr ⟨o, ?_, ?_⟩
        · rw [Rebuild.evalMonitors, he1]
          dsimp only [bind, Except.bind]
          rw [he2]
        · rw [← hcount, zip_cons_cons, countP_cons]
          dsimp only
          omega
    · -- the first of these monitors is the one
      refine ⟨[.ref o], r1, hgrows1, by simpa using hw, .inr ⟨o, ?_, by simp [hm, hcount]⟩⟩
      rw [Rebuild.evalMonitors, he1]
      rfl

/-- The object of a recipe that was built gets the values given for its slots, from slot `first`
on. -/
theorem fillFields (first : Nat) {x l slots} (hl : ∀ v ∈ l, state.Wanted values v)
    (ho : r.obj i = some o) (hx : r.heap.get? o = some x) (hsize : x.fields.size = slots.length)
    (hlen : first + l.length ≤ x.fields.size) :
    ∃ r' x', Rebuild.fillFields program values state.recipes slots o r first l = .ok r' ∧
      Phase program values state h taken fuel r' ∧ Grows (· = o) r r' ∧
      r'.heap.get? o = some x' ∧ (∀ j < first, x'.fields[j]? = x.fields[j]?) ∧
      ∀ (j : Nat) v ty, l[j]? = some v → slots[first + j]? = some ty →
        ∃ w, v.Denotes values r'.obj w ∧ x'.fields[first + j]? = some (w.narrow ty) := by
  induction l generalizing r x first with
  | nil => exact ⟨r, x, rfl, hr, .refl _ _, hx, fun _ _ => rfl, nofun⟩
  | cons v l ih =>
    obtain ⟨ty, hty⟩ : ∃ ty, slots[first]? = some ty := by
      rw [length_cons, hsize] at hlen
      exact ⟨_, List.getElem?_eq_getElem (by omega)⟩
    obtain ⟨w, r1, he1, hr1, hgrows1, hw⟩ := hr.eval hs (hl v (.head _))
    obtain ⟨x1, hx1, hsame⟩ := hgrows1.kept o x id hx
    have ho1 := hgrows1.obj i o ho
    have hx2 := (Heap.get?_modify r1.heap o o fun x =>
      { x with fields := x.fields.setIfInBounds first (w.narrow ty) })
    rw [if_pos rfl, hx1, Option.map_some] at hx2
    have hgrows2 : Grows (· = o) r1 { r1 with heap := r1.heap.setField o first (w.narrow ty) } :=
      .modify r1 fun h => absurd rfl h
    rw [length_cons, ← hsame] at hlen
    have hlen' : first + 1 + l.length ≤ (x1.fields.setIfInBounds first (w.narrow ty)).size := by
      rw [Array.size_setIfInBounds]
      omega
    obtain ⟨r3, x3, he3, hr3, hgrows3, hx3, hbefore, hslots⟩ :=
      ih (hr1.setField ho1 (w.narrow ty)) (first + 1) (fun v hv => hl v (.tail _ hv)) ho1 hx2
        (by rw [Array.size_setIfInBounds, hsame, hsize]) hlen'
    have hgrows := hgrows2.trans hgrows3
    refine ⟨r3, x3, ?_, hr3, (hgrows1.mono fun _ => False.elim).trans hgrows, hx3, ?_, ?_⟩
    · exact fillFields_cons_eq_ok.2 ⟨w, ty, r1, he1, hty, he3⟩
    · intro j hj
      rw [hbefore j (by omega), Array.getElem?_setIfInBounds_ne (by omega), hsame]
    · rintro (_ | j) v' ty' he hty'
      · cases he
        cases Option.mem_unique hty hty'
        refine ⟨w, hw.mono hgrows.obj, ?_⟩
        rw [Nat.add_zero, hbefore first (by omega),
          Array.getElem?_setIfInBounds_self_of_lt (by omega)]
      · rw [← Nat.add_assoc, Nat.add_right_comm] at hty' ⊢
        exact hslots j v' ty' he hty'

end

/-- Taking up the object that has waited longest leaves enough rounds for the rest. -/
theorem pop {rest} (hr : Phase program values state h taken (n + 1) r)
    (hp : r.pending = idx :: rest) :
    Phase program values state h taken n { r with pending := rest } := by
  have hroom : rest.length + 1 + state.recipes.length ≤ n + 1 + r.count state.recipes.length := by
    simpa [hp] using hr.room
  refine ⟨⟨hr.base.wellFormed, hr.base.old, hr.base.globals, hr.base.built⟩, hr.size, hr.needed,
    hr.distinct, hr.made, hr.only, hr.locks, hr.allocations, hr.counted,
    fun i hi => hr.pending i (hp ▸ .tail _ hi), ?_⟩
  show rest.length + state.recipes.length ≤ n + r.count state.recipes.length
  omega

section

variable (hs : state.Readable program values)
include hs

theorem fill (hr : Phase program values state h taken n r)
    (hfilled : ∀ i o, r.obj i = some o → i ∈ r.pending ∨ r.Filled program values state.recipes i) :
    ∃ m r', Rebuild.fill program values state.recipes n r = .ok r' ∧
      Phase program values state h taken m r' ∧ (∀ i o, r.obj i = some o → r'.obj i = some o) ∧
      ∀ i o, r'.obj i = some o → r'.Filled program values state.recipes i := by
  induction n generalizing r with
  | zero =>
    have hroom := hr.room
    have hle := r.count_le state.recipes.length
    have hnil : r.pending = [] := eq_nil_of_length_eq_zero (by omega)
    rw [hnil] at hfilled
    exact ⟨0, r, rfl, hr, fun _ _ h => h, fun i o ho => (hfilled i o ho).resolve_left nofun⟩
  | succ n ih =>
    rw [Rebuild.fill]
    rcases hp : r.pending with _ | ⟨idx, rest⟩
    · rw [hp] at hfilled
      exact ⟨n + 1, r, rfl, hr, fun _ _ h => h, fun i o ho => (hfilled i o ho).resolve_left nofun⟩
    · obtain ⟨o, ho⟩ := hr.pending idx (hp ▸ (.head _))
      obtain ⟨recipe, x, hrecipe, hx, -, hsize⟩ := hr.made idx o ho
      obtain ⟨r1, x1, he1, hr1, hgrows, hx1, -, hslots⟩ := (hr.pop hp).fillFields hs 0
        (fun v => DebugState.wanted_of_field (hr.needed idx o ho) hrecipe) ho hx hsize
        (by rw [hsize, hs.fields recipe (mem_of_getElem? hrecipe), Nat.zero_add])
      have hdone : r1.Filled program values state.recipes idx := by
        refine ⟨o, recipe, x1, hgrows.obj idx o ho, hrecipe, hx1, fun j v ty hv hty => ?_⟩
        have := hslots j v ty hv (by rwa [Nat.zero_add])
        rwa [Nat.zero_add] at this
      have hstill : ∀ i o', r1.obj i = some o' →
          i ∈ r1.pending ∨ r1.Filled program values state.recipes i := by
        intro i o' ho'
        rcases hgrows.new i o' ho' with hold | hnew
        · by_cases hi : i = idx
          · exact .inr (hi ▸ hdone)
          · rcases hfilled i o' hold with hmem | hfill
            · rw [hp] at hmem
              exact .inl (hgrows.pending i ((mem_cons.1 hmem).resolve_left hi))
            · have hfill : ({ r with pending := rest } : Rebuild).Filled program values
                state.recipes i := hfill
              refine .inr (hfill.mono hgrows hold fun he => hi ?_)
              exact hr.distinct i idx o (he ▸ hold) ho
        · exact .inl hnew
      obtain ⟨m, r', he, hr', hobj, hall⟩ := ih hr1 hstill
      refine ⟨m, r', ?_, hr', fun i o' ho' => hobj i o' (hgrows.obj i o' ho'), hall⟩
      simp only [obj_eq_some.1 ho, hrecipe]
      exact Except.bind_eq_ok.2 ⟨r1, he1, he⟩

/-- When all objects are filled and the locals and monitors have their values, every recipe that is
needed has an object. -/
theorem exists_obj (hfilled : ∀ i o, r.obj i = some o → r.Filled program values state.recipes i)
    {locals monitors : List Value}
    (hlocals : List.Forall₂ (DebugValue.Denotes values r.obj) state.locals locals)
    (hmonitors : List.Forall₂ (fun m w => m.obj.Denotes values r.obj w) state.monitors monitors)
    (hi : state.Needed values i) : ∃ o, r.obj i = some o := by
  induction hi with
  | root hv hsel =>
    obtain ⟨w, hw⟩ : ∃ w, DebugValue.Denotes values r.obj _ w := by
      rcases mem_append.1 hv with hv | hv
      · exact exists_of_forall₂ hlocals hv
      · obtain ⟨m, hm, rfl⟩ := mem_map.1 hv
        exact exists_of_forall₂ hmonitors hm
    obtain ⟨o, ho, -⟩ := hw.of_selects_object hsel
    exact ⟨o, ho⟩
  | field _ hrecipe hv hsel ih =>
    obtain ⟨o, ho⟩ := ih
    obtain ⟨-, recipe', x, -, hrecipe', -, hin⟩ := hfilled _ o ho
    cases Option.mem_unique hrecipe hrecipe'
    obtain ⟨j, hj⟩ := mem_iff_getElem?.1 hv
    have hlt := (List.getElem?_eq_some_iff.1 hj).1
    rw [hs.fields _ (mem_of_getElem? hrecipe)] at hlt
    obtain ⟨w, hw, -⟩ := hin j _ _ hj (List.getElem?_eq_getElem hlt)
    obtain ⟨o', ho', -⟩ := hw.of_selects_object hsel
    exact ⟨o', ho'⟩

theorem rebuilt {d} (hr : Phase program values state h (state.owed d.monitors) fuel r)
    (hfilled : ∀ i o, r.obj i = some o → r.Filled program values state.recipes i)
    (hlocals : List.Forall₂ (DebugValue.Denotes values r.obj) state.locals d.locals)
    (hmonitors : List.Forall₂ (fun m w => m.obj.Denotes values r.obj w) state.monitors d.monitors) :
    state.Rebuilt program values h d r.heap r.obj := by
  refine ⟨fun i => ⟨?_, exists_obj hs hfilled hlocals hmonitors⟩, hr.distinct, hlocals, hmonitors,
    fun i o ho => ?_, fun o x hx => ?_, hr.only, hr.base.globals, hr.allocations, hr.counted⟩
  · rintro ⟨o, ho⟩
    exact hr.needed i o ho
  · have hnone := hr.base.built i o (obj_eq_some.1 ho)
    obtain ⟨recipe, x, hrecipe, hx, hshape, hsize⟩ := hr.made i o ho
    obtain ⟨o', recipe', x', ho', hrecipe', hx', hin⟩ := hfilled i o ho
    cases Option.mem_unique ho ho'
    cases Option.mem_unique hrecipe hrecipe'
    cases Option.mem_unique hx hx'
    refine ⟨hnone, recipe, x, hrecipe, hx, hshape,
      hsize.trans (hs.fields recipe (mem_of_getElem? hrecipe)).symm, hin, ?_⟩
    have hlocks := hr.locks o
    rwa [Heap.locksOf_of_get? hx, Heap.locksOf, hnone, Option.map_none, Option.getD_none,
      Nat.zero_add] at hlocks
  · obtain ⟨x', hx', hshape, hfields⟩ := hr.base.old o x hx
    have hlocks := hr.locks o
    rw [Heap.locksOf_of_get? hx, Heap.locksOf_of_get? hx'] at hlocks
    exact ⟨x'.locks, by rw [hx', ← hshape, ← hfields], hlocks⟩

end

end Phase

end Rebuild

/-- A ring of two recipes, of which one is met through a choice only, and two recipes off the ring,
of which no choice leads to the first. -/
def ringState : DebugState where
  locals := [.merge ⟨0, 1⟩ ⟨1, 1⟩ [.object 2, .object 1], .const .null]
  monitors := [⟨.object 0, true⟩, ⟨.value ⟨1, 1⟩, true⟩, ⟨.object 0, true⟩, ⟨.object 1, false⟩]
  recipes := [⟨.array .ref 2, [.object 1, .object 3]⟩, ⟨.array .ref 1, [.object 0]⟩,
    ⟨.array .int 1, [.value ⟨2, 1⟩]⟩, ⟨.array .byte 2, [.value ⟨2, 1⟩, .const (.int 1)]⟩]

/-- A frame with a selector, a reference to the only object of `ringHeap`, and a number that is no
byte. -/
def ringValues : SideTable .inst Value :=
  SideTable.ofList [(⟨0, 1⟩, .int 1), (⟨1, 1⟩, .ref ⟨0, 1⟩), (⟨2, 1⟩, .int 300)]

def ringHeap : Heap := (Heap.alloc {} {} (.array .long 1)).2

end EscapeAnalysis
