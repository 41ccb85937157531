import EscapeAnalysis.Proofs.PlannedCode
import EscapeAnalysis.Proofs.Records

/-!
# Planned array copies

A copy between arrays of which one has been replaced is planned element by element: as stores into
the array that is there, the highest index first, or as loads from it. The outcome is that of the
copy (`PlanContext.planCopy_simulates`). Positions add up without regard to the range of ints: where
a sum leaves it the index is negative, and the access fails. So does the copy, unless the array is
longer than ints can tell, and no instruction makes such an array (`Machine.length_lt_of_alloc`).
-/

namespace EscapeAnalysis

open List Machine Planner

theorem not_within_ofNat {k size} (hout : ¬(k < size ∧ k < 2 ^ 31)) (hlt : k < 2 ^ 32) :
    ¬(0 ≤ (Int32.ofNat k).toInt ∧ (Int32.ofNat k).toInt.toNat < size) := by
  rw [Int32.toInt_ofNat', Int.bmod_def, Int32.size]
  split <;> omega

/-! ## Writes one by one -/

theorem writeSlots_append_singleton (fields : Array Value) (first : Nat) (ws : List Value)
    (w : Value) : writeSlots (writeSlots fields (first + ws.length) [w]) first ws =
      writeSlots fields first (ws ++ [w]) := by
  apply Array.ext_getElem?
  intro i
  simp only [getElem?_writeSlots, size_writeSlots, length_append, length_singleton]
  by_cases hin : first ≤ i ∧ i < first + ws.length ∧ i < fields.size
  · rw [if_pos hin, if_pos (by omega), List.getElem?_append_left (by omega)]
  · rw [if_neg hin]
    by_cases hlast : i = first + ws.length ∧ i < fields.size
    · obtain ⟨rfl, hlt⟩ := hlast
      rw [if_pos (by omega), if_pos (by omega), Nat.sub_self, Nat.add_sub_cancel_left,
        List.getElem?_append_right (Nat.le_refl _), Nat.sub_self]
    · rw [if_neg (by omega), if_neg (by omega)]

theorem Heap.modify_modify (h : Heap) (o : ObjRef) (g g' : Object → Object) :
    (h.modify o g).modify o g' = h.modify o (g' ∘ g) := by
  simp only [modify, SlotTable.modify]
  congr 2
  apply Array.ext_getElem?
  intro i
  simp only [Array.getElem?_modify]
  split
  · rcases h.objects.slots[i]? with _ | slot
    · rfl
    · simp only [Option.map_some, Option.some.injEq]
      split <;> simp_all
  · rfl

theorem write_nil (p : Program) (h : Heap) (r : ObjRef) (first : Nat) :
    ((Effect.write r first []).apply p h).2 = h := by
  have hsame : ∀ obj : Object, { obj with fields := writeSlots obj.fields first [] } = obj :=
    fun _ => rfl
  simp only [Effect.apply, Heap.modify, SlotTable.modify, hsame, Option.map_id']
  have hslots : h.objects.slots.modify r.index (fun slot =>
      if slot.version = r.version then slot else slot) = h.objects.slots := by
    apply Array.ext_getElem?
    intro i
    simp [Array.getElem?_modify]
  rw [hslots]

theorem write_append_singleton (p : Program) (h : Heap) (r : ObjRef) (first : Nat)
    (ws : List Value) (w : Value) :
    ((Effect.write r first ws).apply p
      ((Effect.write r (first + ws.length) [w]).apply p h).2).2 =
      ((Effect.write r first (ws ++ [w])).apply p h).2 := by
  simp only [Effect.apply, Heap.modify_modify]
  congr 1
  funext obj
  simp only [Function.comp, writeSlots_append_singleton]

/-! ## Accesses and copies in full -/

namespace Machine

variable {m : Machine} {f : Frame} {h : Heap} {x array index value : InstId} {r : ObjRef}
  {obj : Object} {elem : Ty} {w : Value} {k : Int32}

section

variable (ha : f.values.get? array = some .null)
include ha

theorem target_null : target f array = .error (.thrown .nullPointer) := by
  rw [target, Frame.get_eq_ok.2 ha]
  rfl

theorem eval_loadElem_null :
    m.eval f h x (.loadElem array index) = .error (.thrown .nullPointer) := by
  rw [eval, target_null ha]
  rfl

theorem eval_storeElem_null :
    m.eval f h x (.storeElem array index value) = .error (.thrown .nullPointer) := by
  rw [eval, target_null ha]
  rfl

end

section

variable (ha : f.values.get? array = some (.ref r)) (hk : f.values.get? index = some (.int k))
  (hobj : h.get? r = some obj)
include ha hk hobj

theorem eval_loadElem_eq :
    m.eval f h x (.loadElem array index) =
      if _ : 0 ≤ k.toInt ∧ k.toInt.toNat < obj.fields.size then
        .ok (.value obj.fields[k.toInt.toNat])
      else .error (.thrown .indexOutOfBounds) := by
  simp only [eval, target_eq_ok.2 ha, object_eq_ok.2 hobj, Frame.get_eq_ok.2 hk, Value.toInt?,
    orFail, bind, Except.bind, pure, Except.pure, raise, throw, throwThe, MonadExceptOf.throw]
  by_cases hin : 0 ≤ k.toInt ∧ k.toInt.toNat < obj.fields.size
  · rw [if_neg (by omega), dif_pos hin, Array.getElem?_eq_getElem hin.2]
  · rw [dif_neg hin]
    split
    · rfl
    · rw [Array.getElem?_eq_none (by omega)]

theorem eval_storeElem_eq (helem : obj.elem? = some elem) (hv : f.values.get? value = some w) :
    m.eval f h x (.storeElem array index value) =
      if 0 ≤ k.toInt ∧ k.toInt.toNat < obj.fields.size then
        .ok (.write r k.toInt.toNat [w.narrow elem])
      else .error (.thrown .indexOutOfBounds) := by
  simp only [eval, target_eq_ok.2 ha, object_eq_ok.2 hobj, Frame.get_eq_ok.2 hk,
    Frame.get_eq_ok.2 hv, Value.toInt?, helem, orFail, bind, Except.bind, pure, Except.pure, raise,
    throw, throwThe, MonadExceptOf.throw]

end

/-- Arrays are made with lengths that ints can tell. -/
theorem length_lt_of_alloc {op : Op} {n} (he : m.eval f h x op = .ok (.alloc (.array elem n))) :
    n < 2 ^ 31 := by
  cases acts_of_eval he with
  | newArray hlen hpos =>
    have hlt := Int32.toInt_lt ‹_›
    omega

section Copies

/-- The operands of a copy have the values `i`, `j` and `n`, which ints can tell. -/
structure Ranged (f : Frame) (srcPos dstPos len : InstId) (i j n : Nat) : Prop where
  src : f.values.get? srcPos = some (.int (.ofNat i)) ∧ i < 2 ^ 31
  dst : f.values.get? dstPos = some (.int (.ofNat j)) ∧ j < 2 ^ 31
  len : f.values.get? len = some (.int (.ofNat n)) ∧ n < 2 ^ 31

variable {src srcPos dst dstPos len : InstId} {i j n : Nat} {d : ObjRef} {source dest : Object}

theorem eval_arrayCopy_null_src (hs : f.values.get? src = some .null) :
    m.eval f h x (.arrayCopy src srcPos dst dstPos len) = .error (.thrown .nullPointer) := by
  rw [eval, arrayCopy, target_null hs]
  rfl

theorem eval_arrayCopy_null_dst (hs : f.values.get? src = some (.ref r))
    (hd : f.values.get? dst = some .null) :
    m.eval f h x (.arrayCopy src srcPos dst dstPos len) = .error (.thrown .nullPointer) := by
  rw [eval, arrayCopy, target_eq_ok.2 hs]
  change (target f dst >>= _) = _
  rw [target_null hd]
  rfl

theorem eval_arrayCopy_eq (hs : f.values.get? src = some (.ref r))
    (hd : f.values.get? dst = some (.ref d)) (hsource : h.get? r = some source)
    (hdest : h.get? d = some dest) (hsrcElem : source.elem? = some elem)
    (hdstElem : dest.elem? = some elem) (hrange : Ranged f srcPos dstPos len i j n) :
    m.eval f h x (.arrayCopy src srcPos dst dstPos len) =
      if i + n ≤ source.fields.size ∧ j + n ≤ dest.fields.size then
        .ok (.write d j ((source.fields.toList.drop i).take n))
      else .error (.thrown .indexOutOfBounds) := by
  have hbound : ∀ {y : InstId} {k : Nat}, f.values.get? y = some (.int (.ofNat k)) ∧ k < 2 ^ 31 →
      copyBound f y = .ok (k : Int) := fun hy =>
    copyBound_eq_ok.2 ⟨_, hy.1, (Int32.toInt_ofNat_of_lt hy.2).symm⟩
  simp only [eval, arrayCopy, target_eq_ok.2 hs, target_eq_ok.2 hd, object_eq_ok.2 hsource,
    object_eq_ok.2 hdest, hbound hrange.src, hbound hrange.dst, hbound hrange.len, bind,
    Except.bind, hsrcElem, hdstElem, Option.isSome_some, and_self, if_true, Int.toNat_natCast]
  by_cases hin : i + n ≤ source.fields.size ∧ j + n ≤ dest.fields.size
  · rw [if_pos hin, if_neg (by omega)]
    rfl
  · rw [if_neg hin, if_pos (by omega)]
    rfl

end Copies

end Machine

namespace PlanContext

variable {c : PlanContext} {m : Machine} {name : Scalar → InstId} {s s' s₁ s₂ : Planner}
  {f f' : Frame} {h h' : Heap} {b : BlockId} {x array : InstId} {r : ObjRef} {obj : Object}
  {elem : Ty} {pos n : Nat} {isRef : Bool} {v : Scalar} {vs : List Scalar} {w : Value}
  {ws : List Value} {ty : Option Ty} {halt : Halt} {inst : Inst}

/-! ## Stores into a real array -/

def storeOne (b : BlockId) (x array : InstId) (isRef : Bool) (pos : Nat) (v : Scalar)
    (s : Planner) : Planner :=
  let s' := (s.addTemp b x (.storeElem (.inst array) (.const (.int (.ofNat pos))) v) none).2
  if isRef then (s'.addTemp b x (.barrier s.temps.size) none).2 else s'

theorem storeElems_append_singleton :
    storeElems b x array isRef pos (vs ++ [v]) s =
      storeElems b x array isRef pos vs (storeOne b x array isRef (pos + vs.length) v s) := by
  simp [storeElems, zipIdx_append, storeOne]

theorem extends_storeOne : s.Extends (storeOne b x array isRef pos v s) := by
  rw [storeOne]
  split
  · exact (extends_addTemp ..).trans (extends_addTemp ..)
  · exact extends_addTemp ..

theorem extends_storeElems : s.Extends (storeElems b x array isRef pos vs s) := by
  induction vs using List.reverseRecOn generalizing s with
  | nil => exact .refl s
  | append_singleton vs v ih =>
    rw [storeElems_append_singleton]
    exact extends_storeOne.trans ih

theorem opsSince_storeOne : (storeOne b x array isRef pos v s).opsSince s =
    .storeElem (.inst array) (.const (.int (.ofNat pos))) v ::
      if isRef then [.barrier s.temps.size] else [] := by
  cases isRef <;> simp [storeOne, opsSince, addTemp]

theorem run_storeOne {k}
    (hop : m.eval f h (name (.temp s.temps.size))
      ((TempOp.storeElem (.inst array) (.const (.int (.ofNat pos))) v).named name) =
        .ok (.write r k ws)) :
    m.runPlanned name s (storeOne b x array isRef pos v s) f h =
      (.ok f, ((Effect.write r k ws).apply m.program h).2) := by
  rw [runPlanned, opsSince_storeOne, runTemps_cons_of_ok hop]
  cases isRef <;> rfl

theorem run_storeOne_of_error
    (hop : m.eval f h (name (.temp s.temps.size)) ((TempOp.storeElem (.inst array) (.const (.int
      (.ofNat pos))) v).named name) = .error halt) :
    m.runPlanned name s (storeOne b x array isRef pos v s) f h = (.error halt, h) := by
  rw [runPlanned, opsSince_storeOne, runTemps_cons_of_error hop]

theorem get?_of_storeOne (he : m.Emitted c name s s' f) (hs : s.Extends s₁)
    (hs' : (storeOne b x array isRef pos v s₁).Extends s') :
    f.values.get? (name (.const (.int (.ofNat pos)))) = some (.int (.ofNat pos)) ∧
      f.values.get? (name v) = v.read? name f := by
  have hadd : (s₁.addTemp b x (.storeElem (.inst array) (.const (.int (.ofNat pos))) v)
      none).2.Extends (storeOne b x array isRef pos v s₁) := by
    rw [storeOne]
    split
    · exact extends_addTemp ..
    · exact .refl _
  have ht := (hadd.trans hs').getElem? (getElem?_addTemp ..)
  exact ⟨he.get?_operand hs.size_le ht (by simp [TempOp.operands]),
    he.get?_operand hs.size_le ht (by simp [TempOp.operands])⟩

section

variable (he : m.Emitted c name s s' f) (ha : f.values.get? (name (.inst array)) = some (.ref r))
include he ha

theorem run_storeElems
    (hread : vs.map (Scalar.read? name f) = ws.map some) (hfit : ∀ w ∈ ws, w.narrow elem = w)
    (hs : s.Extends s₁) (hs' : (storeElems b x array isRef pos vs s₁).Extends s')
    (hobj : h.get? r = some obj) (helem : obj.elem? = some elem)
    (hin : pos + vs.length ≤ obj.fields.size) (hint : pos + vs.length ≤ 2 ^ 31) :
    m.runPlanned name s₁ (storeElems b x array isRef pos vs s₁) f h =
      (.ok f, ((Effect.write r pos ws).apply m.program h).2) := by
  induction vs using List.reverseRecOn generalizing s₁ h obj ws with
  | nil =>
    obtain rfl : ws = [] := by simpa using hread.symm
    rw [write_nil]
    exact runPlanned_of_temps_eq rfl
  | append_singleton vs v ih =>
    rw [map_append] at hread
    obtain ⟨ws, ws', rfl, hfirst, hlast⟩ := map_eq_append_iff.1 hread.symm
    obtain ⟨w, rfl, hw⟩ : ∃ w, ws' = [w] ∧ v.read? name f = some w := by
      obtain ⟨w, ws'', rfl, hw, hnil⟩ := map_eq_cons_iff.1 hlast
      exact ⟨w, by simpa using hnil, hw.symm⟩
    have hlen : ws.length = vs.length := by simpa using congrArg List.length hfirst
    rw [length_append, length_singleton] at hin hint
    rw [storeElems_append_singleton] at hs' ⊢
    -- the last element is stored first
    have hone : s₁.Extends (storeOne b x array isRef (pos + vs.length) v s₁) := extends_storeOne
    obtain ⟨hidx, hval⟩ := get?_of_storeOne he hs (extends_storeElems.trans hs')
    have hstore := eval_storeElem_eq (m := m) (x := name (.temp s₁.temps.size)) ha hidx hobj
      helem (hval.trans hw)
    rw [Int32.toInt_ofNat_of_lt (by omega), Int.toNat_natCast, if_pos (by omega),
      hfit w (by simp)] at hstore
    have hobj' : ((Effect.write r (pos + vs.length) [w]).apply m.program h).2.get? r =
        some { obj with fields := writeSlots obj.fields (pos + vs.length) [w] } := by
      simp [Effect.apply, Heap.get?_modify, hobj]
    rw [runPlanned_trans hone extends_storeElems (run_storeOne hstore),
      ih hfirst.symm (fun w' hw' => hfit w' (by simp [hw'])) (hs.trans hone) hs' hobj' helem
        (by rw [size_writeSlots]; omega) (by omega), ← hlen, write_append_singleton]

/-- If the last store is out of bounds, which is the first one made, then nothing is written. -/
theorem run_storeElems_of_out (hread : ∀ v ∈ vs, ∃ w, v.read? name f = some w) (hvs : vs ≠ [])
    (hs' : (storeElems b x array isRef pos vs s).Extends s') (hobj : h.get? r = some obj)
    (helem : obj.elem? = some elem)
    (hout : ¬(pos + vs.length ≤ obj.fields.size ∧ pos + vs.length ≤ 2 ^ 31))
    (hpos : pos + vs.length ≤ 2 ^ 32) :
    m.runPlanned name s (storeElems b x array isRef pos vs s) f h =
      (.error (.thrown .indexOutOfBounds), h) := by
  obtain ⟨vs, v, rfl⟩ := eq_nil_or_concat vs |>.resolve_left hvs
  rw [concat_eq_append] at hs' hout hpos hread ⊢
  rw [length_append, length_singleton] at hout hpos
  rw [storeElems_append_singleton] at hs' ⊢
  obtain ⟨w, hw⟩ := hread v (by simp)
  obtain ⟨hidx, hval⟩ := get?_of_storeOne he (.refl s) (extends_storeElems.trans hs')
  have hstore := eval_storeElem_eq (m := m) (x := name (.temp s.temps.size)) ha hidx hobj
    helem (hval.trans hw)
  rw [if_neg (not_within_ofNat (by omega) (by omega))] at hstore
  exact runPlanned_trans_of_error extends_storeOne extends_storeElems
    (run_storeOne_of_error hstore)

end

theorem run_storeElems_null (ha : f.values.get? (name (.inst array)) = some .null)
    (hvs : vs ≠ []) : m.runPlanned name s (storeElems b x array isRef pos vs s) f h =
      (.error (.thrown .nullPointer), h) := by
  obtain ⟨vs, v, rfl⟩ := eq_nil_or_concat vs |>.resolve_left hvs
  rw [concat_eq_append, storeElems_append_singleton]
  exact runPlanned_trans_of_error extends_storeOne extends_storeElems
    (run_storeOne_of_error (eval_storeElem_null ha))

/-! ## Loads from a real array -/

theorem extends_loadElems_of_le {k} (hk : k ≤ n) :
    (loadElems b x array ty pos k s).2.Extends (loadElems b x array ty pos n s).2 := by
  induction hk with
  | refl => exact .refl _
  | step _ ih =>
    rw [loadElems_succ]
    exact ih.trans (extends_addTemp ..)

theorem extends_loadElems : s.Extends (loadElems b x array ty pos n s).2 :=
  extends_loadElems_of_le (Nat.zero_le n)

theorem run_loadElems_of_error {k} (hk : k < n)
    (hrun : m.runPlanned name s (loadElems b x array ty pos k s).2 f h = (.ok f', h))
    (herror : m.eval f' h (name (.temp (loadElems b x array ty pos k s).2.temps.size))
      ((TempOp.loadElem (.inst array) (.const (.int (.ofNat (pos + k))))).named name) =
        .error halt) :
    m.runPlanned name s (loadElems b x array ty pos n s).2 f h = (.error halt, h) := by
  refine runPlanned_trans_of_error extends_loadElems (extends_loadElems_of_le hk) ?_
  rw [runPlanned_trans extends_loadElems (extends_loadElems_of_le k.le_succ) hrun,
    loadElems_succ, runPlanned, opsSince_addTemp,
    runTemps_cons_of_error herror]

section

variable (hy : c.body.insts.get? array = some inst)
  (ha : f.values.get? (name (.inst array)) = some (.ref r))
include hy ha

theorem get?_of_loadElems
    (hs' : (loadElems b x array ty pos (n + 1) s).2.Extends s')
    (hf' : m.Computes c name s s' s (loadElems b x array ty pos n s).2 h f f') :
    f'.values.get? (name (.inst array)) = some (.ref r) ∧
      f'.values.get? (name (.const (.int (.ofNat (pos + n))))) =
        some (.int (.ofNat (pos + n))) := by
  rw [loadElems_succ] at hs'
  exact ⟨(hf'.keeps (.inst array) (.inst hy)).trans ha, hf'.emitted.get?_operand
    extends_loadElems.size_le (hs'.getElem? (getElem?_addTemp ..))
    (v := .const (.int (.ofNat (pos + n)))) (by simp [TempOp.operands])⟩

variable (he : m.Emitted c name s s' f) (hobj : h.get? r = some obj)
include he hobj

theorem computes_loadElems
    (hs' : (loadElems b x array ty pos n s).2.Extends s')
    (hin : ∀ k < n, pos + k < obj.fields.size ∧ pos + k < 2 ^ 31) :
    ∃ f', m.Computes c name s s' s (loadElems b x array ty pos n s).2 h f f' ∧
      (loadElems b x array ty pos n s).1.map (Scalar.read? name f') =
        ((obj.fields.toList.drop pos).take n).map some ∧
      ∀ v ∈ (loadElems b x array ty pos n s).1,
        Planner.Known c.body s (loadElems b x array ty pos n s).2 v := by
  induction n with
  | zero => exact ⟨f, .of_temps_eq he rfl, by simp [loadElems], by simp [loadElems]⟩
  | succ n ih =>
    have hstep := hs'
    rw [loadElems_succ] at hs' ⊢
    obtain ⟨f1, hf1, hread, hknown⟩ := ih ((extends_addTemp ..).trans hs')
      fun k hk => hin k (by omega)
    obtain ⟨hlt, hint⟩ := hin n (by omega)
    obtain ⟨harray, hidx⟩ := get?_of_loadElems hy ha hstep hf1
    have hload := eval_loadElem_eq (m := m)
      (x := name (.temp (loadElems b x array ty pos n s).2.temps.size)) harray hidx hobj
    simp only [Int32.toInt_ofNat_of_lt hint, Int.toNat_natCast] at hload
    rw [dif_pos ⟨by omega, hlt⟩] at hload
    obtain ⟨f2, hf2, hlast⟩ := Machine.Computes.addTemp hf1.emitted extends_loadElems hs' hload
    refine ⟨f2, hf1.trans extends_loadElems (extends_addTemp ..) hf2, ?_, fun v hv => ?_⟩
    · have hold : (loadElems b x array ty pos n s).1.map (Scalar.read? name f2) =
          (loadElems b x array ty pos n s).1.map (Scalar.read? name f1) :=
        map_congr_left fun v hv => hf2.keeps v (hknown v hv)
      have hnext : (obj.fields.toList.drop pos)[n]? = some obj.fields[pos + n] := by
        rw [List.getElem?_drop, Array.getElem?_toList, Array.getElem?_eq_getElem hlt]
      rw [map_append, hold, hread, map_singleton, take_add_one, hnext,
        map_append]
      exact congrArg (_ ++ [·]) hlast
    · rcases mem_append.1 hv with hv | hv
      · exact (hknown v hv).mono (extends_addTemp ..)
      · rw [mem_singleton.1 hv]
        exact .temp (by simp [addTemp])

/-- Loads that go beyond the array, or beyond what ints can tell, throw at the first index that
does. -/
theorem run_loadElems_of_out (hs' : (loadElems b x array ty pos n s).2.Extends s') (hn : 0 < n)
    (hout : ¬(pos + n ≤ obj.fields.size ∧ pos + n ≤ 2 ^ 31)) (hpos : pos < 2 ^ 31)
    (hend : pos + n ≤ 2 ^ 32) :
    m.runPlanned name s (loadElems b x array ty pos n s).2 f h =
      (.error (.thrown .indexOutOfBounds), h) := by
  have hfirst : min obj.fields.size (2 ^ 31) - pos < n := by omega
  obtain ⟨f1, hf1, -⟩ := computes_loadElems hy ha he hobj
    ((extends_loadElems_of_le (Nat.le_of_lt hfirst)).trans hs') fun k hk => ⟨by omega, by omega⟩
  obtain ⟨harray, hidx⟩ := get?_of_loadElems hy ha ((extends_loadElems_of_le hfirst).trans hs') hf1
  refine run_loadElems_of_error hfirst hf1.run ?_
  exact (eval_loadElem_eq harray hidx hobj).trans
    (dif_neg (not_within_ofNat (by omega) (by omega)))

end

theorem run_loadElems_null (ha : f.values.get? (name (.inst array)) = some .null) (hn : 0 < n) :
    m.runPlanned name s (loadElems b x array ty pos n s).2 f h =
      (.error (.thrown .nullPointer), h) :=
  run_loadElems_of_error hn (runPlanned_of_temps_eq rfl) (eval_loadElem_null ha)

/-! ## Copies -/

section Copies

variable {src dst srcPos dstPos len : InstId} {so d : ScalarObject} {i j : Nat}
  {home : ScalarObject → Option ObjRef} {m₀ : Machine} {f₀ : Frame} {h₀ : Heap}
  {srcObj dstObj : Option ScalarObject}

theorem planCopy_both (hi : i + n ≤ so.slots) (hj : j + n ≤ d.slots) :
    c.planCopy b x src dst (some so) (some d) i j n s =
      (s.setFrom (d.base + j) (s.getFrom (so.base + i) n)).kill x := by
  simp [planCopy, Option.filter, Nat.not_lt.2 hi, Nat.not_lt.2 hj]

theorem planCopy_store (hi : i + n ≤ so.slots) (hn : 0 < n) :
    c.planCopy b x src dst (some so) none i j n s =
      (storeElems b x dst (so.shape.elem? == some .ref) j (s.getFrom (so.base + i) n)
        s).kill x := by
  simp [planCopy, Option.filter, Nat.not_lt.2 hi, Nat.ne_of_gt hn]

theorem planCopy_load (hj : j + n ≤ d.slots) (hn : 0 < n) :
    c.planCopy b x src dst none (some d) i j n s =
      ((loadElems b x src (d.shape.elem?.map Ty.stack) i n s).2.setFrom (d.base + j)
        (loadElems b x src (d.shape.elem?.map Ty.stack) i n s).1).kill x := by
  simp [planCopy, Option.filter, Nat.not_lt.2 hj, Nat.ne_of_gt hn]

/-- How two runs have an array, or null, as operand `y`: the one has it in its heap `h₀`; the other
has variables in its place, or has it in its heap `h` too. -/
inductive Operand (c : PlanContext) (name : Scalar → InstId) (home : ScalarObject → Option ObjRef)
    (elem : Ty) (f₀ : Frame) (h₀ : Heap) (f : Frame) (h : Heap) (y : InstId) :
    Option ScalarObject → Prop
  | replaced {o : ScalarObject} {r} (ho : o ∈ c.layout.objects) (hr : home o = some r)
      (helem : o.shape.elem? = some elem) (hy₀ : f₀.values.get? y = some (.ref r)) :
      Operand c name home elem f₀ h₀ f h y (some o)
  | real {r : ObjRef} {obj inst} (hinst : c.body.insts.get? y = some inst)
      (hy₀ : f₀.values.get? y = some (.ref r)) (hy : f.values.get? (name (.inst y)) = some (.ref r))
      (hobj₀ : h₀.get? r = some obj) (hobj : h.get? r = some obj) (helem : obj.elem? = some elem)
      (hr : ∀ o ∈ c.layout.objects, home o ≠ some r) :
      Operand c name home elem f₀ h₀ f h y none
  | null (hy₀ : f₀.values.get? y = some .null) (hy : f.values.get? (name (.inst y)) = some .null) :
      Operand c name home elem f₀ h₀ f h y none

/-- A range that ends at `stop` lies in the array `y`, which is real, but it goes beyond what ints
can tell. -/
def PastInts (f₀ : Frame) (h₀ : Heap) (y : InstId) (o : Option ScalarObject) (stop : Nat) : Prop :=
  o = none ∧ 2 ^ 31 < stop ∧
    ∃ r obj, f₀.values.get? y = some (.ref r) ∧ h₀.get? r = some obj ∧ stop ≤ obj.fields.size

theorem Mirrors.getFrom (hm : c.Mirrors name home s f h₀) {o} (ho : o ∈ c.layout.objects)
    (hr : home o = some r) (hobj : h₀.get? r = some obj) (hin : i + n ≤ o.slots) :
    (s.getFrom (o.base + i) n).map (Scalar.read? name f) =
      ((obj.fields.toList.drop i).take n).map some := by
  obtain ⟨obj', hobj', -, hsize, hvars⟩ := hm o ho r hr
  obtain rfl : obj' = obj := Option.mem_unique hobj' hobj
  apply ext_getElem?
  intro k
  simp only [List.getElem?_map, List.getElem?_take, List.getElem?_drop, Array.getElem?_toList]
  by_cases hk : k < n
  · rw [getElem?_getFrom s hk, if_pos hk, Option.map_some, Nat.add_assoc,
      hvars (i + k) (by omega), Array.getElem?_eq_getElem (by omega)]
    rfl
  · rw [if_neg hk, List.getElem?_eq_none (by rw [length_getFrom]; omega)]
    rfl

theorem narrow_of_mem (hw : h₀.WellShaped m₀.program) (hobj : h₀.get? r = some obj)
    (helem : obj.elem? = some elem) (hmem : w ∈ obj.fields) : w.narrow elem = w := by
  obtain ⟨k, hk, rfl⟩ := Array.getElem_of_mem hmem
  obtain ⟨t, ht, hfits⟩ := hw.slot hobj (Array.getElem?_eq_getElem hk)
  rw [← Heap.slots_of_elem? helem ht]
  exact hfits.narrow

theorem env_storeElems : (storeElems b x array isRef pos vs s).env = s.env := by
  induction vs using List.reverseRecOn generalizing s with
  | nil => rfl
  | append_singleton vs v ih =>
    rw [storeElems_append_singleton, ih, storeOne]
    split <;> rfl

theorem env_loadElems : (loadElems b x array ty pos n s).2.env = s.env := by
  induction n with
  | zero => rfl
  | succ n ih =>
    rw [loadElems_succ]
    exact ih

/-- What runs in place of an operation ends as the operation does: with the same exception and
nothing written, or with the same writes to the heap, if there are any to real objects, and with the
variables in step with the objects that they stand for. -/
def Follows (c : PlanContext) (m : Machine) (name : Scalar → InstId)
    (home : ScalarObject → Option ObjRef) (s s' : Planner) (f : Frame) (h h₀ : Heap) (real : Bool) :
    Except Halt Effect → Prop
  | .error halt => (halt = .thrown .nullPointer ∨ halt = .thrown .indexOutOfBounds) ∧
      m.runPlanned name s s' f h = (.error halt, h)
  | .ok effect => ∃ f', m.runPlanned name s s' f h =
      (.ok f', if real then (effect.apply m.program h).2 else h) ∧
      c.Mirrors name home s' f' (effect.apply m.program h₀).2

theorem follows_both
    (hb : c.Beside m name home s (c.planCopy b x src dst (some so) (some d) i j n s) f h₀)
    (hsrc : c.Operand name home elem f₀ h₀ f h src (some so))
    (hdst : c.Operand name home elem f₀ h₀ f h dst (some d))
    (hrange : Machine.Ranged f₀ srcPos dstPos len i j n)
    (hsrcIn : i + n ≤ so.slots) (hdstIn : j + n ≤ d.slots) :
    c.Follows m name home s (c.planCopy b x src dst (some so) (some d) i j n s) f h h₀ false
      (m₀.eval f₀ h₀ x (.arrayCopy src srcPos dst dstPos len)) := by
  obtain ⟨hso, hsr, hselem, hsy⟩ := hsrc
  obtain ⟨hdo, hdr, hdelem, hdy⟩ := hdst
  obtain ⟨source, hsource, hsshape, hssize, -⟩ := hb.mirrors so hso _ hsr
  obtain ⟨dest, hdest, hdshape, hdsize, -⟩ := hb.mirrors d hdo _ hdr
  have hread := hb.mirrors.getFrom hso hsr hsource hsrcIn
  have hbase := hb.packed.within d hdo
  rw [eval_arrayCopy_eq hsy hdy hsource hdest (by rw [Object.elem?, hsshape, hselem])
    (by rw [Object.elem?, hdshape, hdelem]) hrange, if_pos (by omega)]
  rw [planCopy_both hsrcIn hdstIn]
  refine ⟨f, runPlanned_of_temps_eq (temps_setFrom ..), ?_⟩
  refine hb.mirrors.write hb.packed hb.apart hdo hdr hread ?_ (fun _ => rfl) (fun var => ?_) _
  · rw [length_getFrom]
    exact hdstIn
  · refine get_setFrom s ?_ var
    rw [length_getFrom, hb.env]
    omega

/-- What the planned stores find in the variables of the array that has been replaced. -/
theorem Beside.read_getFrom {s' : Planner} (hb : c.Beside m name home s s' f h₀)
    (hsrc : c.Operand name home elem f₀ h₀ f h src (some so)) (hin : i + n ≤ so.slots) :
    ∀ v ∈ s.getFrom (so.base + i) n, ∃ w, v.read? name f = some w := by
  obtain ⟨hso, hsr, -, -⟩ := hsrc
  obtain ⟨source, hsource, -⟩ := hb.mirrors so hso _ hsr
  intro v hv
  have hsome : v.read? name f ∈ (s.getFrom (so.base + i) n).map (Scalar.read? name f) :=
    mem_map_of_mem hv
  rw [hb.mirrors.getFrom hso hsr hsource hin] at hsome
  obtain ⟨w, -, hw⟩ := mem_map.1 hsome
  exact ⟨w, hw.symm⟩

theorem throws_store
    (hb : c.Beside m name home s (c.planCopy b x src dst (some so) none i j n s) f h₀)
    (hsrc : c.Operand name home elem f₀ h₀ f h src (some so))
    (hy : f.values.get? (name (.inst dst)) = some (.ref r)) (hobj : h.get? r = some obj)
    (helem : obj.elem? = some elem) (hpos : 0 < n) (hend : j + n ≤ 2 ^ 32)
    (hin : i + n ≤ so.slots) (hout : ¬(j + n ≤ obj.fields.size ∧ j + n ≤ 2 ^ 31)) :
    m.runPlanned name s (c.planCopy b x src dst (some so) none i j n s) f h =
      (.error (.thrown .indexOutOfBounds), h) := by
  have hread := hb.read_getFrom hsrc hin
  have hlen := length_getFrom s (so.base + i) n
  rw [planCopy_store hin hpos] at hb ⊢
  exact (runPlanned_kill x).trans (run_storeElems_of_out hb.emitted hy hread
    (ne_nil_of_length_pos (by omega)) (.of_temps_eq rfl) hobj helem (by omega) (by omega))

theorem follows_store
    (hb : c.Beside m name home s (c.planCopy b x src dst (some so) none i j n s) f h₀)
    (hw : h₀.WellShaped m₀.program) (hsrc : c.Operand name home elem f₀ h₀ f h src (some so))
    (hdst : c.Operand name home elem f₀ h₀ f h dst none)
    (hrange : Machine.Ranged f₀ srcPos dstPos len i j n) (hpos : 0 < n)
    (hsrcIn : i + n ≤ so.slots) (hints : ¬ PastInts f₀ h₀ dst none (j + n)) :
    c.Follows m name home s (c.planCopy b x src dst (some so) none i j n s) f h h₀ true
      (m₀.eval f₀ h₀ x (.arrayCopy src srcPos dst dstPos len)) := by
  have hj := hrange.dst.2
  have hn := hrange.len.2
  have hplan : c.planCopy b x src dst (some so) none i j n s =
    (storeElems b x dst (so.shape.elem? == some .ref) j (s.getFrom (so.base + i) n) s).kill x :=
    planCopy_store hsrcIn hpos
  obtain ⟨hso, hsr, hselem, hsy⟩ := id hsrc
  obtain ⟨source, hsource, hsshape, hssize, -⟩ := hb.mirrors so hso _ hsr
  have hread := hb.mirrors.getFrom hso hsr hsource hsrcIn
  have hlen := length_getFrom s (so.base + i) n
  have hne : s.getFrom (so.base + i) n ≠ [] := ne_nil_of_length_pos (by omega)
  have hsourceElem : source.elem? = some elem := by rw [Object.elem?, hsshape, hselem]
  cases hdst with
  | null hdy0 hdy =>
    rw [eval_arrayCopy_null_dst hsy hdy0, hplan]
    exact ⟨.inl rfl, (runPlanned_kill x).trans (run_storeElems_null hdy hne)⟩
  | @real r obj _ _ hdy0 hdy hobj0 hobj hdelem hdr =>
    rw [eval_arrayCopy_eq hsy hdy0 hsource hobj0 hsourceElem hdelem hrange]
    split
    · rename_i hin
      have hint : j + n ≤ 2 ^ 31 :=
        Nat.not_lt.1 fun hlt => hints ⟨rfl, hlt, r, obj, hdy0, hobj0, hin.2⟩
      rw [hplan] at hb ⊢
      refine ⟨f, (runPlanned_kill x).trans ?_, ?_⟩
      · refine run_storeElems hb.emitted hdy hread (fun w hmem => ?_) (.refl s) (.of_temps_eq rfl)
          hobj hdelem (by omega) (by omega)
        exact narrow_of_mem hw hsource hsourceElem
          (Array.mem_toList_iff.1 (mem_of_mem_drop (mem_of_mem_take hmem)))
      · exact hb.mirrors.write_real env_storeElems hdr _ _ _
    · exact ⟨.inr rfl,
        throws_store hb hsrc hdy hobj hdelem hpos (by omega) hsrcIn (by omega)⟩

/-- Of a copy into an array that has been replaced, only the loads run. -/
theorem runPlanned_load (hpos : 0 < n) (hin : j + n ≤ d.slots) :
    m.runPlanned name s (c.planCopy b x src dst none (some d) i j n s) f h =
      m.runPlanned name s (loadElems b x src (d.shape.elem?.map Ty.stack) i n s).2 f h := by
  rw [planCopy_load hin hpos]
  exact runPlanned_congr name (temps_setFrom ..)

theorem throws_load
    (hb : c.Beside m name home s (c.planCopy b x src dst none (some d) i j n s) f h₀)
    (hinst : c.body.insts.get? src = some inst)
    (hy : f.values.get? (name (.inst src)) = some (.ref r)) (hobj : h.get? r = some obj)
    (hpos : 0 < n) (hi : i < 2 ^ 31) (hend : i + n ≤ 2 ^ 32) (hin : j + n ≤ d.slots)
    (hout : ¬(i + n ≤ obj.fields.size ∧ i + n ≤ 2 ^ 31)) :
    m.runPlanned name s (c.planCopy b x src dst none (some d) i j n s) f h =
      (.error (.thrown .indexOutOfBounds), h) := by
  rw [runPlanned_load hpos hin]
  rw [planCopy_load hin hpos] at hb
  exact run_loadElems_of_out hinst hy hb.emitted hobj (.of_temps_eq (temps_setFrom ..)) hpos hout hi
    hend

theorem follows_load
    (hb : c.Beside m name home s (c.planCopy b x src dst none (some d) i j n s) f h₀)
    (hsrc : c.Operand name home elem f₀ h₀ f h src none)
    (hdst : c.Operand name home elem f₀ h₀ f h dst (some d))
    (hrange : Machine.Ranged f₀ srcPos dstPos len i j n) (hpos : 0 < n) (hdstIn : j + n ≤ d.slots)
    (hints : ¬ PastInts f₀ h₀ src none (i + n)) :
    c.Follows m name home s (c.planCopy b x src dst none (some d) i j n s) f h h₀ false
      (m₀.eval f₀ h₀ x (.arrayCopy src srcPos dst dstPos len)) := by
  have hi := hrange.src.2
  have hn := hrange.len.2
  obtain ⟨hdo, hdr, hdelem, hdy⟩ := hdst
  obtain ⟨dest, hdest, hdshape, hdsize, -⟩ := hb.mirrors d hdo _ hdr
  have hbase := hb.packed.within d hdo
  cases hsrc with
  | null hsy0 hsy =>
    rw [eval_arrayCopy_null_src hsy0]
    exact ⟨.inl rfl, (runPlanned_load hpos hdstIn).trans (run_loadElems_null hsy hpos)⟩
  | @real r obj _ hinst hsy0 hsy hobj0 hobj hselem hsr =>
    rw [eval_arrayCopy_eq hsy0 hdy hobj0 hdest hselem
      (by rw [Object.elem?, hdshape, hdelem]) hrange]
    split
    · rename_i hin
      have hint : i + n ≤ 2 ^ 31 :=
        Nat.not_lt.1 fun hlt => hints ⟨rfl, hlt, r, obj, hsy0, hobj0, hin.1⟩
      have henv := hb.env
      have hrun : m.runPlanned name s (c.planCopy b x src dst none (some d) i j n s) f h = _ :=
        runPlanned_load hpos hdstIn
      rw [planCopy_load hdstIn hpos] at hb hrun ⊢
      obtain ⟨f', hf', hread, -⟩ := computes_loadElems hinst hsy hb.emitted hobj
        (.of_temps_eq (temps_setFrom ..)) fun k hk => ⟨by omega, by omega⟩
      refine ⟨f', hrun.trans hf'.run, ?_⟩
      refine hb.mirrors.write hb.packed hb.apart hdo hdr hread (by rw [length_loadElems]; omega)
        (fun var => hf'.keeps _ (.get ..)) (fun var => ?_) _
      have hget : (loadElems b x src (d.shape.elem?.map Ty.stack) i n s).2.get var = s.get var := by
        rw [Planner.get, env_loadElems, Planner.get]
      rw [← hget]
      refine get_setFrom _ ?_ var
      rw [length_loadElems, env_loadElems, henv]
      omega
    · exact ⟨.inr rfl, throws_load hb hinst hsy hobj hpos hi (by omega) hdstIn (by omega)⟩

theorem int_of_constNat? {y k v} (hk : c.body.constNat? y = some k)
    (hv : ∀ q, c.body.const? y = some q → v = some q.toValue) : v = some (.int (.ofNat k)) := by
  have hlt := Body.constNat?_lt hk
  obtain ⟨q, hq, hk⟩ := Option.bind_eq_some_iff.1 hk
  rw [hv q hq]
  cases q <;> simp only [Const.toNat?, Const.toInt?, Option.bind_some, Option.bind_none,
    reduceCtorEq] at hk
  split at hk
  · rename_i z hz
    obtain rfl := Option.some.inj hk
    have hz' : z = .ofNat z.toInt.toNat := by
      rw [← Int32.toInt_inj, Int32.toInt_ofNat_of_lt hlt, Int.toNat_of_nonneg hz]
    rw [Const.toValue, ← hz']
  · cases hk

/-- A range is one that `planCopy` plans. It lies within the arrays that have been replaced, and it
is not empty if the other one is real. -/
def Plannable (srcObj dstObj : Option ScalarObject) (i j n : Nat) : Prop :=
  (∀ o ∈ srcObj, i + n ≤ o.slots) ∧ (∀ o ∈ dstObj, j + n ≤ o.slots) ∧
    (0 < n ∨ srcObj.isSome ∧ dstObj.isSome)

theorem planCopy_of_not_plannable (hone : srcObj.isSome ∨ dstObj.isSome)
    (h : ¬ Plannable srcObj dstObj i j n) : ∃ o, (o ∈ srcObj ∨ o ∈ dstObj) ∧
      c.planCopy b x src dst srcObj dstObj i j n s = c.fail .arrayCopy s o.alloc := by
  unfold planCopy
  match hout : (srcObj.filter fun o => o.slots < i + n).or
    (dstObj.filter fun o => o.slots < j + n) with
  | some o =>
    refine ⟨o, ?_, by simp only [hout]⟩
    rcases Option.or_eq_some_iff.1 hout with ho | ⟨-, ho⟩
    · exact .inl (Option.filter_eq_some_iff.1 ho).1
    · exact .inr (Option.filter_eq_some_iff.1 ho).1
  | none =>
    simp only [hout]
    obtain ⟨hsrcIn, hdstIn⟩ := Option.or_eq_none_iff.1 hout
    -- within the replaced arrays the range is, so it is empty, and one array is real
    have hempty : n = 0 ∧ ¬(srcObj.isSome ∧ dstObj.isSome) := by
      simp only [Option.filter_eq_none_iff, decide_eq_true_eq, Nat.not_lt] at hsrcIn hdstIn
      have := fun hpos => h ⟨hsrcIn, hdstIn, hpos⟩
      exact ⟨Nat.eq_zero_of_not_pos fun hpos => this (.inl hpos), fun hboth => this (.inr hboth)⟩
    rcases srcObj with _ | so <;> rcases dstObj with _ | d
    · simp at hone
    · exact ⟨d, .inr rfl, if_pos hempty.1⟩
    · exact ⟨so, .inl rfl, if_pos hempty.1⟩
    · simp at hempty

end Copies

def twoInts : ScalarObject :=
  { alloc := 0, inst := ⟨6, 1⟩, shape := .array .int 2, base := 0, slots := 2 }

/-- Copies its last two arguments, by way of an array, into the array that is the first one, from
index 1 on. -/
def copyOutBody : Body where
  blocks := .ofEntries [{ insts := (List.range 10).map fun i => ⟨i, 1⟩, term := .ret none }]
  insts := .ofEntries
    [⟨.param 0, some .ref⟩, ⟨.param 1, some .int⟩, ⟨.param 2, some .int⟩,
      ⟨.const (.int 0), some .int⟩, ⟨.const (.int 1), some .int⟩, ⟨.const (.int 2), some .int⟩,
      ⟨.newArray .int ⟨5, 1⟩, some .ref⟩, ⟨.storeElem ⟨6, 1⟩ ⟨3, 1⟩ ⟨1, 1⟩, none⟩,
      ⟨.storeElem ⟨6, 1⟩ ⟨4, 1⟩ ⟨2, 1⟩, none⟩,
      ⟨.arrayCopy ⟨6, 1⟩ ⟨3, 1⟩ ⟨0, 1⟩ ⟨4, 1⟩ ⟨5, 1⟩, none⟩]
  states := .ofEntries []
  entry := ⟨0, 1⟩
  params := [.ref, .int, .int]
  ret := none

def copyOut : PlanContext where
  program := {}
  body := copyOutBody
  graph := default
  layout :=
    { objects := [twoInts], byInst := SideTable.empty.insert ⟨6, 1⟩ twoInts, vars := #[.int, .int] }

/-- The names of the values. Of the constants there are two. -/
def copyOutName : Scalar → InstId
  | .inst x => x
  | .phi _ => .null
  | .const k => if k = .int 1 then ⟨4, 1⟩ else ⟨5, 1⟩
  | .temp i => ⟨i + 10, 1⟩

/-- The code with two stores for the copy, the one to the highest index first. -/
def copyOutMachine : Machine where
  program := {}
  body := { copyOutBody with
    insts := (copyOutBody.insts.insert ⟨.storeElem ⟨0, 1⟩ ⟨5, 1⟩ ⟨2, 1⟩, none⟩).2.insert
      ⟨.storeElem ⟨0, 1⟩ ⟨4, 1⟩ ⟨1, 1⟩, none⟩ |>.2 }
  args := [.ref ⟨0, 1⟩, .int 7, .int 8]

def copyOutFrame : Frame :=
  { values := (((((SideTable.empty.insert ⟨0, 1⟩ (.ref ⟨0, 1⟩)).insert ⟨1, 1⟩ (.int 7)).insert
      ⟨2, 1⟩ (.int 8)).insert ⟨3, 1⟩ (.int 0)).insert ⟨4, 1⟩ (.int 1)).insert ⟨5, 1⟩ (.int 2)
    block := ⟨0, 1⟩ }

def copyOutFrame₀ : Frame :=
  { copyOutFrame with values := copyOutFrame.values.insert ⟨6, 1⟩ (.ref ⟨1, 1⟩) }

def copyOutPlanner : Planner :=
  { env := #[.inst ⟨1, 1⟩, .inst ⟨2, 1⟩], phis := #[] }

def copyOutHeap : Heap := (({} : Heap).alloc {} (.array .int 3)).2

/-- The heap with the array that has been replaced too. -/
def copyOutHeap₀ : Heap :=
  ((Effect.write ⟨1, 1⟩ 0 [.int 7, .int 8]).apply {} (copyOutHeap.alloc {} (.array .int 2)).2).2

theorem wellShaped_copyOutHeap₀ : copyOutHeap₀.WellShaped {} := by
  refine (((Heap.wellShaped_empty {}).alloc _).alloc _).write fun obj hobj k t v hv ht => ?_
  cases hobj
  match k with
  | 0 | 1 =>
    cases hv
    cases ht
    exact ⟨nofun, rfl⟩
  | k + 2 => cases hv

theorem temps_copyOut : (copyOut.planCopy ⟨0, 1⟩ ⟨9, 1⟩ ⟨6, 1⟩ ⟨0, 1⟩ (some twoInts) none 0 1 2
      copyOutPlanner).temps.toList =
    [⟨⟨0, 1⟩, ⟨9, 1⟩, .storeElem (.inst ⟨0, 1⟩) (.const (.int 2)) (.inst ⟨2, 1⟩), none⟩,
      ⟨⟨0, 1⟩, ⟨9, 1⟩, .storeElem (.inst ⟨0, 1⟩) (.const (.int 1)) (.inst ⟨1, 1⟩), none⟩] := rfl

theorem emitted_copyOut : copyOutMachine.Emitted copyOut copyOutName copyOutPlanner
    (copyOut.planCopy ⟨0, 1⟩ ⟨9, 1⟩ ⟨6, 1⟩ ⟨0, 1⟩ (some twoInts) none 0 1 2 copyOutPlanner)
    copyOutFrame := by
  have hwf : copyOutMachine.body.insts.WellFormed :=
    ((SlotTable.WellFormed.ofEntries _).insert _).insert _
  have htemps : ∀ (i : Nat) t, (copyOut.planCopy ⟨0, 1⟩ ⟨9, 1⟩ ⟨6, 1⟩ ⟨0, 1⟩ (some twoInts) none 0 1
      2 copyOutPlanner).temps[i]? = some t → _ := fun i t ht => by
    rw [← Array.getElem?_toList, temps_copyOut] at ht
    exact ht
  refine ⟨hwf, ((((((SideTable.Within.empty _).insert rfl _).insert rfl _).insert rfl _).insert rfl
    _).insert rfl _).insert rfl _, ?_, ?_, ?_, ?_⟩
  · intro i hi
    simp [copyOutPlanner] at hi
  · intro i t _ ht
    have ht := htemps i t ht
    match i with
    | 0 | 1 => cases ht; rfl
    | i + 2 => cases ht
  · intro i _ hlt v hv hname
    have hindex := congrArg Key.index hname
    cases hv with
    | current hv =>
      have : v = .inst ⟨1, 1⟩ ∨ v = .inst ⟨2, 1⟩ := by simpa [copyOutPlanner] using hv
      rcases this with rfl | rfl <;> simp only [copyOutName] at hindex <;> omega
    | inst hx =>
      obtain rfl := hname
      cases hx
    | const k =>
      simp only [copyOutName] at hindex
      split at hindex <;> dsimp only at hindex <;> omega
    | temp hj =>
      simp only [copyOutName] at hindex
      rw [Nat.add_right_cancel hindex]
  · intro i t k _ ht hk
    have ht := htemps i t ht
    match i with
    | 0 =>
      cases ht
      obtain rfl : k = .int 2 := by simpa [TempOp.operands] using hk
      rfl
    | 1 =>
      cases ht
      obtain rfl : k = .int 1 := by simpa [TempOp.operands] using hk
      rfl
    | i + 2 => cases ht

theorem beside_copyOut : copyOut.Beside copyOutMachine copyOutName (fun _ => some ⟨1, 1⟩)
    copyOutPlanner
    (copyOut.planCopy ⟨0, 1⟩ ⟨9, 1⟩ ⟨6, 1⟩ ⟨0, 1⟩ (some twoInts) none 0 1 2 copyOutPlanner)
    copyOutFrame copyOutHeap₀ where
  emitted := emitted_copyOut
  packed := ⟨by decide, by simp [copyOut]⟩
  env := rfl
  apart o ho o' ho' _ _ _ := (mem_singleton.1 ho).trans (mem_singleton.1 ho').symm
  mirrors o ho r hr := by
    obtain rfl := mem_singleton.1 ho
    cases hr
    refine ⟨_, rfl, rfl, rfl, fun k hk => ?_⟩
    match k, hk with
    | 0, _ | 1, _ => rfl

end PlanContext

end EscapeAnalysis
