import EscapeAnalysis.Pass.Run
import EscapeAnalysis.Proofs.PlannedCode

/-!
# Planned stores

Where the slot of a store has become a variable, the conversion to its type is planned by what is
known of the type of the value. A raw store is planned element by element. What is planned comes to
what the stores write (`PlanContext.stores_planned_exactly`), as long as the types tell how a value
is converted. Two stores where they do not are at the end (`unconverted_boxes`).
-/

namespace EscapeAnalysis

open List Machine Planner

variable {size : Nat} {elem : Ty}

/-- The values that an instruction of type `t` may have. Numbers of the narrow types are ints. -/
def Value.HasTy : Value → Ty → Prop
  | int _, t => t.stack = .int
  | long _, t => t = .long
  | null, t => t = .ref ∨ t = .cls
  | ref _, t => t = .ref
  | cls _, t => t = .cls

theorem Ty.byteSize?_pos {t : Ty} (h : t.byteSize? = some size) : 0 < size := by
  cases t <;> simp [byteSize?] at h <;> omega

theorem Const.toValue_narrow (k : Const) (slot : Ty) :
    ((k.narrow? slot).getD k).toValue = k.toValue.narrow slot := by
  cases k <;> cases slot <;> rfl

/-- A number in an integral slot depends on its value only, not on its width. -/
theorem Value.narrow_eq_of_toLong? {w : Value} {bits} (h : w.toLong? = some bits) {slot}
    (hslot : slot.byteSize? = some size) : w.narrow slot = (Value.long bits).narrow slot := by
  have hlong : (Value.long bits).toLong? = some bits := rfl
  cases slot with
  | byte | short | int | long => simp only [narrow, h, hlong]
  | ref | cls => cases hslot

/-! ## Shifts -/

section Shifts

variable {k : Nat}

theorem toInt_shiftRight_int32 (n : Int32) (hk : k < 32) :
    (n >>> Int32.ofNat k).toInt = n.toInt / 2 ^ k := by
  have hamount : ∀ k : Fin 32, ((Int32.ofNat k).toBitVec.smod 32).toNat = k := by decide
  change (n >>> Int32.ofNat k).toBitVec.toInt = _
  rw [Int32.toBitVec_shiftRight, BitVec.sshiftRight_eq', BitVec.toInt_sshiftRight,
    hamount ⟨k, hk⟩, Int.shiftRight_eq_div_pow]
  rfl

theorem toInt_shiftRight_int64 (n : Int64) (hk : k < 64) :
    (n >>> Int64.ofNat k).toInt = n.toInt / 2 ^ k := by
  have hamount : ∀ k : Fin 64, ((Int64.ofNat k).toBitVec.smod 64).toNat = k := by decide
  change (n >>> Int64.ofNat k).toBitVec.toInt = _
  rw [Int64.toBitVec_shiftRight, BitVec.sshiftRight_eq', BitVec.toInt_sshiftRight,
    hamount ⟨k, hk⟩, Int.shiftRight_eq_div_pow]
  rfl

theorem toInt64_shiftRight (n : Int32) (hk : k < 32) :
    (n >>> Int32.ofNat k).toInt64 = n.toInt64 >>> Int64.ofNat k := by
  apply Int64.toInt_inj.1
  rw [Int32.toInt_toInt64, toInt_shiftRight_int32 n hk, toInt_shiftRight_int64 _ (by omega),
    Int32.toInt_toInt64]

end Shifts

namespace PlanContext

/-- The types tell how `w` is converted on its way into the slot. They do not for a number of a
narrow type and a slot for longs: such a number counts as one that needs no conversion. And a narrow
slot converts numbers only, unless the value is a constant. -/
def Convertible (v : Scalar) (w : Value) (t slot : Ty) : Prop :=
  (slot = .long → t.stack = t) ∧ (slot.stack ≠ slot → w.toLong?.isSome ∨ ∃ k, v = .const k)

theorem narrow_of_not_needsNarrow {v w t slot} (hw : w.HasTy t) (hconv : Convertible v w t slot)
    (hn : needsNarrow (some t) slot = false) : w.narrow slot = w := by
  obtain ⟨hlong, -⟩ := hconv
  cases w <;> cases slot <;> cases t <;>
    simp_all [Value.HasTy, Ty.stack, needsNarrow, Value.narrow, Value.toLong?]

theorem isSome_toLong?_of_needsNarrow {v w t slot} (hw : w.HasTy t) (hconv : Convertible v w t slot)
    (hn : needsNarrow (some t) slot = true) (hv : ∀ k, v ≠ .const k) : w.toLong?.isSome = true := by
  have hnarrow : slot.stack ≠ slot → w.toLong?.isSome = true := fun hne =>
    (hconv.2 hne).resolve_right fun ⟨k, hk⟩ => hv k hk
  cases slot <;> cases w <;> cases t <;>
    simp_all [Value.HasTy, Ty.stack, needsNarrow, Value.toLong?]

variable {c : PlanContext} {m : Machine} {name : Scalar → InstId} {s s' s₁ : Planner} {f : Frame}
  {h : Heap} {b : BlockId} {x value y : InstId} {v : Scalar} {w : Value} {t slot : Ty}
  {o : ScalarObject} {offset width : Nat}
variable {bits : Int64} {size k valueSize : Nat} {elem : Ty}

theorem extends_narrow (c : PlanContext) (b : BlockId) (x : InstId) (v : Scalar) (slot : Ty)
    (s : Planner) : s.Extends (c.narrow b x v slot s).2 :=
  ((stable_extends c x s).upheld.narrow (.refl s) b trivial slot).2

theorem known_narrow (hv : Planner.Known c.body s s₁ v) :
    Planner.Known c.body s (c.narrow b x v slot s₁).2 (c.narrow b x v slot s₁).1 := by
  unfold narrow
  split
  · split
    · exact .const _
    · exact .temp (by simp [addTemp])
  · exact hv

theorem eval_narrow (hy : f.values.get? y = some w) (hw : w.toLong?.isSome = true) :
    m.eval f h x (.unary (.narrow slot) y) = .ok (.value (w.narrow slot)) := by
  have happly : (UnOp.narrow slot).apply w = .ok (w.narrow slot) := by
    cases w with
    | int n | long n => rfl
    | null | ref o | cls k => cases hw
  rw [Machine.eval, Frame.get_eq_ok.2 hy]
  change (liftError ((UnOp.narrow slot).apply w) >>= _) = _
  rw [happly]
  rfl

theorem computes_narrow (he : m.Emitted c name s s' f) (hs : s.Extends s₁)
    (hs' : (c.narrow b x v slot s₁).2.Extends s') (ht : c.tyOf s₁ v = some t) (hw : w.HasTy t)
    (hconv : Convertible v w t slot) (hv : v.read? name f = some w) :
    ∃ f', m.Computes c name s s' s₁ (c.narrow b x v slot s₁).2 h f f' ∧
      (c.narrow b x v slot s₁).1.read? name f' = some (w.narrow slot) := by
  unfold narrow at hs' ⊢
  by_cases hn : needsNarrow (c.tyOf s₁ v) slot = true
  · rw [if_pos hn] at hs' ⊢
    rw [ht] at hn
    cases v with
    | const k =>
      obtain rfl : k.toValue = w := Option.some.inj hv
      exact ⟨f, .of_temps_eq he rfl, congrArg some (Const.toValue_narrow k slot)⟩
    | inst _ | phi _ | temp _ =>
      exact Machine.Computes.addTemp he hs hs'
        (eval_narrow hv (isSome_toLong?_of_needsNarrow hw hconv hn nofun))
  · rw [if_neg hn]
    rw [ht, Bool.not_eq_true] at hn
    refine ⟨f, .of_temps_eq he rfl, ?_⟩
    rw [narrow_of_not_needsNarrow hw hconv hn]
    exact hv

/-! ## Raw stores -/

theorem apply_shrS (hw : w.HasTy t) (hbits : w.toLong? = some bits)
    (hsize : t.byteSize? = some size) (hk : k < 8 * size) :
    ∃ w', BinOp.shrS.apply w (shiftAmount (some t) k).toValue = .ok w' ∧ w'.HasTy t ∧
      w'.toLong? = some (bits >>> Int64.ofNat k) := by
  cases w with
  | int n =>
    obtain rfl : n.toInt64 = bits := Option.some.inj hbits
    have hint : t.stack = .int := hw
    have hk32 : k < 32 := by
      cases t <;> simp [Ty.byteSize?, Ty.stack] at hsize hint <;> omega
    have hamount : shiftAmount (some t) k = .int (.ofNat k) := by
      cases t <;> simp [Ty.stack] at hint <;> rfl
    refine ⟨.int (n >>> Int32.ofNat k), ?_, hw, congrArg some (toInt64_shiftRight n hk32)⟩
    rw [hamount]
    rfl
  | long n =>
    obtain rfl : n = bits := Option.some.inj hbits
    obtain rfl : t = .long := hw
    exact ⟨.long (n >>> Int64.ofNat k), rfl, rfl, rfl⟩
  | null | ref o | cls k => cases hbits

theorem eval_shrS {z} {k : Const} {w'} (hy : f.values.get? y = some w)
    (hz : f.values.get? z = some k.toValue) (happly : BinOp.shrS.apply w k.toValue = .ok w') :
    m.eval f h x (.binary .shrS y z) = .ok (.value w') := by
  rw [Machine.eval, Frame.get_eq_ok.2 hy]
  change (f.get z >>= _) = _
  rw [Frame.get_eq_ok.2 hz]
  change (liftError (BinOp.shrS.apply w k.toValue) >>= _) = _
  rw [happly]
  rfl

theorem rawElem_zero (elem : Ty) (size : Nat) :
    c.rawElem b x value elem size 0 s = c.narrow b x (.inst value) elem s := rfl

theorem rawElem_of_ne_zero (hk : 8 * size * k ≠ 0) :
    c.rawElem b x value elem size k s =
      c.narrow b x (.temp s.temps.size) elem
        (s.addTemp b x (.binary .shrS (.inst value)
          (.const (shiftAmount (c.body.ty? value) (8 * size * k)))) (c.body.ty? value)).2 := by
  rw [rawElem]
  simp only [if_neg hk]
  rfl

theorem extends_rawElem (c : PlanContext) (b : BlockId) (x value : InstId) (elem : Ty)
    (size k : Nat) (s : Planner) : s.Extends (c.rawElem b x value elem size k s).2 :=
  ((stable_extends c x s).upheld.rawElem (.refl s) b trivial elem size k).2

section

variable (he : m.Emitted c name s s' f) (ht : c.body.ty? value = some t) (hw : w.HasTy t)
  (hbits : w.toLong? = some bits) (hv : f.values.get? (name (.inst value)) = some w)
  (helem : elem.byteSize? = some size) (hsize : t.byteSize? = some valueSize)

include he ht hw hbits hv helem hsize in
theorem computes_rawElem (hs : s.Extends s₁)
    (hs' : (c.rawElem b x value elem size k s₁).2.Extends s') (hk : size * (k + 1) ≤ valueSize) :
    ∃ f', m.Computes c name s s' s₁ (c.rawElem b x value elem size k s₁).2 h f f' ∧
      (c.rawElem b x value elem size k s₁).1.read? name f' =
        some ((Value.long (bits >>> Int64.ofNat (8 * size * k))).narrow elem) ∧
      Planner.Known c.body s (c.rawElem b x value elem size k s₁).2
        (c.rawElem b x value elem size k s₁).1 := by
  have hpos := Ty.byteSize?_pos helem
  have hinst : Planner.Known c.body s s₁ (.inst value) := by
    obtain ⟨inst, hinst, -⟩ := Option.bind_eq_some_iff.1 ht
    exact .inst hinst
  -- an element as wide as a long has all of a long
  have hconv : ∀ {v : Scalar} {w' : Value} {bits' : Int64}, w'.toLong? = some bits' →
      Convertible v w' t elem := by
    intro v w' bits' hw'
    refine ⟨fun hlong => ?_, fun _ => .inl (by rw [hw']; rfl)⟩
    subst hlong
    have hwide : 8 ≤ valueSize := by
      cases helem
      have := Nat.le_trans (Nat.le_mul_of_pos_right 8 (Nat.succ_pos k)) hk
      exact this
    cases t <;> simp [Ty.byteSize?] at hsize <;> first | rfl | omega
  by_cases hzero : k = 0
  · subst hzero
    rw [rawElem_zero] at hs' ⊢
    obtain ⟨f', hf', hread⟩ := computes_narrow (h := h) he hs hs' (by exact ht) hw (hconv hbits) hv
    refine ⟨f', hf', ?_, known_narrow hinst⟩
    rw [hread, Value.narrow_eq_of_toLong? hbits helem, Nat.mul_zero,
      show Int64.ofNat 0 = 0 from rfl, Int64.shiftRight_zero]
  · have hshift : 8 * size * k ≠ 0 := by
      have := Nat.mul_pos (Nat.mul_pos (by decide : 0 < 8) hpos) (Nat.pos_of_ne_zero hzero)
      omega
    rw [rawElem_of_ne_zero hshift, ht] at hs' ⊢
    have hlt : 8 * size * k < 8 * valueSize := by
      rw [Nat.mul_succ] at hk
      rw [Nat.mul_assoc]
      omega
    obtain ⟨w', happly, hw', hbits'⟩ := apply_shrS hw hbits hsize hlt
    have hadd := (extends_narrow c b x _ elem _).trans hs'
    have hconst := he.consts s₁.temps.size _ (shiftAmount (some t) (8 * size * k)) hs.size_le
      (hadd.getElem? (getElem?_addTemp ..)) (by simp [TempOp.operands])
    obtain ⟨f1, hf1, hread1⟩ := Machine.Computes.addTemp (h := h) he hs hadd
      (eval_shrS hv hconst happly)
    obtain ⟨f', hf', hread⟩ := computes_narrow (h := h) hf1.emitted
      (hs.trans (extends_addTemp ..)) hs' (by simp [tyOf, addTemp]) hw'
      (hconv hbits') hread1
    refine ⟨f', hf1.trans (extends_addTemp ..) (extends_narrow ..) hf', ?_,
      known_narrow (.temp (by simp [addTemp]))⟩
    rw [hread, Value.narrow_eq_of_toLong? hbits' helem]

theorem env_narrow (c : PlanContext) (b : BlockId) (x : InstId) (v : Scalar) (slot : Ty)
    (s : Planner) : (c.narrow b x v slot s).2.env = s.env := by
  unfold narrow
  split
  · split <;> rfl
  · rfl

theorem env_rawElem (c : PlanContext) (b : BlockId) (x value : InstId) (elem : Ty) (size k : Nat)
    (s : Planner) : (c.rawElem b x value elem size k s).2.env = s.env := by
  rw [rawElem]
  dsimp only
  rw [env_narrow]
  split <;> rfl

/-- The planner after the first `n` elements of a raw store. -/
def rawElems (c : PlanContext) (b : BlockId) (x value : InstId) (elem : Ty) (size base : Nat)
    (s : Planner) (n : Nat) : Planner :=
  (List.range n).foldl (fun s k =>
    (c.rawElem b x value elem size k s).2.set (base + k) (c.rawElem b x value elem size k s).1) s

theorem rawElems_succ (elem : Ty) (size base n : Nat) :
    c.rawElems b x value elem size base s (n + 1) =
      (c.rawElem b x value elem size n (c.rawElems b x value elem size base s n)).2.set (base + n)
        (c.rawElem b x value elem size n (c.rawElems b x value elem size base s n)).1 := by
  rw [rawElems, range_succ, foldl_append]
  rfl

theorem extends_rawElems (elem : Ty) (size base n : Nat) :
    s.Extends (c.rawElems b x value elem size base s n) := by
  induction n with
  | zero => exact .refl s
  | succ n ih =>
    rw [rawElems_succ]
    exact (ih.trans (extends_rawElem ..)).trans (.of_temps_eq rfl)

theorem size_env_rawElems (elem : Ty) (size base n : Nat) :
    (c.rawElems b x value elem size base s n).env.size = s.env.size := by
  induction n with
  | zero => rfl
  | succ n ih => rw [rawElems_succ, size_env_set, env_rawElem, ih]

include he ht hw hbits hv helem hsize in
/-- The elements of a raw store come to those that it writes, each in its variable. -/
theorem computes_rawElems {base} : ∀ n, size * n ≤ valueSize → base + n ≤ s.env.size →
      (c.rawElems b x value elem size base s n).Extends s' →
      ∃ f', m.Computes c name s s' s (c.rawElems b x value elem size base s n) h f f' ∧
        (∀ k < n, ((c.rawElems b x value elem size base s n).get (base + k)).read? name f' =
            some ((Value.long (bits >>> Int64.ofNat (8 * size * k))).narrow elem) ∧
          Planner.Known c.body s (c.rawElems b x value elem size base s n)
            ((c.rawElems b x value elem size base s n).get (base + k))) ∧
        ∀ var, var < base ∨ base + n ≤ var →
          (c.rawElems b x value elem size base s n).get var = s.get var := by
  intro n
  induction n with
  | zero => exact fun _ _ _ => ⟨f, .of_temps_eq he rfl, nofun, fun _ _ => rfl⟩
  | succ n ih =>
    intro hn hbase hs'
    rw [rawElems_succ] at hs' ⊢
    have hlt : size * n ≤ valueSize := Nat.le_trans (Nat.mul_le_mul_left _ (Nat.le_succ n)) hn
    have hs : s.Extends (c.rawElems b x value elem size base s n) := extends_rawElems ..
    have hstep := extends_rawElem c b x value elem size n (c.rawElems b x value elem size base s n)
    have hset : (c.rawElem b x value elem size n
        (c.rawElems b x value elem size base s n)).2.Extends s' :=
      Planner.Extends.trans (.of_temps_eq rfl) hs'
    obtain ⟨f1, hf1, hdone, hrest⟩ := ih hlt (by omega) (hstep.trans hset)
    have hv1 : f1.values.get? (name (.inst value)) = some w := by
      obtain ⟨inst, hinst, -⟩ := Option.bind_eq_some_iff.1 ht
      exact (hf1.keeps (.inst value) (.inst hinst)).trans hv
    obtain ⟨f2, hf2, hread, hknown⟩ :=
      computes_rawElem (h := h) hf1.emitted ht hw hbits hv1 helem hsize hs hset hn
    have hget : ∀ var, (c.rawElem b x value elem size n
        (c.rawElems b x value elem size base s n)).2.get var =
        (c.rawElems b x value elem size base s n).get var := fun var => by
      rw [Planner.get, env_rawElem, Planner.get]
    have henv : base + n < (c.rawElem b x value elem size n
        (c.rawElems b x value elem size base s n)).2.env.size := by
      rw [env_rawElem, size_env_rawElems]
      omega
    refine ⟨f2, (hf1.trans hs hstep hf2).trans (hs.trans hstep) (.of_temps_eq rfl)
      (.of_temps_eq hf2.emitted rfl), fun k hk => ?_, fun var hvar => ?_⟩
    · by_cases hkn : k = n
      · subst hkn
        rw [get_set_self _ henv]
        exact ⟨hread, hknown.mono (.of_temps_eq rfl)⟩
      · rw [get_set_of_ne _ (by omega), hget]
        obtain ⟨hreadk, hknownk⟩ := hdone k (by omega)
        exact ⟨(hf2.keeps _ hknownk).trans hreadk, (hknownk.mono hstep).mono (.of_temps_eq rfl)⟩
    · rw [get_set_of_ne _ (by omega), hget]
      exact hrest var (by omega)

end

theorem planRawStore_eq {first count}
    (hrange : rawRange? o offset width (c.body.ty? value) = some (elem, size, first, count)) :
    c.planRawStore b x o offset width value s =
      (c.rawElems b x value elem size (o.base + first) s count).kill x := by
  rw [planRawStore, hrange]
  rfl

theorem rawRange?_eq (helem : o.shape.elem? = some elem) (hsize : elem.byteSize? = some size)
    (hvalue : t.byteSize? = some valueSize) (hoffset : offset % size = 0)
    (hwidth : width % size = 0) (hfits : width ≤ valueSize)
    (hin : offset / size + width / size ≤ o.slots) :
    rawRange? o offset width (some t) = some (elem, size, offset / size, width / size) := by
  simp [rawRange?, helem, hsize, hvalue, hoffset, hwidth, hfits, hin]

end PlanContext

/-! ## Bytes -/

/-- The lowest `n` bytes of a number, the lowest first. -/
def lowBytes (n : Nat) (z : Int) : List Int := (List.range n).map fun k => z / 256 ^ k % 256

def Value.number (w : Value) : Int := (w.toLong?.map Int64.toInt).getD 0

theorem lowBytes_add (m n : Nat) (z : Int) :
    lowBytes (m + n) z = lowBytes m z ++ lowBytes n (z / 256 ^ m) := by
  simp only [lowBytes, range_add, map_append, map_map, append_cancel_left_eq]
  refine map_congr_left fun k _ => ?_
  simp only [Function.comp]
  rw [Int.pow_add, Int.ediv_ediv_of_nonneg (Int.pow_nonneg (by decide))]

theorem lowBytes_bmod (n : Nat) (z : Int) : lowBytes n (z.bmod (2 ^ (8 * n))) = lowBytes n z := by
  refine map_congr_left fun k hk => ?_
  have hk := mem_range.1 hk
  obtain ⟨q, hq⟩ := Int.dvd_of_emod_eq_zero
    (Int.emod_eq_emod_iff_emod_sub_eq_zero.1 (Int.bmod_emod (x := z) (m := 2 ^ (8 * n))))
  have hpow : ((2 ^ (8 * n) : Nat) : Int) = 256 ^ k * (256 * 256 ^ (n - 1 - k)) := by
    rw [← Int.pow_succ', ← Int.pow_add, show k + (n - 1 - k + 1) = n by omega, Nat.pow_mul,
      show 2 ^ 8 = 256 from rfl, Int.natCast_pow]
    rfl
  have hz : z.bmod (2 ^ (8 * n)) = z + 256 ^ k * (256 * (256 ^ (n - 1 - k) * q)) := by
    rw [hpow] at hq
    rw [← Int.mul_assoc 256, ← Int.mul_assoc, ← hq]
    omega
  rw [hz, Int.add_mul_ediv_left _ _ (Int.pow_ne_zero (by decide)), Int.add_mul_emod_self_left]

theorem number_narrow_long (bits : Int64) (helem : elem.byteSize? = some size) :
    ((Value.long bits).narrow elem).number = bits.toInt.bmod (2 ^ (8 * size)) := by
  cases elem with
  | byte | short | int | long =>
    cases helem
    simp [Value.narrow, Value.toLong?, Value.number]
  | ref | cls => cases helem

/-- The elements that a raw store writes are, byte by byte, the lowest bytes of the number. -/
theorem lowBytes_rawElements (bits : Int64) (helem : elem.byteSize? = some size) :
    ∀ count, size * count ≤ 8 →
      (rawElements elem size count bits).flatMap (fun e => lowBytes size e.number) =
        lowBytes (size * count) bits.toInt := by
  have hpos := Ty.byteSize?_pos helem
  intro count
  induction count with
  | zero => exact fun _ => rfl
  | succ count ih =>
    intro hcount
    rw [Nat.mul_succ] at hcount
    have hshift : 8 * size * count < 64 := by
      rw [Nat.mul_assoc]
      omega
    rw [rawElements, range_succ, map_append, flatMap_append,
      ← rawElements, ih (by omega), Nat.mul_succ, lowBytes_add]
    simp only [map_cons, map_nil, flatMap_cons, flatMap_nil, append_nil,
      append_cancel_left_eq]
    rw [number_narrow_long _ helem, lowBytes_bmod, toInt_shiftRight_int64 _ hshift, Nat.mul_assoc,
      Int.pow_mul]
    rfl

namespace PlanContext

variable {c : PlanContext} {m m₀ : Machine} {name : Scalar → InstId}
  {home : ScalarObject → Option ObjRef} {s : Planner} {f f₀ : Frame} {h h₀ : Heap} {b : BlockId}
  {x array value : InstId} {o : ScalarObject} {r : ObjRef} {offset width : Nat} {t elem : Ty}
  {size valueSize : Nat} {w : Value} {bits : Int64}

theorem size_le_of_hasTy (hw : w.HasTy t) (hbits : w.toLong? = some bits)
    (hsize : t.byteSize? = some valueSize) :
    w = .int bits.toInt32 ∧ bits.toInt32.toInt64 = bits ∧ valueSize ≤ 4 ∨
      w = .long bits ∧ valueSize ≤ 8 := by
  cases w with
  | int n =>
    obtain rfl : n.toInt64 = bits := Option.some.inj hbits
    have hint : t.stack = .int := hw
    refine .inl ⟨by simp, by simp, ?_⟩
    cases t <;> simp [Ty.byteSize?, Ty.stack] at hsize hint <;> omega
  | long n =>
    obtain rfl : n = bits := Option.some.inj hbits
    obtain rfl : t = .long := hw
    exact .inr ⟨rfl, by cases hsize; decide⟩
  | null | ref o | cls k => cases hbits

theorem eval_rawStore_ok {obj} (hr : f₀.values.get? array = some (.ref r))
    (hv : f₀.values.get? value = some w) (hobj : h₀.get? r = some obj) (hw : w.HasTy t)
    (hbits : w.toLong? = some bits) (helem : obj.elem? = some elem)
    (hsize : elem.byteSize? = some size) (hvalue : t.byteSize? = some valueSize)
    (hoffset : offset % size = 0) (hwidth : width % size = 0) (hfits : width ≤ valueSize)
    (hin : offset / size + width / size ≤ obj.fields.size) :
    m₀.eval f₀ h₀ x (.rawStore array offset width value) =
      .ok (.write r (offset / size) (rawElements elem size (width / size) bits)) := by
  rw [Machine.eval, rawStore]
  refine Except.bind_eq_ok.2 ⟨r, target_eq_ok.2 hr, ?_⟩
  refine Except.bind_eq_ok.2 ⟨w, Frame.get_eq_ok.2 hv, ?_⟩
  refine Except.bind_eq_ok.2 ⟨obj, object_eq_ok.2 hobj, ?_⟩
  refine Except.bind_eq_ok.2 ⟨elem, orFail_eq_ok.2 helem, ?_⟩
  refine Except.bind_eq_ok.2 ⟨size, orFail_eq_ok.2 hsize, ?_⟩
  rcases size_le_of_hasTy hw hbits hvalue with ⟨rfl, hext, hle⟩ | ⟨rfl, hle⟩
  · refine Except.bind_eq_ok.2 ⟨(_, 4), rfl, ?_⟩
    dsimp only
    rw [if_pos ⟨hoffset, hwidth, by omega⟩, if_neg (by omega), hext]
    rfl
  · refine Except.bind_eq_ok.2 ⟨(_, 8), rfl, ?_⟩
    dsimp only
    rw [if_pos ⟨hoffset, hwidth, by omega⟩, if_neg (by omega)]
    rfl

/-- Raw stores and conversions are planned to the bit. Whatever number is stored, of whatever type,
into an array of whatever integral type that has been replaced: if the store is aligned and within
the array, what is planned for it runs through and gives the variables what the store writes, and
that is byte by byte the low end of the number. And a planned conversion, be it none, a constant or
an instruction, comes to what storing the value in the slot makes of it, provided that the types
tell how. -/
theorem stores_planned_exactly (c : PlanContext) (m : Machine) (name : Scalar → InstId) :
    (∀ {m₀ : Machine} {home : ScalarObject → Option ObjRef} {s : Planner} {f f₀ : Frame}
        {h₀ : Heap} {b : BlockId} {x array value : InstId} {o : ScalarObject} {r : ObjRef}
        {offset width : Nat} {t elem : Ty} {size valueSize : Nat} {w : Value} {bits : Int64}
        (h : Heap),
      c.Beside m name home s (c.planRawStore b x o offset width value s) f h₀ →
      o ∈ c.layout.objects → home o = some r → f₀.values.get? array = some (.ref r) →
      f₀.values.get? value = some w → f.values.get? (name (.inst value)) = some w →
      c.body.ty? value = some t → w.HasTy t → w.toLong? = some bits →
      o.shape.elem? = some elem → elem.byteSize? = some size → t.byteSize? = some valueSize →
      offset % size = 0 → width % size = 0 → 0 < width → width ≤ valueSize →
      offset / size + width / size ≤ o.slots →
      ∃ f' ws, m.runPlanned name s (c.planRawStore b x o offset width value s) f h = (.ok f', h) ∧
        ((c.planRawStore b x o offset width value s).getFrom (o.base + offset / size)
          (width / size)).map (Scalar.read? name f') = ws.map some ∧
        m₀.eval f₀ h₀ x (.rawStore array offset width value) =
          .ok (.write r (offset / size) ws) ∧
        c.Mirrors name home (c.planRawStore b x o offset width value s) f'
          ((Effect.write r (offset / size) ws).apply m₀.program h₀).2 ∧
        ws.flatMap (fun e => lowBytes size e.number) = lowBytes width w.number) ∧
    ∀ {s : Planner} {f : Frame} {b : BlockId} {x : InstId} {v : Scalar} {w : Value} {t slot : Ty}
        (h : Heap),
      m.Emitted c name s (c.narrow b x v slot s).2 f →
      c.tyOf s v = some t → w.HasTy t → Convertible v w t slot → v.read? name f = some w →
      ∃ f', m.runPlanned name s (c.narrow b x v slot s).2 f h = (.ok f', h) ∧
        (c.narrow b x v slot s).1.read? name f' = some (w.narrow slot) := by
  refine ⟨?_, fun h he ht hw hconv hv => ?_⟩
  · intro m₀ home s f f₀ h₀ b x array value o r offset width t elem size valueSize w bits h hb ho hr
      harray hvalue₀ hvalue ht hw hbits helem hsize hvsize hoffset hwidth _ hfits hin
    obtain ⟨obj, hobj, hshape, hfields, -⟩ := hb.mirrors o ho r hr
    have hrange : rawRange? o offset width (c.body.ty? value) =
        some (elem, size, offset / size, width / size) := by
      rw [ht]
      exact rawRange?_eq helem hsize hvsize hoffset hwidth hfits hin
    have hmul : size * (width / size) = width :=
      Nat.mul_div_cancel' (Nat.dvd_of_mod_eq_zero hwidth)
    have hbase := hb.packed.within o ho
    rw [planRawStore_eq hrange] at hb ⊢
    obtain ⟨f', hf', helems, hrest⟩ := computes_rawElems (h := h) hb.emitted ht hw hbits hvalue
      hsize hvsize (width / size) (by omega) (by rw [hb.env]; omega) (.of_temps_eq rfl)
    have hvs : ((c.rawElems b x value elem size (o.base + offset / size) s (width / size)).getFrom
        (o.base + offset / size) (width / size)).map (Scalar.read? name f') =
        (rawElements elem size (width / size) bits).map some := by
      simp only [getFrom, rawElements, map_map]
      exact map_congr_left fun k hk => (helems k (mem_range.1 hk)).1
    refine ⟨f', _, ?_, hvs, eval_rawStore_ok harray hvalue₀ hobj hw hbits ?_ hsize hvsize hoffset
      hwidth hfits (hfields ▸ hin), ?_, ?_⟩
    · exact (runPlanned_kill x).trans hf'.run
    · rw [Object.elem?, hshape, helem]
    · refine hb.mirrors.write hb.packed hb.apart ho hr hvs ?_
        (fun var => hf'.keeps _ (.get ..)) (fun var => ?_) m₀.program
      · rw [length_getFrom]
        exact hin
      · exact get_eq_of_getFrom hrest var
    · have hle : valueSize ≤ 8 := by
        rcases size_le_of_hasTy hw hbits hvsize with ⟨-, -, hle⟩ | ⟨-, hle⟩ <;> omega
      rw [lowBytes_rawElements bits hsize _ (by omega), hmul, Value.number, hbits]
      rfl
  · obtain ⟨f', hf', hread⟩ := computes_narrow (h := h) he (.refl _) (.refl _) ht hw hconv hv
    exact ⟨f', hf'.run, hread⟩

/-! A number is stored into an array of two shorts. -/

def twoShorts : ScalarObject :=
  { alloc := 0, inst := ⟨2, 1⟩, shape := .array .short 2, base := 0, slots := 2 }

/-- Stores its argument into an array of two shorts. -/
def storeHalves : PlanContext where
  program := {}
  body :=
    { blocks := .ofEntries
        [{ insts := [⟨0, 1⟩, ⟨1, 1⟩, ⟨2, 1⟩, ⟨3, 1⟩], term := .ret none }]
      insts := .ofEntries
        [⟨.param 0, some .int⟩, ⟨.const (.int 2), some .int⟩, ⟨.newArray .short ⟨1, 1⟩, some .ref⟩,
          ⟨.rawStore ⟨2, 1⟩ 0 4 ⟨0, 1⟩, none⟩]
      states := .ofEntries []
      entry := ⟨0, 1⟩
      params := [.int]
      ret := none }
  graph := default
  layout :=
    { objects := [twoShorts], byInst := SideTable.empty.insert ⟨2, 1⟩ twoShorts
      vars := #[.short, .short] }

/-- The names of the values. Of the constants there is only one. -/
def halvesName : Scalar → InstId
  | .inst x => x
  | .phi _ => .null
  | .const _ => ⟨4, 1⟩
  | .temp i => ⟨i + 5, 1⟩

/-- The code that takes the place of the store: the lower half, and the upper half shifted down. -/
def halvesMachine : Machine where
  program := {}
  body :=
    { blocks := .ofEntries
        [{ insts := [⟨0, 1⟩, ⟨4, 1⟩, ⟨5, 1⟩, ⟨6, 1⟩, ⟨7, 1⟩], term := .ret none }]
      insts := .ofEntries
        [⟨.param 0, some .int⟩, ⟨.const (.int 2), some .int⟩, ⟨.newArray .short ⟨1, 1⟩, some .ref⟩,
          ⟨.rawStore ⟨2, 1⟩ 0 4 ⟨0, 1⟩, none⟩, ⟨.const (.int 16), some .int⟩,
          ⟨.unary (.narrow .short) ⟨0, 1⟩, some .int⟩, ⟨.binary .shrS ⟨0, 1⟩ ⟨4, 1⟩, some .int⟩,
          ⟨.unary (.narrow .short) ⟨6, 1⟩, some .int⟩]
      states := .ofEntries []
      entry := ⟨0, 1⟩
      params := [.int]
      ret := none }
  args := [.int 131071]

def halvesFrame : Frame :=
  { values := (SideTable.empty.insert ⟨0, 1⟩ (.int 131071)).insert ⟨4, 1⟩ (.int 16)
    block := ⟨0, 1⟩ }

def halvesPlanner : Planner :=
  { env := #[.const (.int 0), .const (.int 0)], phis := #[] }

theorem temps_storeHalves :
    (storeHalves.planRawStore ⟨0, 1⟩ ⟨3, 1⟩ twoShorts 0 4 ⟨0, 1⟩ halvesPlanner).temps.toList =
      [⟨⟨0, 1⟩, ⟨3, 1⟩, .narrow .short (.inst ⟨0, 1⟩), some .int⟩,
        ⟨⟨0, 1⟩, ⟨3, 1⟩, .binary .shrS (.inst ⟨0, 1⟩) (.const (.int 16)), some .int⟩,
        ⟨⟨0, 1⟩, ⟨3, 1⟩, .narrow .short (.temp 1), some .int⟩] := rfl

theorem emitted_halves {s'}
    (hs' : s'.Extends (storeHalves.planRawStore ⟨0, 1⟩ ⟨3, 1⟩ twoShorts 0 4 ⟨0, 1⟩ halvesPlanner)) :
    halvesMachine.Emitted storeHalves halvesName halvesPlanner s' halvesFrame := by
  have hwf : halvesMachine.body.insts.WellFormed := .ofEntries _
  have htemps : ∀ (i : Nat) t, s'.temps[i]? = some t → _ := fun i t ht => by
    have hall := hs'.getElem? ht
    rw [← Array.getElem?_toList, temps_storeHalves] at hall
    exact hall
  refine ⟨hwf, ((SideTable.Within.empty _).insert rfl _).insert rfl _, ?_, ?_, ?_, ?_⟩
  · intro i hi
    simp [halvesPlanner] at hi
  · intro i t _ ht
    have ht := htemps i t ht
    match i with
    | 0 | 1 | 2 => cases ht; rfl
    | i + 3 => cases ht
  · intro i _ _ v hv hname
    cases hv with
    | current hv =>
      obtain rfl : v = .const (.int 0) := by simpa [halvesPlanner] using hv
      have := congrArg Key.index hname
      simp only [halvesName] at this
      omega
    | inst hx =>
      obtain rfl := hname
      cases hx
    | const k =>
      have := congrArg Key.index hname
      simp only [halvesName] at this
      omega
    | temp hj =>
      have := congrArg Key.index hname
      simp only [halvesName] at this
      rw [Nat.add_right_cancel this]
  · intro i t k _ ht hk
    have ht := htemps i t ht
    match i with
    | 0 | 2 => cases ht; simp [TempOp.operands] at hk
    | 1 =>
      cases ht
      obtain rfl : k = .int 16 := by simpa [TempOp.operands] using hk
      rfl
    | i + 3 => cases ht

def halvesHeap : Heap :=
  { objects := .ofEntries [{ shape := .array .short 2, fields := #[.int 0, .int 0] }] }

theorem beside_halves : storeHalves.Beside halvesMachine halvesName (fun _ => some ⟨0, 1⟩)
    halvesPlanner (storeHalves.planRawStore ⟨0, 1⟩ ⟨3, 1⟩ twoShorts 0 4 ⟨0, 1⟩ halvesPlanner)
    halvesFrame halvesHeap where
  emitted := emitted_halves (.refl _)
  packed := ⟨by decide, by simp [storeHalves]⟩
  env := rfl
  apart o ho o' ho' _ _ _ := (mem_singleton.1 ho).trans (mem_singleton.1 ho').symm
  mirrors o ho r hr := by
    obtain rfl := mem_singleton.1 ho
    cases hr
    refine ⟨_, rfl, rfl, rfl, fun k hk => ?_⟩
    match k, hk with
    | 0, _ | 1, _ => rfl

/-- The number has all bits set but for the upper fifteen: the shorts become -1 and 1. A single
short of it is -1 too. -/
theorem stores_planned_exactly_halves :
    (∃ f' ws, halvesMachine.runPlanned halvesName halvesPlanner
        (storeHalves.planRawStore ⟨0, 1⟩ ⟨3, 1⟩ twoShorts 0 4 ⟨0, 1⟩ halvesPlanner) halvesFrame {} =
          (.ok f', {}) ∧
      ((storeHalves.planRawStore ⟨0, 1⟩ ⟨3, 1⟩ twoShorts 0 4 ⟨0, 1⟩ halvesPlanner).getFrom 0 2).map
        (Scalar.read? halvesName f') = ws.map some ∧ ws = [.int (-1), .int 1] ∧
      ws.flatMap (fun e => lowBytes 2 e.number) = [255, 255, 1, 0]) ∧
    ∃ f', halvesMachine.runPlanned halvesName halvesPlanner
        (storeHalves.narrow ⟨0, 1⟩ ⟨3, 1⟩ (.inst ⟨0, 1⟩) .short halvesPlanner).2 halvesFrame {} =
          (.ok f', {}) ∧
      (storeHalves.narrow ⟨0, 1⟩ ⟨3, 1⟩ (.inst ⟨0, 1⟩) .short halvesPlanner).1.read? halvesName f' =
        some (.int (-1)) := by
  obtain ⟨hraw, hnarrow⟩ := stores_planned_exactly storeHalves halvesMachine halvesName
  constructor
  · let f₀ : Frame :=
      { values := (SideTable.empty.insert ⟨0, 1⟩ (.int 131071)).insert ⟨2, 1⟩ (.ref ⟨0, 1⟩)
        block := ⟨0, 1⟩ }
    obtain ⟨f', ws, hrun, hread, heval, -, hbytes⟩ :=
      @hraw halvesMachine _ _ _ f₀ _ _ _ ⟨2, 1⟩ _ _ _ _ _ .int .short 2 4 (.int 131071) _ {}
        beside_halves (.head _) rfl rfl rfl rfl rfl rfl rfl rfl rfl rfl rfl rfl (by decide)
        (by decide) (by decide)
    have hws : ws = [.int (-1), .int 1] := by
      have := heval.symm.trans (show _ = Except.ok (.write ⟨0, 1⟩ 0 [.int (-1), .int 1]) from rfl)
      cases this
      rfl
    exact ⟨f', ws, hrun, hread, hws, hbytes.trans (by decide)⟩
  · exact @hnarrow _ _ _ _ _ (.int 131071) .int .short {} (emitted_halves ⟨_, rfl⟩) rfl rfl
      ⟨nofun, fun _ => .inl rfl⟩ rfl

end PlanContext

/-! ## Where the types do not tell -/

/-- How a run of the body ends that has no one to call. -/
def Body.exit? (body : Body) (p : Program) (args : List Value) : Option Exit :=
  (Machine.run { program := p, body, args } Host.idle 20 {} ()).toOption.map Prod.fst

def boxOf (t : Ty) : Program where
  classes := .ofEntries [{ name := "Box", parent := none, layout := [⟨0, 1⟩], flags := {} }]
  fields := .ofEntries [{ name := "value", ty := t, holder := ⟨0, 1⟩ }]

/-- Puts its argument into a box by way of a phi of type byte, and returns what is in the box. -/
def boxByte : Body where
  blocks := .ofEntries
    [{ insts := [⟨0, 1⟩], term := .jump ⟨1, 1⟩ },
      { insts := [⟨1, 1⟩, ⟨2, 1⟩, ⟨3, 1⟩, ⟨4, 1⟩], term := .ret (some ⟨4, 1⟩) }]
  insts := .ofEntries
    [⟨.param 0, some .int⟩, ⟨.phi [(⟨0, 1⟩, ⟨0, 1⟩)], some .byte⟩, ⟨.new ⟨0, 1⟩, some .ref⟩,
      ⟨.storeField ⟨2, 1⟩ ⟨0, 1⟩ ⟨1, 1⟩, none⟩, ⟨.loadField ⟨2, 1⟩ ⟨0, 1⟩, some .long⟩]
  states := .ofEntries []
  entry := ⟨0, 1⟩
  params := [.int]
  ret := some .long

def boxReference : Body where
  blocks := .ofEntries [{ insts := [⟨0, 1⟩, ⟨1, 1⟩, ⟨2, 1⟩], term := .ret none }]
  insts := .ofEntries
    [⟨.param 0, some .ref⟩, ⟨.new ⟨0, 1⟩, some .ref⟩, ⟨.storeField ⟨1, 1⟩ ⟨0, 1⟩ ⟨0, 1⟩, none⟩]
  states := .ofEntries []
  entry := ⟨0, 1⟩
  params := [.ref]
  ret := none

/-- Both bodies pass the check. A box for a long makes a long of the number; without the box the
number is returned as it is, an int, since a byte counts as what needs no conversion. A box for a
byte takes the reference as it is; without the box the conversion of it fails. -/
theorem unconverted_boxes :
    (boxByte.check (boxOf .long) = .ok () ∧
      boxByte.exit? (boxOf .long) [.int 5] = some (.ret (some (.long 5))) ∧
      (boxByte.optimize (boxOf .long) {}).2.eliminated = [⟨2, 1⟩] ∧
      (boxByte.optimize (boxOf .long) {}).1.exit? (boxOf .long) [.int 5] =
        some (.ret (some (.int 5)))) ∧
    boxReference.check (boxOf .byte) = .ok () ∧
    boxReference.exit? (boxOf .byte) [.null] = some (.ret none) ∧
    (boxReference.optimize (boxOf .byte) {}).2.eliminated = [⟨1, 1⟩] ∧
    (boxReference.optimize (boxOf .byte) {}).1.exit? (boxOf .byte) [.null] = none := by
  refine ⟨⟨by cbv, ?_, ?_, ?_⟩, by cbv, ?_, ?_, ?_⟩
  all_goals decide +kernel

end EscapeAnalysis
