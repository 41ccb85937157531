import EscapeAnalysis.Proofs.Steps

/-!
# The effects of operations, read backwards

If an operation has an effect, which values its operands had, which objects they referred to, and
what the effect is (`Machine.Acts`); if it has none, what can have stopped it (`Machine.Stops`).
-/

namespace EscapeAnalysis

open EscapeAnalysis.Except

variable {v : Value}

/-- The code is out of order: something is read that is not there, or a phi stands too late. -/
def RunError.isDisorder : RunError → Bool
  | .uncomputed _ | .uncomputedDebug _ | .noPhiInput _ _ | .phisAtEntry _ | .latePhi _
  | .objectOutOfRange => true
  | _ => false

/-- An object or a slot was asked for that does not exist. -/
def RunError.isDangling : RunError → Bool
  | .noObject _ | .fieldOutOfRange | .slotOutOfRange => true
  | _ => false

theorem Value.toInt?_eq_some {n} : v.toInt? = some n ↔ v = .int n := by
  cases v <;> simp [Value.toInt?]

theorem Value.narrow_eq_ref {t o} : v.narrow t = .ref o ↔ v = .ref o := by
  rcases v with n | n | _ | o' | c <;> cases t <;> simp [Value.narrow, Value.toLong?]

theorem Value.narrow_eq_null {t} : v.narrow t = .null ↔ v = .null := by
  rcases v with n | n | _ | o | c <;> cases t <;> simp [Value.narrow, Value.toLong?]

theorem UnOp.apply_plain {op : UnOp} {w} (h : op.apply v = .ok w) :
    w ≠ .null ∧ ∀ o, w ≠ .ref o := by
  refine ⟨?_, fun o => ?_⟩ <;> rintro rfl <;> revert h <;> cases op <;> cases v <;>
    simp [UnOp.apply, pure, Except.pure, throw, throwThe, MonadExceptOf.throw, Value.narrow_eq_null,
      Value.narrow_eq_ref]

theorem BinOp.apply_plain {op : BinOp} {w u} (h : op.apply v w = .ok u) :
    u ≠ .null ∧ ∀ o, u ≠ .ref o := by
  refine ⟨?_, fun o => ?_⟩ <;> rintro rfl <;> revert h <;> cases v <;> cases w <;> cases op <;>
    simp [BinOp.apply, onInts, onLongs, Value.ofBool, pure, Except.pure, throw, throwThe,
      MonadExceptOf.throw]

theorem Program.layout_of_fieldIndex? {p : Program} {c field idx}
    (h : p.fieldIndex? c field = some idx) : (p.layout c)[idx]? = some field := by
  rw [fieldIndex?, List.findIdx?_eq_some_iff_getElem] at h
  obtain ⟨hlt, hf, -⟩ := h
  rw [List.getElem?_eq_getElem hlt, beq_iff_eq.1 hf]

namespace Machine

variable {f : Frame} {h : Heap} {x y z array index value obj len : InstId} {o : ObjRef}
  {ob : Object} {field : FieldId} {m : Machine} {eff : Effect} {e : RunError} {elem : Ty}
variable {α : Type} {a : α} {cls : ClassId}

@[simp] theorem fail_ne_ok :
    (fail e : Except Halt α) ≠ .ok a := by simp [fail, throw, throwThe, MonadExceptOf.throw]

@[simp] theorem raise_ne_ok {t} : (raise t : Except Halt α) ≠ .ok a := by
  simp [raise, throw, throwThe, MonadExceptOf.throw]

@[simp] theorem orFail_eq_ok {a?} : orFail a? e = .ok a ↔ a? = some a := by
  rcases a? with _ | b <;> simp [orFail, pure, Except.pure]

@[simp] theorem target_eq_ok : target f x = .ok o ↔ f.values.get? x = some (.ref o) := by
  simp only [target, bind_eq_ok, Frame.get_eq_ok]
  constructor
  · rintro ⟨v, hv, h⟩
    rcases v with n | n | _ | o' | c <;> simp [pure, Except.pure] at h
    exact h ▸ hv
  · exact fun h => ⟨_, h, rfl⟩

@[simp] theorem object_eq_ok : object h o = .ok ob ↔ h.get? o = some ob := orFail_eq_ok

theorem slotOf_eq_ok {p idx} : slotOf p ob field = .ok idx ↔
    ∃ c, ob.shape = .inst c ∧ p.fieldIndex? c field = some idx := by
  rw [slotOf]
  rcases ob.shape with c | ⟨elem, len⟩ <;> simp

@[simp] theorem liftError_eq_ok {x} : liftError x = .ok a ↔ x = .ok a := by
  rcases x with e | b <;> simp [liftError, pure, Except.pure]

attribute [local simp] eval

theorem eval_newArray (he : m.eval f h x (.newArray elem len) = .ok eff) : ∃ n : Int32,
    f.values.get? len = some (.int n) ∧ 0 ≤ n.toInt ∧ eff = .alloc (.array elem n.toInt.toNat) := by
  simp only [eval, bind_eq_ok, Frame.get_eq_ok, orFail_eq_ok, Value.toInt?_eq_some] at he
  obtain ⟨v, hv, n, rfl, he⟩ := he
  split at he
  · simp at he
  · exact ⟨n, hv, by omega, (pure_eq_ok.1 he).symm⟩

theorem eval_loadField : m.eval f h x (.loadField obj field) = .ok eff ↔
    ∃ o ob c idx v, f.values.get? obj = some (.ref o) ∧ h.get? o = some ob ∧ ob.shape = .inst c ∧
      m.program.fieldIndex? c field = some idx ∧ ob.fields[idx]? = some v ∧ eff = .value v := by
  simp only [eval, bind_eq_ok, target_eq_ok, object_eq_ok, slotOf_eq_ok, orFail_eq_ok,
    pure_eq_ok]
  constructor
  · rintro ⟨o, ho, ob, hob, idx, ⟨c, hc, hidx⟩, v, hv, rfl⟩
    exact ⟨o, ob, c, idx, v, ho, hob, hc, hidx, hv, rfl⟩
  · rintro ⟨o, ob, c, idx, v, ho, hob, hc, hidx, hv, rfl⟩
    exact ⟨o, ho, ob, hob, idx, ⟨c, hc, hidx⟩, v, hv, rfl⟩

theorem copyBound_eq_ok {n} :
    copyBound f x = .ok n ↔ ∃ k : Int32, f.values.get? x = some (.int k) ∧ n = k.toInt := by
  simp only [copyBound, bind_eq_ok, Frame.get_eq_ok, orFail_eq_ok, Value.toInt?_eq_some,
    pure_eq_ok]
  constructor
  · rintro ⟨v, hv, k, rfl, rfl⟩
    exact ⟨k, hv, rfl⟩
  · rintro ⟨k, hk, rfl⟩
    exact ⟨_, hk, k, rfl, rfl⟩

theorem plain_of_mem_rawElements {size count bits v} (hv : v ∈ rawElements elem size count bits) :
    v ≠ .null ∧ ∀ o, v ≠ .ref o := by
  obtain ⟨k, -, rfl⟩ := List.mem_map.1 hv
  exact ⟨fun h => (by cases Value.narrow_eq_null.1 h), fun o h => by cases Value.narrow_eq_ref.1 h⟩

theorem eval_refEq {lhs rhs} (he : m.eval f h x (.refEq lhs rhs) = .ok eff) :
    ∃ a b, f.values.get? lhs = some a ∧ f.values.get? rhs = some b ∧
      eff = .value (.ofBool (a == b)) := by
  simp only [eval, bind_eq_ok, Frame.get_eq_ok, pure_eq_ok] at he
  obtain ⟨a, ha, b, hb, rfl⟩ := he
  exact ⟨a, b, ha, hb, rfl⟩

theorem eval_loadClass (he : m.eval f h x (.loadClass obj) = .ok eff) :
    ∃ o ob c, f.values.get? obj = some (.ref o) ∧ h.get? o = some ob ∧ ob.shape = .inst c ∧
      eff = .value (.cls c) := by
  simp only [eval, bind_eq_ok, target_eq_ok, object_eq_ok] at he
  obtain ⟨o, ho, ob, hob, he⟩ := he
  split at he
  · rename_i c hc
    exact ⟨o, ob, c, ho, hob, hc, (pure_eq_ok.1 he).symm⟩
  · simp at he

theorem eval_instanceOf {c} (he : m.eval f h x (.instanceOf obj cls) = .ok eff)
    (ho : f.values.get? obj = some (.ref o)) (hob : h.get? o = some ob) (hc : ob.shape = .inst c) :
    eff = .value (.ofBool (m.program.isSubclass c cls)) := by
  simp only [eval, bind_eq_ok, Frame.get_eq_ok] at he
  obtain ⟨v, hv, he⟩ := he
  obtain rfl := Option.mem_unique ho hv
  simp only [bind_eq_ok, object_eq_ok] at he
  obtain ⟨ob', hob', he⟩ := he
  obtain rfl := Option.mem_unique hob hob'
  rw [hc] at he
  exact (pure_eq_ok.1 he).symm

theorem get?_of_instanceOf (he : m.eval f h x (.instanceOf obj cls) = .ok eff) :
    ∃ v, f.values.get? obj = some v := by
  simp only [eval, bind_eq_ok, Frame.get_eq_ok] at he
  obtain ⟨v, hv, -⟩ := he
  exact ⟨v, hv⟩

theorem eval_checkCast (he : m.eval f h x (.checkCast obj cls) = .ok eff) :
    ∃ v, f.values.get? obj = some v ∧ eff = .value v := by
  simp only [eval, bind_eq_ok, Frame.get_eq_ok] at he
  obtain ⟨v, hv, he⟩ := he
  refine ⟨v, hv, ?_⟩
  rcases v with n | n | _ | o | c
  · simp at he
  · simp at he
  · exact (pure_eq_ok.1 he).symm
  · simp only [bind_eq_ok, object_eq_ok] at he
    obtain ⟨ob, -, he⟩ := he
    split at he
    · split at he
      · exact (pure_eq_ok.1 he).symm
      · simp at he
    · simp at he
  · simp at he

/-- The effects of operations, as far as references are concerned: where a reference or null can
come from, what is created, and what is written. -/
inductive Acts (m : Machine) (f : Frame) (h : Heap) : Op → Effect → Prop
  | none {op : Op} : Acts m f h op .none
  | plain {op : Op} {v} (hv : ∀ o, v ≠ .ref o) (hnull : v = .null → op = .const .null) :
      Acts m f h op (.value v)
  | param {idx : Nat} {v} (hv : m.args[idx]? = some v) : Acts m f h (.param idx) (.value v)
  | new (cls : ClassId) : Acts m f h (.new cls) (.alloc (.inst cls))
  | newArray {elem : Ty} {len n} (hlen : f.values.get? len = some (.int n)) (hpos : 0 ≤ n.toInt) :
      Acts m f h (.newArray elem len) (.alloc (.array elem n.toInt.toNat))
  | loadField {obj : InstId} {field o ob c idx v} (ho : f.values.get? obj = some (.ref o))
      (hob : h.get? o = some ob) (hc : ob.shape = .inst c)
      (hidx : m.program.fieldIndex? c field = some idx) (hv : ob.fields[idx]? = some v) :
      Acts m f h (.loadField obj field) (.value v)
  | storeField {obj : InstId} {field value o ob c idx v} (ho : f.values.get? obj = some (.ref o))
      (hv : f.values.get? value = some v) (hob : h.get? o = some ob) (hc : ob.shape = .inst c)
      (hidx : m.program.fieldIndex? c field = some idx) :
      Acts m f h (.storeField obj field value) (.write o idx [v.narrow (m.program.fieldTy field)])
  | loadElem {array index : InstId} {o ob n v} (ho : f.values.get? array = some (.ref o))
      (hob : h.get? o = some ob) (hn : f.values.get? index = some (.int n))
      (hv : ob.fields[n.toInt.toNat]? = some v) (hpos : 0 ≤ n.toInt) :
      Acts m f h (.loadElem array index) (.value v)
  | storeElem {array index value : InstId} {o ob n elem v}
      (ho : f.values.get? array = some (.ref o)) (hn : f.values.get? index = some (.int n))
      (hob : h.get? o = some ob) (helem : ob.elem? = some elem) (hv : f.values.get? value = some v)
      (hpos : 0 ≤ n.toInt) (hlt : n.toInt.toNat < ob.fields.size) :
      Acts m f h (.storeElem array index value) (.write o n.toInt.toNat [v.narrow elem])
  | rawStore {array : InstId} {offset width value o ob elem first size count bits}
      (hob : h.get? o = some ob) (helem : ob.elem? = some elem)
      (hle : first + count ≤ ob.fields.size) :
      Acts m f h (.rawStore array offset width value)
        (.write o first (rawElements elem size count bits))
  | arrayCopy {src srcPos dst dstPos len : InstId} {s d source dest i j n}
      (hs : f.values.get? src = some (.ref s)) (hd : f.values.get? dst = some (.ref d))
      (hi : f.values.get? srcPos = some (.int i)) (hj : f.values.get? dstPos = some (.int j))
      (hn : f.values.get? len = some (.int n)) (hsource : h.get? s = some source)
      (hdest : h.get? d = some dest) (helem : source.elem?.isSome ∧ source.elem? = dest.elem?)
      (hpos : 0 ≤ i.toInt ∧ 0 ≤ j.toInt ∧ 0 ≤ n.toInt) (hle : j.toInt + n.toInt ≤ dest.fields.size) :
      Acts m f h (.arrayCopy src srcPos dst dstPos len) (.write d j.toInt.toNat
        ((source.fields.toList.drop i.toInt.toNat).take n.toInt.toNat))
  | arrayFill {array value : InstId} {o ob elem v} (ho : f.values.get? array = some (.ref o))
      (hv : f.values.get? value = some v) (hob : h.get? o = some ob) (helem : ob.elem? = some elem) :
      Acts m f h (.arrayFill array value)
        (.write o 0 (List.replicate ob.fields.size (v.narrow elem)))
  | loadGlobal (g : GlobalId) : Acts m f h (.loadGlobal g) (.value (h.global m.program g))
  | storeGlobal {g : GlobalId} {value v} (hv : f.values.get? value = some v) :
      Acts m f h (.storeGlobal g value) (.setGlobal g (v.narrow (m.program.globalTy g)))
  | checkCast {obj : InstId} {cls v} (hv : f.values.get? obj = some v) :
      Acts m f h (.checkCast obj cls) (.value v)
  | monitorEnter {obj : InstId} {o ob} (ho : f.values.get? obj = some (.ref o))
      (hob : h.get? o = some ob) (hroom : ob.isFull = false) :
      Acts m f h (.monitorEnter obj) (.setLocks o (ob.locks + 1))
  | monitorExit {obj : InstId} {o ob} (ho : f.values.get? obj = some (.ref o))
      (hob : h.get? o = some ob) (hlocks : ob.locks ≠ 0) :
      Acts m f h (.monitorExit obj) (.setLocks o (ob.locks - 1))
  | exception {t : Thrown} (ht : f.exception = some t) : Acts m f h .exception (.value t.caught)

theorem acts_storeElem (he : m.eval f h x (.storeElem array index value) = .ok eff) :
    Acts m f h (.storeElem array index value) eff := by
  simp only [eval, bind_eq_ok, target_eq_ok, Frame.get_eq_ok, object_eq_ok, orFail_eq_ok,
    Value.toInt?_eq_some] at he
  obtain ⟨o, ho, w, hw, n, rfl, ob, hob, elem, helem, v, hv, he⟩ := he
  split at he
  · rename_i hb
    cases he
    exact .storeElem ho hw hob helem hv hb.1 hb.2
  · simp at he

theorem acts_rawStore {offset width}
    (he : m.eval f h x (.rawStore array offset width value) = .ok eff) :
    Acts m f h (.rawStore array offset width value) eff := by
  simp only [eval, rawStore, bind_eq_ok, object_eq_ok, orFail_eq_ok] at he
  obtain ⟨o, -, v, -, ob, hob, elem, helem, size, -, he⟩ := he
  rcases v with n | n | _ | o' | c
  case int | long =>
    simp only [bind_eq_ok, pure_eq_ok] at he
    obtain ⟨⟨bits, valueSize⟩, -, he⟩ := he
    simp only at he
    split at he
    · split at he
      · simp at he
      · cases he
        exact .rawStore hob helem (by omega)
    · simp at he
  all_goals simp [bind_eq_ok] at he

theorem acts_arrayCopy {src srcPos dst dstPos}
    (he : m.eval f h x (.arrayCopy src srcPos dst dstPos len) = .ok eff) :
    Acts m f h (.arrayCopy src srcPos dst dstPos len) eff := by
  simp only [eval, arrayCopy, bind_eq_ok, target_eq_ok, object_eq_ok, copyBound_eq_ok] at he
  obtain ⟨s, hs, d, hd, _, ⟨i, hi, rfl⟩, _, ⟨j, hj, rfl⟩, _, ⟨n, hn, rfl⟩, source, hsource, dest,
    hdest, he⟩ := he
  split at he
  · rename_i helem
    split at he
    · simp at he
    · cases he
      exact .arrayCopy hs hd hi hj hn hsource hdest helem (by omega) (by omega)
  · simp at he

theorem acts_of_eval {op} (he : m.eval f h x op = .ok eff) : Acts m f h op eff := by
  cases op
  case param idx =>
    simp only [eval, bind_eq_ok, orFail_eq_ok, pure_eq_ok] at he
    obtain ⟨v, hv, rfl⟩ := he
    exact .param hv
  case const c =>
    cases he
    exact .plain (fun o => by cases c <;> nofun) fun e => by cases c <;> first | rfl | cases e
  case unary op y =>
    simp only [eval, bind_eq_ok, pure_eq_ok, liftError_eq_ok] at he
    obtain ⟨v, -, w, hw, rfl⟩ := he
    exact .plain (UnOp.apply_plain hw).2 fun e => absurd e (UnOp.apply_plain hw).1
  case binary op y z =>
    simp only [eval, bind_eq_ok, pure_eq_ok, liftError_eq_ok] at he
    obtain ⟨v, -, w, -, u, hu, rfl⟩ := he
    exact .plain (BinOp.apply_plain hu).2 fun e => absurd e (BinOp.apply_plain hu).1
  case phi => simp [eval] at he
  case new c =>
    cases he
    exact .new c
  case newArray =>
    obtain ⟨n, hn, hpos, rfl⟩ := eval_newArray he
    exact .newArray hn hpos
  case loadField =>
    obtain ⟨o, ob, c, idx, v, ho, hob, hc, hidx, hv, rfl⟩ := eval_loadField.1 he
    exact .loadField ho hob hc hidx hv
  case storeField =>
    simp only [eval, bind_eq_ok, target_eq_ok, Frame.get_eq_ok, object_eq_ok, slotOf_eq_ok,
      pure_eq_ok] at he
    obtain ⟨o, ho, v, hv, ob, hob, idx, ⟨c, hc, hidx⟩, rfl⟩ := he
    exact .storeField ho hv hob hc hidx
  case loadElem =>
    simp only [eval, bind_eq_ok, target_eq_ok, Frame.get_eq_ok, object_eq_ok, orFail_eq_ok,
      Value.toInt?_eq_some] at he
    obtain ⟨o, ho, ob, hob, v, hv, n, rfl, he⟩ := he
    split at he
    · simp at he
    · split at he
      · cases he
        exact .loadElem ho hob hv ‹_› (by omega)
      · simp at he
  case storeElem => exact acts_storeElem he
  case rawStore => exact acts_rawStore he
  case arrayCopy => exact acts_arrayCopy he
  case arrayFill =>
    simp only [eval, bind_eq_ok, target_eq_ok, Frame.get_eq_ok, object_eq_ok, orFail_eq_ok,
      pure_eq_ok] at he
    obtain ⟨o, ho, v, hv, ob, hob, elem, helem, rfl⟩ := he
    exact .arrayFill ho hv hob helem
  case loadGlobal g =>
    cases he
    exact .loadGlobal g
  case storeGlobal =>
    simp only [eval, bind_eq_ok, Frame.get_eq_ok, pure_eq_ok] at he
    obtain ⟨v, hv, rfl⟩ := he
    exact .storeGlobal hv
  case checkCast =>
    obtain ⟨v, hv, rfl⟩ := eval_checkCast he
    exact .checkCast hv
  case refEq =>
    simp only [eval, bind_eq_ok, pure_eq_ok] at he
    obtain ⟨v, -, w, -, rfl⟩ := he
    exact .plain nofun nofun
  case arrayLength =>
    simp only [eval, bind_eq_ok] at he
    obtain ⟨o, -, ob, -, he⟩ := he
    split at he
    · cases he
      exact .plain nofun nofun
    · simp at he
  case loadClass =>
    simp only [eval, bind_eq_ok] at he
    obtain ⟨o, -, ob, -, he⟩ := he
    split at he
    · cases he
      exact .plain nofun nofun
    · simp at he
  case instanceOf =>
    simp only [eval, bind_eq_ok] at he
    obtain ⟨v, -, he⟩ := he
    split at he
    · simp only [bind_eq_ok] at he
      obtain ⟨ob, -, he⟩ := he
      split at he <;> cases he <;> exact .plain nofun nofun
    · cases he
      exact .plain nofun nofun
  case monitorEnter =>
    simp only [eval, bind_eq_ok, target_eq_ok, object_eq_ok] at he
    obtain ⟨o, ho, ob, hob, he⟩ := he
    split at he
    · simp at he
    · cases he
      exact .monitorEnter ho hob (by simpa using ‹¬ ob.isFull = true›)
  case monitorExit =>
    simp only [eval, bind_eq_ok, target_eq_ok, object_eq_ok] at he
    obtain ⟨o, ho, ob, hob, he⟩ := he
    split at he
    · simp at he
    · cases he
      exact .monitorExit ho hob ‹_›
  case exception =>
    simp only [eval, bind_eq_ok, orFail_eq_ok, pure_eq_ok] at he
    obtain ⟨t, ht, rfl⟩ := he
    exact .exception ht
  case call | barrier | safepoint =>
    cases he
    exact .none

/-- What can stop an operation: an operand that has no value, a phi that stands too late, an object
or a slot that does not exist, something that is wrong with the values, or a built-in exception. -/
inductive Stops (m : Machine) (f : Frame) (h : Heap) (x : InstId) (op : Op) : Halt → Prop
  | uncomputed {y : InstId} (hy : y ∈ op.operands) (hv : f.values.get? y = none) :
      Stops m f h x op (.error (.uncomputed y))
  | late (hphi : op.isPhi = true) : Stops m f h x op (.error (.latePhi x))
  | noObject {y : InstId} {o} (hy : f.values.get? y = some (.ref o)) (ho : h.get? o = none) :
      Stops m f h x op (.error (.noObject o))
  | noSlot {o : ObjRef} {ob c field idx} (hob : h.get? o = some ob) (hc : ob.shape = .inst c)
      (hidx : m.program.fieldIndex? c field = some idx) (hslot : ob.fields[idx]? = none) :
      Stops m f h x op (.error .fieldOutOfRange)
  | wrong {e : RunError} (he : e.isDisorder = false) (he' : e.isDangling = false) :
      Stops m f h x op (.error e)
  | thrown {t : Thrown} (ht : ∀ v, t ≠ .object v) : Stops m f h x op (.thrown t)

/-- Only what can stop the operation stops the computation, and what it gives satisfies `P`. -/
abbrev Goes (m : Machine) (f : Frame) (h : Heap) (x : InstId) (op : Op) {α : Type} (P : α → Prop)
    (r : Except Halt α) : Prop :=
  Except.Meets (Stops m f h x op) P r

namespace Goes

variable {op : Op} {P : α → Prop} {e : RunError}

theorem done (a : α) : m.Goes f h x op (fun _ => True) (pure a) := trivial

theorem raise {t} (ht : ∀ v, t ≠ .object v) : m.Goes f h x op P (raise t) := .thrown ht

theorem fail (he : e.isDisorder = false) (he' : e.isDangling = false) :
    m.Goes f h x op P (fail e) := .wrong he he'

theorem orFail {a? : Option α} (he : e.isDisorder = false) (he' : e.isDangling = false) :
    m.Goes f h x op (fun a => a? = some a) (orFail a? e) := by
  cases a? with
  | none => exact fail he he'
  | some a => exact rfl

theorem object (hy : f.values.get? y = some (.ref o)) :
    m.Goes f h x op (fun ob => h.get? o = some ob) (object h o) := by
  rw [Machine.object]
  cases ho : h.get? o with
  | none => exact .noObject hy ho
  | some ob => exact rfl

theorem slotOf (p : Program) (ob : Object) (field : FieldId) :
    m.Goes f h x op (fun idx => ∃ c, ob.shape = .inst c ∧ p.fieldIndex? c field = some idx)
      (slotOf p ob field) := by
  rw [Machine.slotOf]
  split
  · rename_i c hc
    exact (orFail rfl rfl).mono (fun _ => id) fun idx hidx => ⟨c, hc, hidx⟩
  · exact fail rfl rfl

theorem unary (u : UnOp) (v : Value) : m.Goes f h x op (fun _ => True) (liftError (u.apply v)) := by
  unfold UnOp.apply
  split <;> first | exact done _ | exact fail rfl rfl

theorem binary (u : BinOp) (v w : Value) :
    m.Goes f h x op (fun _ => True) (liftError (u.apply v w)) := by
  unfold BinOp.apply
  split <;> first | exact done _ | exact fail rfl rfl

section

variable (hy : y ∈ op.operands)
include hy

theorem get :
    m.Goes f h x op (fun v => f.values.get? y = some v) (f.get y) := by
  rw [Frame.get]
  cases hv : f.values.get? y with
  | none => exact .uncomputed hy hv
  | some v => exact rfl

theorem target :
    m.Goes f h x op (fun o => f.values.get? y = some (.ref o)) (target f y) := by
  refine (get hy).bind fun v hv => ?_
  cases v with
  | null => exact raise nofun
  | ref o => exact hv
  | int | long | cls => exact fail rfl rfl

theorem copyBound : m.Goes f h x op (fun _ => True) (copyBound f y) :=
  (get hy).bind fun _ _ => (orFail rfl rfl).bind fun _ _ => done _

theorem rawStore {offset width : Nat} (hz : z ∈ op.operands) :
    m.Goes f h x op (fun _ => True) (rawStore f h y offset width z) := by
  refine (target hy).bind fun _ ho => (get hz).bind fun v _ => (object ho).bind fun _ _ =>
    (orFail rfl rfl).bind fun _ _ => (orFail rfl rfl).bind fun _ _ => ?_
  cases v with
  | int | long =>
    refine (done _).bind fun _ _ => ?_
    dsimp only
    split
    · split
      · exact raise nofun
      · exact done _
    · exact fail rfl rfl
  | null | ref | cls => exact fail rfl rfl

theorem loadField :
    m.Goes f h x op (fun _ => True) (m.eval f h x (.loadField y field)) := by
  refine (target hy).bind fun _ ho => (object ho).bind fun ob hob =>
    (slotOf _ _ _).bind fun idx ⟨c, hc, hidx⟩ => ?_
  cases hslot : ob.fields[idx]? with
  | none => exact .noSlot hob hc hidx hslot
  | some v => exact done _

end

/-- Whatever stops an operation is among the things that can. -/
theorem eval (m : Machine) (f : Frame) (h : Heap) (x : InstId) (op : Op) :
    m.Goes f h x op (fun _ => True) (m.eval f h x op) := by
  cases op
  case phi => exact .late rfl
  case rawStore => exact rawStore (by simp [Op.operands]) (by simp [Op.operands])
  case loadField => exact loadField (by simp [Op.operands])
  all_goals
    simp only [Machine.eval, Machine.arrayCopy]
    repeat' with_reducible first
      | exact done _
      | apply Except.Meets.bind
      | exact get (by simp [Op.operands])
      | exact target (by simp [Op.operands])
      | exact object ‹_›
      | exact orFail rfl rfl
      | exact slotOf _ _ _
      | exact copyBound (by simp [Op.operands])
      | exact unary _ _
      | exact binary _ _ _
      | exact raise (by simp)
      | exact fail rfl rfl
      | intro _ _
      | split

end Goes

theorem stops_of_eval {op halt} (he : m.eval f h x op = .error halt) : Stops m f h x op halt := by
  have hgoes := Goes.eval m f h x op
  rwa [he] at hgoes

end Machine

end EscapeAnalysis
