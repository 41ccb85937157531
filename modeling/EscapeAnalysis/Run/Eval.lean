import EscapeAnalysis.Heap.Basic
import EscapeAnalysis.Ir.Body
import EscapeAnalysis.Run.Arith
import EscapeAnalysis.Run.Exit

/-!
# The meaning of operations

An operation reads its operands from the frame and looks at the heap. What it does then is an
effect. Whatever stops an operation stops it before anything has changed.
-/

namespace EscapeAnalysis

inductive Halt where
  | error (e : RunError)
  | thrown (t : Thrown)
deriving DecidableEq

structure Frame where
  values : SideTable .inst Value := {}
  block : BlockId
  pred : Option BlockId := none
  exception : Option Thrown := none

namespace Frame

def get (f : Frame) (x : InstId) : Except Halt Value :=
  match f.values.get? x with
  | some v => pure v
  | none => throw (.error (.uncomputed x))

def set (f : Frame) (x : InstId) (v : Value) : Frame := { f with values := f.values.insert x v }

def jump (f : Frame) (b : BlockId) : Frame := { f with pred := some f.block, block := b }

end Frame

inductive Effect where
  | none
  | value (v : Value)
  | alloc (shape : Shape)
  /-- Writes consecutive slots of an object from slot `first` on. -/
  | write (o : ObjRef) (first : Nat) (vs : List Value)
  | setLocks (o : ObjRef) (n : UInt32)
  | setGlobal (g : GlobalId) (v : Value)
deriving DecidableEq

/-- Writes consecutive slots from slot `first` on. -/
def writeSlots (fields : Array Value) (first : Nat) (vs : List Value) : Array Value :=
  (vs.zipIdx first).foldl (fun fields (v, idx) => fields.setIfInBounds idx v) fields

/-- The value of an operation with this effect, and the heap after it. -/
def Effect.apply (p : Program) (h : Heap) : Effect → Option Value × Heap
  | none => (Option.none, h)
  | value v => (some v, h)
  | alloc shape =>
    let (o, h) := h.alloc p shape
    (some (.ref o), { h with allocations := h.allocations + 1 })
  | write o first vs =>
    (Option.none,
      h.modify o fun obj => { obj with fields := writeSlots obj.fields first vs })
  | setLocks o n => (Option.none, h.modify o fun obj => { obj with locks := n })
  | setGlobal g v => (Option.none, h.setGlobal g v)

structure Machine where
  program : Program
  body : Body
  args : List Value
  /-- Leave compiled code on reaching the instruction that has this debug state. -/
  forced : Option SafepointId := none

namespace Machine

def fail {α : Type} (e : RunError) : Except Halt α := throw (.error e)

def raise {α : Type} (t : Thrown) : Except Halt α := throw (.thrown t)

def orFail {α : Type} (o : Option α) (e : RunError) : Except Halt α :=
  match o with
  | some a => pure a
  | none => fail e

def liftError {α : Type} : Except RunError α → Except Halt α
  | .ok a => pure a
  | .error e => fail e

def target (f : Frame) (x : InstId) : Except Halt ObjRef := do
  match ← f.get x with
  | .null => raise .nullPointer
  | .ref o => pure o
  | v => fail (.notReference v)

def object (h : Heap) (o : ObjRef) : Except Halt Object := orFail (h.get? o) (.noObject o)

def slotOf (p : Program) (obj : Object) (field : FieldId) : Except Halt Nat :=
  match obj.shape with
  | .inst c => orFail (p.fieldIndex? c field) (.noField (p.cls c).name field)
  | .array _ _ => fail .fieldOfArray

/-- The elements that a raw store of the low `8 * size * count` bits of `bits` writes. -/
def rawElements (elem : Ty) (size count : Nat) (bits : Int64) : List Value :=
  (List.range count).map fun k =>
    (Value.long (bits >>> Int64.ofNat (8 * size * k))).narrow elem

def rawStore (f : Frame) (h : Heap) (array : InstId) (offset width : Nat) (value : InstId) :
    Except Halt Effect := do
  let o ← target f array
  let v ← f.get value
  let obj ← object h o
  let elem ← orFail obj.elem? .rawStoreIntoInstance
  let size ← orFail elem.byteSize? .rawStoreIntoReferences
  let (bits, valueSize) ← match v with
    | .int n => pure (n.toInt64, 4)
    | .long n => pure (n, 8)
    | _ => fail .rawStoreOfReference
  if offset % size = 0 ∧ width % size = 0 ∧ width ≤ valueSize then
    let first := offset / size
    let count := width / size
    if obj.fields.size < first + count then raise .indexOutOfBounds
    else pure (.write o first (rawElements elem size count bits))
  else fail (.misalignedRawStore width offset elem)

def copyBound (f : Frame) (x : InstId) : Except Halt Int := do
  let v ← f.get x
  let n ← orFail v.toInt? .nonIntBound
  pure n.toInt

def arrayCopy (f : Frame) (h : Heap) (src srcPos dst dstPos len : InstId) :
    Except Halt Effect := do
  let s ← target f src
  let d ← target f dst
  let srcPos ← copyBound f srcPos
  let dstPos ← copyBound f dstPos
  let len ← copyBound f len
  let source ← object h s
  let dest ← object h d
  if source.elem?.isSome ∧ source.elem? = dest.elem? then
    if srcPos < 0 ∨ dstPos < 0 ∨ len < 0 ∨ source.fields.size < srcPos + len ∨
        dest.fields.size < dstPos + len then raise .indexOutOfBounds
    else
      pure (.write d dstPos.toNat ((source.fields.toList.drop srcPos.toNat).take len.toNat))
  else fail .incompatibleCopy

/-- The effect of every operation but calls. -/
def eval (m : Machine) (f : Frame) (h : Heap) (x : InstId) : Op → Except Halt Effect
  | .param idx => do pure (.value (← orFail m.args[idx]? .paramOutOfRange))
  | .const c => pure (.value c.toValue)
  | .unary op y => do pure (.value (← liftError (op.apply (← f.get y))))
  | .binary op lhs rhs => do
    let a ← f.get lhs
    let b ← f.get rhs
    pure (.value (← liftError (op.apply a b)))
  | .phi _ => fail (.latePhi x)
  | .new cls => pure (.alloc (.inst cls))
  | .newArray elem len => do
    let n ← orFail (← f.get len).toInt? .nonIntLength
    if n.toInt < 0 then raise .negativeArraySize
    else pure (.alloc (.array elem n.toInt.toNat))
  | .loadField obj field => do
    let o ← object h (← target f obj)
    let idx ← slotOf m.program o field
    pure (.value (← orFail o.fields[idx]? .fieldOutOfRange))
  | .storeField obj field value => do
    let o ← target f obj
    let v ← f.get value
    let idx ← slotOf m.program (← object h o) field
    pure (.write o idx [v.narrow (m.program.fieldTy field)])
  | .loadElem array index => do
    let o ← object h (← target f array)
    let n ← orFail (← f.get index).toInt? .nonIntIndex
    if n.toInt < 0 then raise .indexOutOfBounds
    else
      match o.fields[n.toInt.toNat]? with
      | some v => pure (.value v)
      | none => raise .indexOutOfBounds
  | .storeElem array index value => do
    let o ← target f array
    let n ← orFail (← f.get index).toInt? .nonIntIndex
    let obj ← object h o
    let elem ← orFail obj.elem? .elementOfInstance
    let v ← f.get value
    if 0 ≤ n.toInt ∧ n.toInt.toNat < obj.fields.size then
      pure (.write o n.toInt.toNat [v.narrow elem])
    else raise .indexOutOfBounds
  | .arrayLength array => do
    let o ← object h (← target f array)
    if o.elem?.isSome then pure (.value (.int (.ofNat o.fields.size)))
    else fail .lengthOfInstance
  | .rawStore array offset width value => rawStore f h array offset width value
  | .arrayCopy src srcPos dst dstPos len => arrayCopy f h src srcPos dst dstPos len
  | .arrayFill array value => do
    let o ← target f array
    let v ← f.get value
    let obj ← object h o
    let elem ← orFail obj.elem? .fillOfInstance
    pure (.write o 0 (List.replicate obj.fields.size (v.narrow elem)))
  | .loadGlobal global => pure (.value (h.global m.program global))
  | .storeGlobal global value => do
    let v ← f.get value
    pure (.setGlobal global (v.narrow (m.program.globalTy global)))
  | .call _ => pure .none
  | .refEq lhs rhs => do
    let a ← f.get lhs
    let b ← f.get rhs
    pure (.value (.ofBool (a == b)))
  | .loadClass obj => do
    match (← object h (← target f obj)).shape with
    | .inst c => pure (.value (.cls c))
    | .array _ _ => fail .classOfArray
  | .instanceOf obj cls => do
    match ← f.get obj with
    | .ref o =>
      match (← object h o).shape with
      | .inst c => pure (.value (.ofBool (m.program.isSubclass c cls)))
      | .array _ _ => pure (.value (.ofBool false))
    | _ => pure (.value (.ofBool false))
  | .checkCast obj cls => do
    match ← f.get obj with
    | .null => pure (.value .null)
    | .ref o =>
      match (← object h o).shape with
      | .inst c =>
        if m.program.isSubclass c cls then pure (.value (.ref o)) else raise .classCast
      | .array _ _ => raise .classCast
    | v => fail (.notReference v)
  | .monitorEnter obj => do
    let o ← target f obj
    let ob ← object h o
    if ob.isFull then fail (.lockOverflow o) else pure (.setLocks o (ob.locks + 1))
  | .monitorExit obj => do
    let o ← target f obj
    let locks := (← object h o).locks
    if locks = 0 then raise .illegalMonitorState else pure (.setLocks o (locks - 1))
  | .barrier _ | .safepoint _ => pure .none
  | .exception => do
    let t ← orFail f.exception .noException
    pure (.value t.caught)

end Machine

end EscapeAnalysis
