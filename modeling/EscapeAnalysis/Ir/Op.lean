import EscapeAnalysis.Value

/-!
# Instructions

An instruction does one operation on the values of other instructions. Its operands are listed in
a fixed order. A write barrier refers to a store without reading it, so the store is no operand.
-/

namespace EscapeAnalysis

inductive UnOp where
  | neg
  | not
  | narrow (ty : Ty)
deriving DecidableEq

def UnOp.name : UnOp → String
  | neg => "neg"
  | not => "not"
  | narrow ty => s!"narrow.{ty.name}"

inductive BinOp where
  | add
  | sub
  | mul
  | and
  | or
  | xor
  | shl
  | shrS
  | shrU
  | eq
  | ne
  | lt
  | le
  | gt
  | ge
deriving DecidableEq

namespace BinOp

def name : BinOp → String
  | add => "add"
  | sub => "sub"
  | mul => "mul"
  | and => "and"
  | or => "or"
  | xor => "xor"
  | shl => "shl"
  | shrS => "shr_s"
  | shrU => "shr_u"
  | eq => "eq"
  | ne => "ne"
  | lt => "lt"
  | le => "le"
  | gt => "gt"
  | ge => "ge"

def all : List BinOp :=
  [add, sub, mul, and, or, xor, shl, shrS, shrU, eq, ne, lt, le, gt, ge]

def ofName? (s : String) : Option BinOp := all.find? (·.name == s)

/-- Comparisons answer with an int, whatever they compare. -/
def isCmp : BinOp → Bool
  | eq | ne | lt | le | gt | ge => true
  | _ => false

end BinOp

structure Call where
  callee : CalleeId
  args : List InstId
  safepoint : SafepointId
  /-- Some argument is an object of this method that the callee only borrows. -/
  argEscape : Bool := false
deriving DecidableEq

inductive Op where
  | param (idx : Nat)
  | const (value : Const)
  | unary (op : UnOp) (x : InstId)
  | binary (op : BinOp) (lhs rhs : InstId)
  | phi (inputs : List (BlockId × InstId))
  | new (cls : ClassId)
  | newArray (elem : Ty) (len : InstId)
  | loadField (obj : InstId) (field : FieldId)
  | storeField (obj : InstId) (field : FieldId) (value : InstId)
  | loadElem (array index : InstId)
  | storeElem (array index value : InstId)
  | arrayLength (array : InstId)
  /-- Writes the low `width` bytes of `value`, lowest first, from byte `offset` of the array. -/
  | rawStore (array : InstId) (offset width : Nat) (value : InstId)
  | arrayCopy (src srcPos dst dstPos len : InstId)
  | arrayFill (array value : InstId)
  | loadGlobal (global : GlobalId)
  | storeGlobal (global : GlobalId) (value : InstId)
  | call (call : Call)
  | refEq (lhs rhs : InstId)
  | loadClass (obj : InstId)
  | instanceOf (obj : InstId) (cls : ClassId)
  | checkCast (obj : InstId) (cls : ClassId)
  | monitorEnter (obj : InstId)
  | monitorExit (obj : InstId)
  /-- Follows the store of a reference. -/
  | barrier (store : InstId)
  | safepoint (state : SafepointId)
  | exception
deriving DecidableEq

namespace Op

def operands : Op → List InstId
  | param _ | const _ | new _ | loadGlobal _ | barrier _ | safepoint _ | exception => []
  | unary _ x | arrayLength x | storeGlobal _ x | loadClass x | monitorEnter x | monitorExit x
  | instanceOf x _ | checkCast x _ | newArray _ x | loadField x _ => [x]
  | binary _ lhs rhs | refEq lhs rhs => [lhs, rhs]
  | phi inputs => inputs.map Prod.snd
  | storeField obj _ value => [obj, value]
  | loadElem array index => [array, index]
  | storeElem array index value => [array, index, value]
  | rawStore array _ _ value => [array, value]
  | arrayCopy src srcPos dst dstPos len => [src, srcPos, dst, dstPos, len]
  | arrayFill array value => [array, value]
  | call c => c.args

def mapOperands (r : InstId → InstId) : Op → Op
  | unary op x => unary op (r x)
  | binary op lhs rhs => binary op (r lhs) (r rhs)
  | phi inputs => phi (inputs.map fun (b, x) => (b, r x))
  | newArray elem len => newArray elem (r len)
  | loadField obj field => loadField (r obj) field
  | storeField obj field value => storeField (r obj) field (r value)
  | loadElem array index => loadElem (r array) (r index)
  | storeElem array index value => storeElem (r array) (r index) (r value)
  | arrayLength array => arrayLength (r array)
  | rawStore array offset width value => rawStore (r array) offset width (r value)
  | arrayCopy src srcPos dst dstPos len =>
    arrayCopy (r src) (r srcPos) (r dst) (r dstPos) (r len)
  | arrayFill array value => arrayFill (r array) (r value)
  | storeGlobal global value => storeGlobal global (r value)
  | call c => call { c with args := c.args.map r }
  | refEq lhs rhs => refEq (r lhs) (r rhs)
  | loadClass obj => loadClass (r obj)
  | instanceOf obj cls => instanceOf (r obj) cls
  | checkCast obj cls => checkCast (r obj) cls
  | monitorEnter obj => monitorEnter (r obj)
  | monitorExit obj => monitorExit (r obj)
  | op@(param _) | op@(const _) | op@(new _) | op@(loadGlobal _) | op@(barrier _)
  | op@(safepoint _) | op@exception => op

/-- Renames the operands and the store of a barrier. -/
def mapRefs (r : InstId → InstId) : Op → Op
  | barrier store => barrier (r store)
  | op => op.mapOperands r

def isPhi : Op → Bool
  | phi _ => true
  | _ => false

def isCall : Op → Bool
  | call _ => true
  | _ => false

def isAlloc : Op → Bool
  | new _ | newArray _ _ => true
  | _ => false

/-- The operations a write barrier can belong to. -/
def isRefStore : Op → Bool
  | storeField _ _ _ | storeElem _ _ _ | storeGlobal _ _ => true
  | _ => false

def toConst? : Op → Option Const
  | const value => some value
  | _ => none

def safepoint? : Op → Option SafepointId
  | call c => some c.safepoint
  | safepoint s => some s
  | _ => none

/-- Renaming acts on the operand list pointwise. -/
theorem operands_mapOperands (r : InstId → InstId) (op : Op) :
    (op.mapOperands r).operands = op.operands.map r := by
  cases op <;> simp [mapOperands, operands]

end Op

structure Inst where
  op : Op
  ty : Option Ty
deriving DecidableEq

end EscapeAnalysis
