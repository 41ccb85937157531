import EscapeAnalysis.Run.Error

/-!
# Arithmetic

Unary and binary operations on values. Both operands of a binary operation have the same width, and
shifts take their amount modulo that width.
-/

namespace EscapeAnalysis

def Value.ofBool (b : Bool) : Value := .int (if b then 1 else 0)

def UnOp.apply (op : UnOp) (v : Value) : Except RunError Value :=
  match op, v with
  | .neg, .int n => pure (.int (-n))
  | .neg, .long n => pure (.long (-n))
  | .not, .int n => pure (.int (~~~n))
  | .not, .long n => pure (.long (~~~n))
  | .narrow ty, .int _ => pure (v.narrow ty)
  | .narrow ty, .long _ => pure (v.narrow ty)
  | _, _ => throw (.badUnary op v)

namespace BinOp

/-- The answer of a comparison, from the order of its operands. -/
def answer (op : BinOp) (lt eq : Bool) : Bool :=
  match op with
  | .eq => eq
  | .ne => !eq
  | .lt => lt
  | .le => lt || eq
  | .gt => !(lt || eq)
  | _ => !lt

def onInts (op : BinOp) (a b : Int32) : Value :=
  match op with
  | .add => .int (a + b)
  | .sub => .int (a - b)
  | .mul => .int (a * b)
  | .and => .int (a &&& b)
  | .or => .int (a ||| b)
  | .xor => .int (a ^^^ b)
  | .shl => .int (a <<< b)
  | .shrS => .int (a >>> b)
  | .shrU => .int (a.toUInt32 >>> b.toUInt32).toInt32
  | op => .ofBool (op.answer (a < b) (a == b))

def onLongs (op : BinOp) (a b : Int64) : Value :=
  match op with
  | .add => .long (a + b)
  | .sub => .long (a - b)
  | .mul => .long (a * b)
  | .and => .long (a &&& b)
  | .or => .long (a ||| b)
  | .xor => .long (a ^^^ b)
  | .shl => .long (a <<< b)
  | .shrS => .long (a >>> b)
  | .shrU => .long (a.toUInt64 >>> b.toUInt64).toInt64
  | op => .ofBool (op.answer (a < b) (a == b))

/-- Classes can be compared for equality only. -/
def apply (op : BinOp) (lhs rhs : Value) : Except RunError Value :=
  match lhs, rhs, op with
  | .int a, .int b, _ => pure (op.onInts a b)
  | .long a, .long b, _ => pure (op.onLongs a b)
  | .cls a, .cls b, .eq => pure (.ofBool (a == b))
  | .cls a, .cls b, .ne => pure (.ofBool (a != b))
  | _, _, _ => throw (.badBinary op lhs rhs)

end BinOp

end EscapeAnalysis
