import EscapeAnalysis.Locking.Balance
import EscapeAnalysis.Merge.Analysis

/-!
# Retention

Which allocations have to stay, and why. All others can be replaced by their contents. The first
reason found for an allocation is the one that counts.
-/

namespace EscapeAnalysis

inductive KeepReason where
  | argEscape
  | globalEscape
  | disabled
  | arrayLength
  | tooManyFields
  | unknownIndex
  | locked
  /-- It is stored in an object that stays. -/
  | nestedInRetained
  | storedThroughAmbiguous
  | merged
  | irreducibleMerge
  | identity
  | failingCast
  | rawStore
  | arrayCopy
  | unresolved
  | unsupportedUse
deriving DecidableEq

def KeepReason.name : KeepReason → String
  | argEscape => "arg-escape"
  | globalEscape => "global-escape"
  | disabled => "disabled"
  | arrayLength => "array-length"
  | tooManyFields => "too-many-fields"
  | unknownIndex => "unknown-index"
  | locked => "locked"
  | nestedInRetained => "nested-in-retained"
  | storedThroughAmbiguous => "stored-through-ambiguous"
  | merged => "merged"
  | irreducibleMerge => "irreducible-merge"
  | identity => "identity"
  | failingCast => "failing-cast"
  | rawStore => "raw-store"
  | arrayCopy => "array-copy"
  | unresolved => "unresolved"
  | unsupportedUse => "unsupported-use"

structure Retention where
  reasons : Array (Option KeepReason)
deriving Inhabited

namespace Retention

def none (size : Nat) : Retention := ⟨Array.replicate size Option.none⟩

def reason? (r : Retention) (n : Nat) : Option KeepReason := r.reasons.getD n Option.none

def isReplaced (r : Retention) (n : Nat) : Bool := r.reasons[n]? == some Option.none

def replaced (r : Retention) : List Nat := (List.range r.reasons.size).filter r.isReplaced

def kept (r : Retention) : List (Nat × KeepReason) :=
  (List.range r.reasons.size).filterMap fun n => (r.reason? n).map fun why => (n, why)

/-- Keeps an allocation, unless there was a reason to before. -/
def keep (why : KeepReason) (r : Retention) (n : Nat) : Retention :=
  ⟨r.reasons.modify n fun old => old.or (some why)⟩

def keepAll (why : KeepReason) (ns : List Nat) (r : Retention) : Retention :=
  ns.foldl (keep why) r

/-- Keeps those of some allocations that fail a test. -/
def keepUnless (why : KeepReason) (test : Nat → Bool) (ns : List Nat) (r : Retention) : Retention :=
  r.keepAll why (ns.filter fun n => !test n)

end Retention

structure RetentionContext where
  program : Program
  body : Body
  graph : Graph
  merges : MergeAnalysis
  settings : Settings

namespace RetentionContext

/-- A reason that lies in the allocation itself. Reasons forced from outside come after those of
escape and settings. -/
def allocReason? (c : RetentionContext) (forced : List (Nat × KeepReason)) (n : Nat) :
    Option KeepReason :=
  let escape : Option KeepReason := match c.graph.escapeOf n with
    | .arg => some .argEscape
    | .global => some .globalEscape
    | .none => none
  let shape : Option KeepReason := match c.graph.shapeOf n with
    | .array _ _ => if (c.graph.trackedLen? n).isNone then some .arrayLength else none
    | .inst cls =>
      if c.settings.fieldsLimit < (c.program.layout cls).length then some .tooManyFields else none
  let off (b : Bool) (why : KeepReason) : Option KeepReason := if b then some why else none
  escape.or <| (off (!c.settings.eliminateAllocations) .disabled).or <|
    (forced.lookup n).or <| shape.or <|
    (off (.alloc n ∈ c.graph.locked && !c.settings.eliminateLocks) .locked).or <|
    off (c.graph.hasSummary n) .unknownIndex

def checkAllocs (c : RetentionContext) (forced : List (Nat × KeepReason)) (r : Retention) :
    Retention :=
  c.graph.allocNumbers.foldl (fun r n =>
    match c.allocReason? forced n with
    | some why => r.keep why n
    | none => r) r

def checkMerges (c : RetentionContext) (r : Retention) : Retention :=
  c.merges.irreducible.foldl
    (fun r (phi, _) => r.keepAll .irreducibleMerge (c.graph.allocsOf phi)) r

/-- An operand that may be one of several objects keeps them all, unless it is a merge that can be
taken apart. -/
def checkOperand (c : RetentionContext) (r : Retention) (x : InstId) : Retention :=
  if c.graph.isAmbiguous x && !c.merges.isReducible x then
    r.keepAll .merged (c.graph.allocsOf x)
  else r

/-- An element is known if its index is a constant within the array. -/
def indexKnown (c : RetentionContext) (index : InstId) (n : Nat) : Bool :=
  match c.body.constNat? index, c.graph.trackedLen? n with
  | some idx, some len => idx < len
  | _, _ => false

/-- A reference stored through something that may be null or one of several objects is kept. -/
def checkStore (c : RetentionContext) (base value : InstId) (r : Retention) : Retention :=
  if c.body.isRef value && (c.graph.isAmbiguous base || c.graph.mayBeNull base) then
    r.keepAll .storedThroughAmbiguous (c.graph.allocsOf value)
  else r

def comparisonKnown (c : RetentionContext) (lhs rhs : InstId) : Bool :=
  let s := c.graph.ptsOf lhs
  let t := c.graph.ptsOf rhs
  if c.graph.isNull lhs || c.graph.isNull rhs then s.disjoint t
  else c.settings.optimizePtrCompare && ((s.size = 1 && s == t) || s.disjoint t)

def castPasses (c : RetentionContext) (cls : ClassId) (n : Nat) : Bool :=
  match c.graph.classOf? n with
  | some sub => c.program.isSubclass sub cls
  | none => false

/-- Whether a raw store covers whole elements of the array with bytes that the value has. -/
def rawStoreFits (c : RetentionContext) (offset width : Nat) (value : InstId) (n : Nat) : Bool :=
  match c.graph.shapeOf n, c.graph.trackedLen? n, (c.body.ty? value).bind Ty.byteSize? with
  | .array elem _, some len, some valueSize =>
    match elem.byteSize? with
    | some size =>
      offset % size = 0 && width % size = 0 && 0 < width && width ≤ valueSize &&
        offset / size + width / size ≤ len
    | none => false
  | _, _, _ => false

/-- Whether a copy stays within an array from a constant position on. -/
def copyFits (c : RetentionContext) (allConst : Bool) (pos len : InstId) (n : Nat) : Bool :=
  match c.body.constNat? pos, c.body.constNat? len, c.graph.trackedLen? n with
  | some pos, some len, some size => allConst && pos + len ≤ size
  | _, _, _ => false

/-- What one operation keeps, apart from operands that are one of several objects. -/
def checkOp (c : RetentionContext) (x : InstId) (op : Op) (r : Retention) : Retention :=
  let allocsOf := c.graph.allocsOf
  match op with
  | .phi _ => r.keepAll .merged (allocsOf x)
  | .loadElem array index => r.keepUnless .unknownIndex (c.indexKnown index) (allocsOf array)
  | .storeElem array index value =>
    c.checkStore array value (r.keepUnless .unknownIndex (c.indexKnown index) (allocsOf array))
  | .storeField obj _ value => c.checkStore obj value r
  | .arrayFill array value => c.checkStore array value r
  | .refEq lhs rhs =>
    if c.merges.isReducible lhs || c.merges.isReducible rhs || c.comparisonKnown lhs rhs then r
    else r.keepAll .identity (allocsOf lhs ++ allocsOf rhs)
  | .checkCast obj cls => r.keepUnless .failingCast (c.castPasses cls) (allocsOf obj)
  | .loadClass obj =>
    r.keepUnless .unsupportedUse (fun n => (c.graph.classOf? n).isSome) (allocsOf obj)
  | .rawStore array offset width value =>
    r.keepUnless .rawStore (c.rawStoreFits offset width value) (allocsOf array)
  | .arrayCopy src srcPos dst dstPos len =>
    let allConst := [srcPos, dstPos, len].all fun y => (c.body.constNat? y).isSome
    (r.keepUnless .arrayCopy (c.copyFits allConst srcPos len) (allocsOf src)).keepUnless .arrayCopy
      (c.copyFits allConst dstPos len) (allocsOf dst)
  | .monitorEnter obj | .monitorExit obj =>
    if c.settings.eliminateLocks then r else r.keepAll .locked (allocsOf obj)
  | _ => r

def checkInst (c : RetentionContext) (r : Retention) (x : InstId) : Retention :=
  match c.body.op? x with
  | none => r
  | some op =>
    if op.isPhi && c.merges.merges.contains x then r
    else c.checkOp x op (op.operands.foldl c.checkOperand r)

/-- Looks at the reachable code and at all debug states. -/
def checkInsts (c : RetentionContext) (r : Retention) : Retention :=
  let r := c.body.flow.order.blocks.foldl
    (fun r b => (c.body.block b).insts.foldl c.checkInst r) r
  c.body.states.values.foldl (fun r s => s.insts.foldl c.checkOperand r) r

def checkLocks (c : RetentionContext) (r : Retention) : Retention :=
  r.keepAll .locked (c.graph.unbalanced c.body).allocs

def stored (c : RetentionContext) (n : Nat) : List Nat :=
  (c.graph.cellsOf n).flatMap fun (_, s) => s.allocs

def closeNested (c : RetentionContext) (r : Retention) : Retention :=
  let start := r.kept.map Prod.fst
  r.keepAll .nestedInRetained (flood .newestFirst c.graph.allocNumbers c.stored start start)

end RetentionContext

def Retention.compute (p : Program) (body : Body) (g : Graph) (merges : MergeAnalysis)
    (settings : Settings) (forced : List (Nat × KeepReason)) : Retention :=
  let c : RetentionContext := { program := p, body, graph := g, merges, settings }
  c.closeNested <| c.checkLocks <| c.checkInsts <| c.checkMerges <|
    c.checkAllocs forced (.none g.allocCount)

end EscapeAnalysis
