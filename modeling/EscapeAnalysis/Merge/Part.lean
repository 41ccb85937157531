import EscapeAnalysis.Ir.Edit
import EscapeAnalysis.Merge.Desc
import EscapeAnalysis.Program

/-!
# Parts of merges

What a use wants to know of a merge is a part of it: a field, whether it is null, which leaf it is,
or the leaf itself if that stays a real object. A part of a merge is again a phi in the same block,
whose inputs are the parts of the inputs, so parts of nested merges are made first.
-/

namespace EscapeAnalysis

inductive MergePart where
  | field (f : FieldId)
  | isNull
  /-- Leaves are numbered from `start`. -/
  | selector (start : Nat)
  /-- The leaf if it is kept, and null if it is replaced. -/
  | kept
deriving DecidableEq

namespace MergePart

def start : MergePart → Nat
  | selector k => k
  | _ => 0

/-- The part of a nested merge whose first leaf has number `k`. -/
def numberedFrom (k : Nat) : MergePart → MergePart
  | selector _ => selector k
  | part => part

def ty (p : Program) : MergePart → Ty
  | field f => (p.fieldTy f).stack
  | isNull | selector _ => .int
  | kept => .ref

inductive Source where
  | const (c : Const)
  | inst (x : InstId)
  | load (obj : InstId) (f : FieldId)
deriving DecidableEq

/-- The part of an input that is no merge and whose leaf has number `k`. -/
def source (p : Program) (replaced : Nat → Bool) (k : Nat) (i : MergeInput) : MergePart → Source
  | field f =>
    match i with
    | .alloc _ x => .load x f
    | _ => .const (p.fieldTy f).default
  | isNull =>
    match i with
    | .null _ => .const (.int 1)
    | _ => .const (.int 0)
  | selector _ =>
    match i with
    | .alloc n _ => .const (.int (if replaced n then .ofNat k else -1))
    | _ => .const (.int (-1))
  | kept =>
    match i with
    | .alloc n x => if replaced n then .const .null else .inst x
    | i => .inst i.inst

end MergePart

namespace Merges

def width (m : Merges) : MergeInput → Nat
  | .phi child => (m.desc child).leaves.length
  | _ => 1

def numbered (m : Merges) : List (BlockId × MergeInput) → Nat → List (BlockId × MergeInput × Nat)
  | [], _ => []
  | (b, i) :: rest, k => (b, i, k) :: numbered m rest (k + m.width i)

end Merges

structure Splitter where
  body : Body
  consts : List (Const × InstId) := []
  parts : List ((InstId × MergePart) × InstId) := []

namespace Splitter

def constant (c : Const) : StateM Splitter InstId := fun s =>
  match s.consts.lookup c with
  | some x => (x, s)
  | none =>
    let (x, body) := s.body.addConst c
    (x, { s with body, consts := (c, x) :: s.consts })

/-- The part of an input, at the end of the block it flows in from. -/
def ofSource (p : Program) (b : BlockId) : MergePart.Source → StateM Splitter InstId
  | .const c => constant c
  | .inst x => pure x
  | .load obj f => fun s =>
    let (x, body) := s.body.addInst (.loadField obj f) (some (p.fieldTy f).stack)
    (x, { s with body := body.placeAtEnd b x })

def addPart (p : Program) (phi : InstId) (b : BlockId) (part : MergePart)
    (inputs : List (BlockId × InstId)) : StateM Splitter InstId := fun s =>
  let (x, body) := s.body.addPhi b (part.ty p) inputs
  (x, { s with body, parts := ((phi, part), x) :: s.parts })

/-- The part of a merge. The list holds the merge and, behind it, all merges nested in it. -/
def part (p : Program) (m : Merges) (replaced : Nat → Bool) :
    List InstId → MergePart → InstId → StateM Splitter InstId
  | [], _, phi => pure phi
  | q :: nested, part, phi =>
    if q = phi then do
      match (← get).parts.lookup (phi, part) with
      | some x => pure x
      | none =>
        let d := m.desc phi
        let inputs ← (m.numbered d.inputs part.start).mapM fun (b, i, k) => do
          match i with
          | .phi child => pure (b, ← Splitter.part p m replaced nested (part.numberedFrom k) child)
          | i => pure (b, ← ofSource p b (part.source p replaced k i))
        addPart p phi d.block part inputs
    else Splitter.part p m replaced nested part phi

end Splitter

end EscapeAnalysis
