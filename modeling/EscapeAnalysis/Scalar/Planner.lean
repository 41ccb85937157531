import EscapeAnalysis.Scalar.Layout

/-!
# Planning

A plan says how to do without some allocations, before anything is changed. Planning goes through
the code with the current values of all variables and notes what each instruction turns into. An
allocation some use of which cannot be followed fails, with a reason to keep it.
-/

namespace EscapeAnalysis

inductive Scalar where
  | inst (x : InstId)
  | phi (idx : Nat)
  | const (c : Const)
  | temp (idx : Nat)
deriving DecidableEq

instance : Inhabited Scalar := ⟨.const .null⟩

def Scalar.inst? : Scalar → Option InstId
  | inst x => some x
  | _ => none

/-- The operands that may be a replaced object as far as planning is concerned. -/
def Op.planTargets : Op → List InstId
  | .loadField obj _ | .storeField obj _ _ | .loadElem obj _ | .storeElem obj _ _
  | .arrayLength obj | .arrayFill obj _ | .rawStore obj _ _ _ | .loadClass obj
  | .instanceOf obj _ | .checkCast obj _ | .monitorEnter obj | .monitorExit obj => [obj]
  | .arrayCopy src _ dst _ _ => [src, dst]
  | .refEq lhs rhs => [lhs, rhs]
  | _ => []

inductive TempOp where
  | narrow (ty : Ty) (v : Scalar)
  | binary (op : BinOp) (lhs rhs : Scalar)
  | loadElem (array index : Scalar)
  | storeElem (array index value : Scalar)
  | barrier (store : Nat)
deriving DecidableEq

def TempOp.operands : TempOp → List Scalar
  | narrow _ v => [v]
  | binary _ lhs rhs => [lhs, rhs]
  | loadElem array index => [array, index]
  | storeElem array index value => [array, index, value]
  | barrier _ => []

structure Temp where
  block : BlockId
  before : InstId
  op : TempOp
  ty : Option Ty
deriving DecidableEq

structure VarPhi where
  block : BlockId
  var : Nat
  inputs : List (BlockId × Scalar) := []
deriving Inhabited

/-- The values of replaced objects at a safepoint, by their allocations. -/
abbrev Snapshot := List (InstId × List Scalar)

structure Planner where
  env : Array Scalar
  phis : Array VarPhi
  temps : Array Temp := #[]
  replace : SideTable .inst Scalar := {}
  dead : List InstId := []
  snapshots : SideTable .safepoint Snapshot := {}
  monitorsRemoved : Nat := 0
  failures : List (Nat × KeepReason) := []

structure PlanContext where
  program : Program
  body : Body
  graph : Graph
  layout : Layout

namespace Planner

def get (s : Planner) (var : Nat) : Scalar := s.env.getD var default

def set (s : Planner) (var : Nat) (v : Scalar) : Planner :=
  { s with env := s.env.setIfInBounds var v }

def setFrom (s : Planner) (base : Nat) (vs : List Scalar) : Planner :=
  vs.zipIdx.foldl (fun s (v, k) => s.set (base + k) v) s

def getFrom (s : Planner) (base len : Nat) : List Scalar :=
  (List.range len).map fun k => s.get (base + k)

def kill (s : Planner) (x : InstId) : Planner := { s with dead := x :: s.dead }

def replaceBy (s : Planner) (x : InstId) (v : Scalar) : Planner :=
  { s.kill x with replace := s.replace.insert x v }

def addTemp (s : Planner) (b : BlockId) (before : InstId) (op : TempOp) (ty : Option Ty) :
    Scalar × Planner :=
  (.temp s.temps.size, { s with temps := s.temps.push { block := b, before, op, ty } })

end Planner

namespace PlanContext

variable (c : PlanContext)

/-- Notes that a replaced allocation cannot be replaced. The first reason counts. -/
def fail (why : KeepReason) (s : Planner) (n : Nat) : Planner :=
  if c.layout.contains n && (s.failures.lookup n).isNone then
    { s with failures := (n, why) :: s.failures }
  else s

/-- What a value is the same as: casts forward their operands, and replaced instructions are what
replaces them. -/
def forward? (s : Planner) (x : InstId) : Option InstId :=
  match c.body.castSource? x with
  | some y => some y
  | none =>
    match s.replace.get? x with
    | some (.inst y) => if y = x then none else some y
    | _ => none

/-- What `x` is the same as. It is the end of the chain only if there is one (`settles`), which is
asked for before anything is planned that depends on it. -/
def resolve (s : Planner) (x : InstId) : InstId :=
  chainEnd (c.forward? s) c.body.insts.slots.size x

/-- Whether following `x` comes to an end. -/
def settles (s : Planner) (x : InstId) : Bool := (c.forward? s (c.resolve s x)).isNone

def object? (s : Planner) (x : InstId) : Option ScalarObject := c.layout.ofInst? (c.resolve s x)

/-- The replaced object that `x` is. If there is none, all that `x` may be fail. -/
def target (x : InstId) (s : Planner) : Option ScalarObject × Planner :=
  match c.object? s x with
  | some o => (some o, s)
  | none => (none, (c.graph.allocsOf x).foldl (c.fail .unresolved) s)

def fieldVar? (o : ScalarObject) (f : FieldId) : Option Nat :=
  match o.shape with
  | .inst cls => (c.program.fieldIndex? cls f).map (o.base + ·)
  | .array _ _ => none

def elemVar? (o : ScalarObject) (index : InstId) : Option Nat :=
  (c.body.constNat? index).bind fun idx => if idx < o.slots then some (o.base + idx) else none

def tyOf (s : Planner) : Scalar → Option Ty
  | .inst x => c.body.ty? x
  | .const k => some k.ty
  | .phi idx => some (c.layout.varTy (s.phis.getD idx default).var).stack
  | .temp idx => (s.temps[idx]?).bind Temp.ty

/-- Whether storing a value into a slot may change it. -/
def needsNarrow (valueTy : Option Ty) (slot : Ty) : Bool :=
  let wide (t : Option Ty) : Bool := t == some .int || t == some .long
  slot == .byte || slot == .short ||
    (wide (some slot) && wide valueTy && valueTy != some slot)

/-- Converts a value the way storing it into a slot does. -/
def narrow (b : BlockId) (before : InstId) (v : Scalar) (slot : Ty) (s : Planner) :
    Scalar × Planner :=
  if needsNarrow (c.tyOf s v) slot then
    match v with
    | .const k => (.const ((k.narrow? slot).getD k), s)
    | v => s.addTemp b before (.narrow slot v) (some slot.stack)
  else (v, s)

def planLoad (x : InstId) (why : KeepReason) (o : ScalarObject) (var : Option Nat) (s : Planner) :
    Planner :=
  match var with
  | some var => s.replaceBy x (s.get var)
  | none => c.fail why s o.alloc

def planStore (b : BlockId) (x : InstId) (why : KeepReason) (o : ScalarObject) (var : Option Nat)
    (value : InstId) (s : Planner) : Planner :=
  match var with
  | some var =>
    let (v, s) := c.narrow b x (.inst value) (c.layout.varTy var) s
    (s.set var v).kill x
  | none => c.fail why s o.alloc

/-- The elements a raw store covers: their size, the first of them and their number. -/
def rawRange? (o : ScalarObject) (offset width : Nat) (valueTy : Option Ty) :
    Option (Ty × Nat × Nat × Nat) := do
  let elem ← o.shape.elem?
  let size ← elem.byteSize?
  let valueSize ← valueTy.bind Ty.byteSize?
  let first := offset / size
  let count := width / size
  if offset % size = 0 ∧ width % size = 0 ∧ width ≤ valueSize ∧ first + count ≤ o.slots then
    some (elem, size, first, count)
  else none

/-- By how much the value of a raw store is shifted for an element. -/
def shiftAmount (valueTy : Option Ty) (bits : Nat) : Const :=
  if valueTy = some .long then .long (.ofNat bits) else .int (.ofNat bits)

/-- The value that element number `k` of a raw store receives: the lowest bytes go first. -/
def rawElem (b : BlockId) (x value : InstId) (elem : Ty) (size k : Nat) (s : Planner) :
    Scalar × Planner :=
  let valueTy := c.body.ty? value
  let bits := 8 * size * k
  let (part, s) :=
    if bits = 0 then (.inst value, s)
    else
      s.addTemp b x (.binary .shrS (.inst value) (.const (shiftAmount valueTy bits))) valueTy
  c.narrow b x part elem s

def planRawStore (b : BlockId) (x : InstId) (o : ScalarObject) (offset width : Nat)
    (value : InstId) (s : Planner) : Planner :=
  match rawRange? o offset width (c.body.ty? value) with
  | none => c.fail .rawStore s o.alloc
  | some (elem, size, first, count) =>
    let s := (List.range count).foldl (fun s k =>
      let (v, s) := c.rawElem b x value elem size k s
      s.set (o.base + first + k) v) s
    s.kill x

/-- Stores values into a real array from position `pos` on. The highest index goes first, so that a
copy out of bounds fails before it writes. -/
def storeElems (b : BlockId) (x array : InstId) (isRef : Bool) (pos : Nat) (vs : List Scalar)
    (s : Planner) : Planner :=
  vs.zipIdx.reverse.foldl (fun s (v, k) =>
    let store := s.temps.size
    let (_, s) := s.addTemp b x
      (.storeElem (.inst array) (.const (.int (.ofNat (pos + k)))) v) none
    if isRef then (s.addTemp b x (.barrier store) none).2 else s) s

def loadElems (b : BlockId) (x array : InstId) (ty : Option Ty) (pos len : Nat) (s : Planner) :
    List Scalar × Planner :=
  (List.range len).foldl (fun (vs, s) k =>
    let (v, s) := s.addTemp b x
      (.loadElem (.inst array) (.const (.int (.ofNat (pos + k))))) ty
    (vs ++ [v], s)) ([], s)

/-- A copy with constant range between two arrays of which at least one is replaced. A copy of
nothing to or from a real array would lose the checks of the real one. -/
def planCopy (b : BlockId) (x : InstId) (src dst : InstId) (srcObj dstObj : Option ScalarObject)
    (srcPos dstPos len : Nat) (s : Planner) : Planner :=
  let outside (o : Option ScalarObject) (pos : Nat) : Option ScalarObject :=
    o.filter fun o => o.slots < pos + len
  match (outside srcObj srcPos).or (outside dstObj dstPos) with
  | some o => c.fail .arrayCopy s o.alloc
  | none =>
    match srcObj, dstObj with
    | some so, some d =>
      (s.setFrom (d.base + dstPos) (s.getFrom (so.base + srcPos) len)).kill x
    | some so, none =>
      if len = 0 then c.fail .arrayCopy s so.alloc
      else
        (storeElems b x dst (so.shape.elem? == some .ref) dstPos
          (s.getFrom (so.base + srcPos) len) s).kill x
    | none, some d =>
      if len = 0 then c.fail .arrayCopy s d.alloc
      else
        let (vs, s) := loadElems b x src (d.shape.elem?.map Ty.stack) srcPos len s
        (s.setFrom (d.base + dstPos) vs).kill x
    | none, none => s

def planArrayCopy (b : BlockId) (x src srcPos dst dstPos len : InstId) (s : Planner) : Planner :=
  let (srcObj, s) := c.target src s
  let (dstObj, s) := c.target dst s
  if srcObj.isNone && dstObj.isNone then s
  else
    match c.body.constNat? srcPos, c.body.constNat? dstPos, c.body.constNat? len with
    | some i, some j, some n => c.planCopy b x src dst srcObj dstObj i j n s
    | _, _, _ =>
      ((srcObj.toList ++ dstObj.toList).map ScalarObject.alloc).foldl (c.fail .arrayCopy) s

/-- A comparison of a replaced object with a value that is not known to be one. -/
def planDistinct (x : InstId) (o : ScalarObject) (other : InstId) (s : Planner) : Planner :=
  if .alloc o.alloc ∈ c.graph.ptsOf other then c.fail .identity s o.alloc
  else s.replaceBy x (.const (.int 0))

def planRefEq (x lhs rhs : InstId) (s : Planner) : Planner :=
  let (lhsObj, s) := c.target lhs s
  let (rhsObj, s) := c.target rhs s
  match lhsObj, rhsObj with
  | some o, some q => s.replaceBy x (.const (.int (if o.alloc = q.alloc then 1 else 0)))
  | some o, none => c.planDistinct x o rhs s
  | none, some o => c.planDistinct x o lhs s
  | none, none => s

/-- Records the values of every replaced object that a debug state can reach. -/
def snapshot (s : Planner) (sp : SafepointId) : Planner :=
  let (roots, s) := (c.body.state sp).insts.foldl (fun (roots, s) x =>
    let (o, s) := c.target x s
    (roots ++ o.toList, s)) ([], s)
  let fields (o : ScalarObject) : List Scalar := s.getFrom o.base o.slots
  let inside (o : ScalarObject) : List ScalarObject := (fields o).filterMap fun
    | .inst x => c.object? s x
    | _ => none
  let reached := flood .newestFirst c.layout.objects inside roots.eraseDups roots
  let objects := c.layout.objects.filter (· ∈ reached)
  { s with snapshots := s.snapshots.insert sp (objects.map fun o => (o.inst, fields o)) }

/-- Continues with the replaced object that `x` is, if it is one. -/
def onTarget (x : InstId) (k : ScalarObject → Planner → Planner) (s : Planner) : Planner :=
  match c.target x s with
  | (some o, s) => k o s
  | (none, s) => s

def planOp (b : BlockId) (x : InstId) (s : Planner) : Op → Planner
  | .new _ | .newArray _ _ =>
    match c.layout.ofInst? x with
    | some o => (s.setFrom o.base (o.vars.map fun v => .const (c.layout.varTy v).default)).kill x
    | none => s
  | .loadField obj f =>
    c.onTarget obj (fun o => c.planLoad x .unsupportedUse o (c.fieldVar? o f)) s
  | .storeField obj f value =>
    c.onTarget obj (fun o => c.planStore b x .unsupportedUse o (c.fieldVar? o f) value) s
  | .loadElem array index =>
    c.onTarget array (fun o => c.planLoad x .unknownIndex o (c.elemVar? o index)) s
  | .storeElem array index value =>
    c.onTarget array (fun o => c.planStore b x .unknownIndex o (c.elemVar? o index) value) s
  | .arrayLength array =>
    c.onTarget array (fun o s => s.replaceBy x (.const (.int (.ofNat o.slots)))) s
  | .arrayFill array value =>
    c.onTarget array (fun o s =>
      match o.shape.elem? with
      | some elem =>
        let (v, s) := c.narrow b x (.inst value) elem s
        (s.setFrom o.base (List.replicate o.slots v)).kill x
      | none => s) s
  | .rawStore array offset width value =>
    c.onTarget array (fun o => c.planRawStore b x o offset width value) s
  | .arrayCopy src srcPos dst dstPos len => c.planArrayCopy b x src srcPos dst dstPos len s
  | .refEq lhs rhs => c.planRefEq x lhs rhs s
  | .loadClass obj =>
    c.onTarget obj (fun o s =>
      match o.shape with
      | .inst cls => s.replaceBy x (.const (.cls cls))
      | .array _ _ => c.fail .unsupportedUse s o.alloc) s
  | .instanceOf obj cls =>
    c.onTarget obj (fun o s =>
      let passes := match o.shape with
        | .inst sub => c.program.isSubclass sub cls
        | .array _ _ => false
      s.replaceBy x (.const (.int (if passes then 1 else 0)))) s
  | .checkCast obj _ => c.onTarget obj (fun _ s => s.replaceBy x (.inst obj)) s
  | .monitorEnter obj | .monitorExit obj =>
    c.onTarget obj (fun _ s => { s.kill x with monitorsRemoved := s.monitorsRemoved + 1 }) s
  | _ => s

def planInst (b : BlockId) (s : Planner) (x : InstId) : Planner :=
  match c.body.op? x with
  | none => s
  | some op =>
    let s := match op.safepoint? with
      | some sp => c.snapshot s sp
      | none => s
    c.planOp b x s op

/-- The instructions that a snapshot follows: those of the debug state, and those in the fields of
the objects that it records. -/
def snapshotFollows (s : Planner) (sp : SafepointId) : List InstId :=
  let record := ((c.snapshot s sp).snapshots.get? sp).getD []
  (c.body.state sp).insts ++ (record.flatMap Prod.snd).filterMap Scalar.inst?

/-- The instructions that planning an instruction follows. -/
def follows (s : Planner) (x : InstId) : List InstId :=
  ((c.body.op? x).map fun op =>
    (op.safepoint?.map (c.snapshotFollows s)).getD [] ++ op.planTargets).getD []

end PlanContext

end EscapeAnalysis
