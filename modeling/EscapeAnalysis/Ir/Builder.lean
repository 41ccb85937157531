import EscapeAnalysis.Flow.Prune
import EscapeAnalysis.Program

/-!
# Building bodies

A builder appends instructions to the current block. A debug state captures the locals it is given
and the monitors that are held where it is created.
-/

namespace EscapeAnalysis

structure Builder where
  program : Program
  body : Body
  current : BlockId
  params : List InstId
  /-- The monitors entered and not yet exited, oldest first. -/
  monitors : List InstId := []

namespace Builder

def modifyBody (b : Builder) (g : Body → Body) : Builder := { b with body := g b.body }

def push (b : Builder) (op : Op) (ty : Option Ty) : InstId × Builder :=
  let (x, body) := b.body.addInst op ty
  (x, { b with body := body.pushInst b.current x })

/-- A builder for a method: the entry block reads the parameters. -/
def start (program : Program) (params : List Ty) (ret : Option Ty) : Builder :=
  let (entry, blocks) := SlotTable.empty.insert { name := "entry" }
  let b : Builder :=
    { program, body := { blocks, insts := .empty, states := .empty, entry, params, ret }
      current := entry, params := [] }
  params.zipIdx.foldl (fun b (ty, idx) =>
    let (x, b) := b.push (.param idx) (some ty.stack)
    { b with params := b.params ++ [x] }) b

def createBlock (b : Builder) (name : String) : BlockId × Builder :=
  let (key, blocks) := b.body.blocks.insert { name }
  (key, { b with body := { b.body with blocks } })

def switchTo (b : Builder) (block : BlockId) : Builder := { b with current := block }

def capture (b : Builder) (locals : List InstId) : SafepointId × Builder :=
  let (s, body) := b.body.addState
    { locals := locals.map .value
      monitors := b.monitors.map fun x => { obj := .value x, eliminated := false } }
  (s, { b with body })

def constant (b : Builder) (c : Const) : InstId × Builder := b.push (.const c) (some c.ty)

def unary (b : Builder) (op : UnOp) (x : InstId) : InstId × Builder :=
  b.push (.unary op x) <|
    match op with
    | .neg | .not => b.body.ty? x
    | .narrow ty => some ty.stack

def binary (b : Builder) (op : BinOp) (lhs rhs : InstId) : InstId × Builder :=
  b.push (.binary op lhs rhs) (if op.isCmp then some .int else b.body.ty? lhs)

def phi (b : Builder) (ty : Ty) (inputs : List (BlockId × InstId)) : InstId × Builder :=
  let (x, body) := b.body.addPhi b.current ty inputs
  (x, { b with body })

def addPhiInput (b : Builder) (phi : InstId) (pred : BlockId) (value : InstId) : Builder :=
  match b.body.op? phi with
  | some (.phi inputs) => b.modifyBody (·.setOp phi (.phi (inputs ++ [(pred, value)])))
  | _ => b

def newObject (b : Builder) (cls : ClassId) : InstId × Builder := b.push (.new cls) (some .ref)

def newArray (b : Builder) (elem : Ty) (len : InstId) : InstId × Builder :=
  b.push (.newArray elem len) (some .ref)

/-- Follows the store of a reference with its barrier. -/
def barrierFor (b : Builder) (store value : InstId) : Builder :=
  if b.body.isRef value then (b.push (.barrier store) none).2 else b

def pushStore (b : Builder) (op : Op) (value : InstId) : InstId × Builder :=
  let (store, b) := b.push op none
  (store, b.barrierFor store value)

def loadField (b : Builder) (obj : InstId) (field : FieldId) : InstId × Builder :=
  b.push (.loadField obj field) (some (b.program.fieldTy field).stack)

def storeField (b : Builder) (obj : InstId) (field : FieldId) (value : InstId) :
    InstId × Builder :=
  b.pushStore (.storeField obj field value) value

def loadElem (b : Builder) (array index : InstId) (elem : Ty) : InstId × Builder :=
  b.push (.loadElem array index) (some elem.stack)

def storeElem (b : Builder) (array index value : InstId) : InstId × Builder :=
  b.pushStore (.storeElem array index value) value

def arrayLength (b : Builder) (array : InstId) : InstId × Builder :=
  b.push (.arrayLength array) (some .int)

def rawStore (b : Builder) (array : InstId) (offset width : Nat) (value : InstId) :
    InstId × Builder :=
  b.push (.rawStore array offset width value) none

def arrayCopy (b : Builder) (src srcPos dst dstPos len : InstId) : InstId × Builder :=
  b.push (.arrayCopy src srcPos dst dstPos len) none

def arrayFill (b : Builder) (array value : InstId) : InstId × Builder :=
  b.push (.arrayFill array value) none

def loadGlobal (b : Builder) (global : GlobalId) : InstId × Builder :=
  b.push (.loadGlobal global) (some (b.program.globalTy global).stack)

def storeGlobal (b : Builder) (global : GlobalId) (value : InstId) : InstId × Builder :=
  b.pushStore (.storeGlobal global value) value

def call (b : Builder) (callee : CalleeId) (args locals : List InstId) : InstId × Builder :=
  let (safepoint, b) := b.capture locals
  b.push (.call { callee, args, safepoint }) ((b.program.callee callee).ret.map Ty.stack)

def setTerm (b : Builder) (term : Terminator) : Builder :=
  b.modifyBody (·.setTerm b.current term)

/-- Ends the block with a call whose exceptions go to `unwind`. -/
def invoke (b : Builder) (callee : CalleeId) (args locals : List InstId)
    (normal unwind : BlockId) : InstId × Builder :=
  let (x, b) := b.call callee args locals
  (x, b.setTerm (.invoke x normal unwind))

def refEq (b : Builder) (lhs rhs : InstId) : InstId × Builder :=
  b.push (.refEq lhs rhs) (some .int)

def loadClass (b : Builder) (obj : InstId) : InstId × Builder :=
  b.push (.loadClass obj) (some .cls)

def instanceOf (b : Builder) (obj : InstId) (cls : ClassId) : InstId × Builder :=
  b.push (.instanceOf obj cls) (some .int)

def checkCast (b : Builder) (obj : InstId) (cls : ClassId) : InstId × Builder :=
  b.push (.checkCast obj cls) (some .ref)

def monitorEnter (b : Builder) (obj : InstId) : InstId × Builder :=
  let (x, b) := b.push (.monitorEnter obj) none
  (x, { b with monitors := b.monitors ++ [obj] })

/-- Leaves the monitor of `obj` that was entered last. -/
def monitorExit (b : Builder) (obj : InstId) : InstId × Builder :=
  let b := { b with monitors := (b.monitors.reverse.erase obj).reverse }
  b.push (.monitorExit obj) none

def safepoint (b : Builder) (locals : List InstId) : SafepointId × Builder :=
  let (s, b) := b.capture locals
  (s, (b.push (.safepoint s) none).2)

def exception (b : Builder) : InstId × Builder := b.push .exception (some .ref)

def deopt (b : Builder) (locals : List InstId) : SafepointId × Builder :=
  let (s, b) := b.capture locals
  (s, b.setTerm (.deopt s))

def finish (b : Builder) : Body := b.body.prune

end Builder

end EscapeAnalysis
