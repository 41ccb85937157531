import EscapeAnalysis.Flow.Graph
import EscapeAnalysis.Text.Quoted

/-!
# Listings of bodies

A listing shows the reachable blocks in reverse post-order and then the debug states. Instructions
are numbered as they are listed, so a listing does not show their keys.
-/

namespace EscapeAnalysis

abbrev Names := SideTable .inst Nat

namespace Names

/-- Numbers the instructions of the reachable blocks. If one is placed twice, its last place
counts. -/
def ofBody (body : Body) : Names :=
  .ofList (body.flow.order.blocks.flatMap fun b => (body.block b).insts).zipIdx

/-- The listed name of an instruction; one that is not listed shows its key. -/
def of (names : Names) (x : InstId) : String :=
  match names.get? x with
  | some n => s!"%{n}"
  | none => s!"%?{x.text}"

def list (names : Names) (xs : List InstId) : String := ", ".intercalate (xs.map names.of)

end Names

mutual

def DebugValue.listing (names : Names) : DebugValue → String
  | .value x => names.of x
  | .const c => c.text
  | .object idx => s!"obj#{idx}"
  | .merge selector other candidates =>
    "merge(sel " ++ names.of selector ++ ", nsr " ++ names.of other ++ ", [" ++
      ", ".intercalate (DebugValue.listingAll names candidates) ++ "])"

def DebugValue.listingAll (names : Names) : List DebugValue → List String
  | [] => []
  | v :: vs => v.listing names :: DebugValue.listingAll names vs

end

def Op.listing (names : Names) : Op → String
  | .param idx => s!"param {idx}"
  | .const c => s!"const {c.text}"
  | .unary op x => s!"{op.name} {names.of x}"
  | .binary op lhs rhs => s!"{op.name} {names.of lhs}, {names.of rhs}"
  | .phi inputs =>
    "phi " ++ " ".intercalate (inputs.map fun (b, x) => s!"[{b.text}: {names.of x}]")
  | .new cls => s!"new {cls.text}"
  | .newArray elem len => s!"newarray {elem.name}[{names.of len}]"
  | .loadField obj field => s!"load {names.of obj}.{field.text}"
  | .storeField obj field value => s!"store {names.of obj}.{field.text}, {names.of value}"
  | .loadElem array index => s!"aload {names.of array}[{names.of index}]"
  | .storeElem array index value =>
    s!"astore {names.of array}[{names.of index}], {names.of value}"
  | .arrayLength array => s!"arraylength {names.of array}"
  | .rawStore array offset width value =>
    s!"rawstore{width * 8} {names.of array}+{offset}, {names.of value}"
  | .arrayCopy src srcPos dst dstPos len =>
    s!"arraycopy {names.of src}[{names.of srcPos}..] -> {names.of dst}[{names.of dstPos}..]" ++
      s!" x {names.of len}"
  | .arrayFill array value => s!"arrayfill {names.of array}, {names.of value}"
  | .loadGlobal global => s!"getglobal {global.text}"
  | .storeGlobal global value => s!"setglobal {global.text}, {names.of value}"
  | .call c =>
    s!"call {c.callee.text}({names.list c.args}) @{c.safepoint.text}" ++
      if c.argEscape then " argescape" else ""
  | .refEq lhs rhs => s!"refeq {names.of lhs}, {names.of rhs}"
  | .loadClass obj => s!"loadclass {names.of obj}"
  | .instanceOf obj cls => s!"instanceof {names.of obj}, {cls.text}"
  | .checkCast obj cls => s!"checkcast {names.of obj}, {cls.text}"
  | .monitorEnter obj => s!"monitorenter {names.of obj}"
  | .monitorExit obj => s!"monitorexit {names.of obj}"
  | .barrier store => s!"barrier {names.of store}"
  | .safepoint state => s!"safepoint @{state.text}"
  | .exception => "exception"

def Terminator.listing (names : Names) : Terminator → String
  | .unreachable => "unreachable"
  | .jump target => s!"br {target.text}"
  | .branch cond onTrue onFalse => s!"if {names.of cond} {onTrue.text} {onFalse.text}"
  | .ret (some value) => s!"return {names.of value}"
  | .ret none => "return"
  | .throw value => s!"throw {names.of value}"
  | .deopt state => s!"deopt @{state.text}"
  | .invoke call normal unwind =>
    s!"invoke {names.of call} to {normal.text} unwind {unwind.text}"

def Shape.listing : Shape → String
  | .inst cls => cls.text
  | .array elem len => s!"{elem.name}[{len}]"

def MonitorSlot.listing (names : Names) (m : MonitorSlot) : String :=
  " lock(" ++ m.obj.listing names ++ (if m.eliminated then ", eliminated" else "") ++ ")"

def Recipe.listing (names : Names) (r : Recipe) : String :=
  r.shape.listing ++ " \x7b" ++ ", ".intercalate (r.fields.map (·.listing names)) ++ "\x7d"

/-- The lines of a debug state, set off by a blank line. -/
def DebugState.lines (names : Names) (s : SafepointId) (state : DebugState) : List String :=
  let locals := ", ".intercalate (state.locals.map (·.listing names))
  let monitors := String.join (state.monitors.map (·.listing names))
  let recipes := state.recipes.zipIdx.map fun (r, idx) => s!"  obj#{idx} = {r.listing names}"
  ["", s!"@{s.text}: locals [{locals}]{monitors}"] ++ recipes

namespace Body

def instLine (body : Body) (names : Names) (x : InstId) : String :=
  let op := ((body.op? x).map (Op.listing names)).getD "?"
  match body.ty? x with
  | some ty => s!"  {names.of x}: {ty.name} = {op}"
  | none => s!"  {op}"

def blockLines (body : Body) (names : Names) (b : BlockId) : List String :=
  let block := body.block b
  let preds := Key.listText (body.flow.preds b)
  let name := Quoted.quote block.name
  [s!"{b.text}: predecessors {preds}, name Some({name})"] ++
    block.insts.map (body.instLine names) ++ [s!"  {block.term.listing names}"]

/-- The lines of the listing. It ends with an empty line. -/
def lines (body : Body) : List String :=
  let names := Names.ofBody body
  let blocks := body.flow.order.blocks.map (body.blockLines names)
  [""].intercalate blocks ++
    (body.states.toList.flatMap fun (s, state) => state.lines names s) ++ [""]

def text (body : Body) : String := "\n".intercalate body.lines

end Body

end EscapeAnalysis
