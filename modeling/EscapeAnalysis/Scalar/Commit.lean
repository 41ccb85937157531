import EscapeAnalysis.Ir.Edit
import EscapeAnalysis.Scalar.Plan

/-!
# Carrying out plans

Constants and phis that the plan needs are added first, then the temporaries in order, then the
phis get their inputs, and at last what is replaced gives way to its replacement.
-/

namespace EscapeAnalysis

structure Emission where
  consts : List (Const × InstId) := []
  phis : Array InstId
  temps : Array InstId := #[]

/-- The values of replaced objects at a safepoint, as debug values. -/
abbrev FieldRecord := List (InstId × List DebugValue)

structure Committed where
  body : Body
  records : SideTable .safepoint FieldRecord
  layout : Layout
  dead : List InstId
  monitorsRemoved : Nat

def Committed.eliminated (c : Committed) : List InstId := c.layout.objects.map ScalarObject.inst

def Scalar.const? : Scalar → Option Const
  | const c => some c
  | _ => none

namespace Plan

def canon (plan : Plan) (v : Scalar) : Scalar := v.canon plan.aliases

def phi (plan : Plan) (idx : Nat) : VarPhi := plan.phis.getD idx default

def constants (plan : Plan) : List Const :=
  let inputs := plan.livePhis.flatMap fun idx => (plan.phi idx).inputs.map Prod.snd
  let operands := plan.temps.toList.flatMap fun t => t.op.operands
  ((plan.replace.values ++ operands ++ inputs).filterMap fun v => (plan.canon v).const?).eraseDups

/-- The instruction of a value. Only a temporary may be missing. -/
def inst (plan : Plan) (e : Emission) (v : Scalar) : Except Breach InstId :=
  match plan.canon v with
  | .inst x => .ok x
  | .const c => .ok ((e.consts.lookup c).getD .null)
  | .phi idx => .ok (e.phis.getD idx .null)
  | .temp idx =>
    match e.temps[idx]? with
    | some x => .ok x
    | none => .error (.lateTemporary idx)

def addConsts (plan : Plan) (body : Body) : List (Const × InstId) × Body :=
  plan.constants.foldl (fun (consts, body) c =>
    let (x, body) := body.addConst c
    ((c, x) :: consts, body)) ([], body)

def addPhis (plan : Plan) (body : Body) : Array InstId × Body :=
  plan.livePhis.foldl (fun (phis, body) idx =>
    let phi := plan.phi idx
    let (x, body) := body.addPhi phi.block (plan.layout.varTy phi.var).stack []
    (phis.setIfInBounds idx x, body)) (Array.replicate plan.phis.size .null, body)

def tempOp (plan : Plan) (e : Emission) : TempOp → Except Breach Op
  | .narrow ty v => return .unary (.narrow ty) (← plan.inst e v)
  | .binary op lhs rhs => return .binary op (← plan.inst e lhs) (← plan.inst e rhs)
  | .loadElem array index => return .loadElem (← plan.inst e array) (← plan.inst e index)
  | .storeElem array index value =>
    return .storeElem (← plan.inst e array) (← plan.inst e index) (← plan.inst e value)
  | .barrier store => return .barrier (← plan.inst e (.temp store))

def addTemp (plan : Plan) (e : Emission) (body : Body) (t : Temp) :
    Except Breach (Emission × Body) := do
  let op ← plan.tempOp e t.op
  let (x, body) := body.addInst op t.ty
  match (body.block t.block).insts.idxOf? t.before with
  | none => throw (.notInBlock t.before t.block)
  | some idx => pure ({ e with temps := e.temps.push x }, body.place x t.block idx)

def fillPhis (plan : Plan) (e : Emission) (body : Body) : Except Breach Body :=
  plan.livePhis.foldlM (fun body idx => do
    let inputs ← (plan.phi idx).inputs.mapM fun (b, v) => do pure (b, ← plan.inst e v)
    pure (body.setOp (e.phis.getD idx .null) (.phi inputs))) body

/-- What every replaced instruction gives way to. -/
def substitution (plan : Plan) (e : Emission) : Except Breach (KeyMap .inst InstId) := do
  let pairs ← plan.replace.toList.mapM fun (x, v) => do pure (x, ← plan.inst e v)
  pure (.ofList (pairs.filter fun (x, y) => y ≠ x))

def debugValue (plan : Plan) (e : Emission) (replace : KeyMap .inst InstId) (v : Scalar) :
    Except Breach DebugValue :=
  match plan.canon v with
  | .const c => .ok (.const c)
  | .inst x => .ok (.value (Body.resolve replace x))
  | v => do pure (.value (← plan.inst e v))

def record (plan : Plan) (e : Emission) (replace : KeyMap .inst InstId) (s : Snapshot) :
    Except Breach FieldRecord :=
  s.mapM fun (x, vs) => do pure (x, ← vs.mapM (plan.debugValue e replace))

def commit (plan : Plan) (body : Body) : Except Breach Committed := do
  let (consts, body) := plan.addConsts body
  let (phis, body) := plan.addPhis body
  let (e, body) ← plan.temps.toList.foldlM (fun (e, body) t => plan.addTemp e body t)
    ({ consts, phis }, body)
  let replace ← plan.substitution e
  let records ← plan.snapshots.toList.mapM fun (sp, s) => do
    pure (sp, ← plan.record e replace s)
  let body ← plan.fillPhis e body
  pure
    { body := body.substitute replace, records := .ofList records, layout := plan.layout
      dead := plan.dead, monitorsRemoved := plan.monitorsRemoved }

end Plan

end EscapeAnalysis
