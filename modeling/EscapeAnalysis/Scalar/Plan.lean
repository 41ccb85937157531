import EscapeAnalysis.Scalar.Rename

/-!
# Plans

After renaming, a phi all of whose inputs are the same value or the phi itself is just that value.
What remains has to be free of replaced objects.
-/

namespace EscapeAnalysis

structure Plan where
  layout : Layout
  phis : Array VarPhi := #[]
  /-- The values that phis are the same as. -/
  aliases : Array (Option Scalar) := #[]
  /-- The phis that some other value needs. -/
  livePhis : List Nat := []
  temps : Array Temp := #[]
  replace : SideTable .inst Scalar := {}
  dead : List InstId := []
  snapshots : SideTable .safepoint Snapshot := {}
  monitorsRemoved : Nat := 0
deriving Inhabited

def Scalar.alias? (aliases : Array (Option Scalar)) : Scalar → Option Scalar
  | phi idx => aliases.getD idx none
  | _ => none

/-- The value that stands for all it is the same as. -/
def Scalar.canon (aliases : Array (Option Scalar)) (v : Scalar) : Scalar :=
  chainEnd (Scalar.alias? aliases) aliases.size v

namespace VarPhi

/-- The one value that all inputs are, if there is one. Inputs that are the phi itself do not
count. -/
def onlyInput? (aliases : Array (Option Scalar)) (idx : Nat) (phi : VarPhi) : Option Scalar :=
  let inputs := phi.inputs.map fun (_, v) => v.canon aliases
  match (inputs.filter (· ≠ .phi idx)).eraseDups with
  | [v] => some v
  | _ => none

def simplifyRound (phis : Array VarPhi) (aliases : Array (Option Scalar)) :
    Array (Option Scalar) :=
  (List.range phis.size).foldl (fun aliases idx =>
    if (aliases.getD idx none).isSome then aliases
    else aliases.setIfInBounds idx ((phis.getD idx default).onlyInput? aliases idx)) aliases

/-- Repeats until no phi is found to be the same as another value. A round that finds one leaves
fewer for the next, so there are no more rounds than phis. -/
def simplifyRounds (phis : Array VarPhi) : Nat → Array (Option Scalar) → Array (Option Scalar)
  | 0, aliases => aliases
  | n + 1, aliases =>
    let next := simplifyRound phis aliases
    if next = aliases then aliases else simplifyRounds phis n next

def simplify (phis : Array VarPhi) : Array (Option Scalar) :=
  simplifyRounds phis phis.size (Array.replicate phis.size none)

end VarPhi

def Scalar.phi? : Scalar → Option Nat
  | phi idx => some idx
  | _ => none

namespace Planner

def roots (s : Planner) : List Scalar :=
  s.replace.values ++ s.snapshots.values.flatMap (·.flatMap Prod.snd) ++
    s.temps.toList.flatMap fun t => t.op.operands

def livePhis (s : Planner) (aliases : Array (Option Scalar)) : List Nat :=
  let phi? (v : Scalar) : Option Nat := (v.canon aliases).phi?
  let next (idx : Nat) : List Nat :=
    (s.phis.getD idx default).inputs.filterMap fun (_, v) => phi? v
  let start := (s.roots.filterMap phi?).eraseDups
  flood .newestFirst (List.range s.phis.size) next start start

end Planner

namespace PlanContext

variable (c : PlanContext)

/-- The replaced object that a value is. -/
def scalarObject? (s : Planner) (aliases : Array (Option Scalar)) (v : Scalar) :
    Option ScalarObject :=
  match v.canon aliases with
  | .inst x => c.object? s x
  | _ => none

/-- The values that the code still mentions: inputs of phis, operands of temporaries, and all that
an instruction or a terminator reads, be it reachable or not. -/
def mentioned (s : Planner) (live : List Nat) : List Scalar :=
  let ofPhis := live.flatMap fun idx =>
    let phi := s.phis.getD idx default
    if c.layout.varTy phi.var = .ref then phi.inputs.map Prod.snd else []
  let ofTemps := s.temps.toList.flatMap fun t => t.op.operands
  let ofCode := c.body.blocks.values.flatMap fun block =>
    (block.insts.filter (· ∉ s.dead)).flatMap (fun x =>
      ((c.body.op? x).map Op.operands).getD []) ++ block.term.operand?.toList
  ofPhis ++ ofTemps ++ ofCode.map Scalar.inst

/-- The replaced objects that something in the code would still refer to. -/
def leaks (s : Planner) (aliases : Array (Option Scalar)) (live : List Nat) :
    List ScalarObject :=
  (c.mentioned s live).filterMap (c.scalarObject? s aliases)

end PlanContext

inductive Planned where
  | ready (plan : Plan)
  | retry (failures : List (Nat × KeepReason))

def Body.plan (p : Program) (body : Body) (g : Graph) (r : Retention) : Metered Planned := do
  let layout ← Layout.ofRetention p g r
  if layout.objects.isEmpty then pure (.ready { layout })
  else
    let c : PlanContext := { program := p, body, graph := g, layout }
    let s ← c.rename
    let aliases := VarPhi.simplify s.phis
    let live := s.livePhis aliases
    Metered.demand <| ((c.mentioned s live).filterMap fun v => (v.canon aliases).inst?).all
      (c.settles s)
    let s := ((c.leaks s aliases live).map ScalarObject.alloc).foldl (c.fail .unresolved) s
    if s.failures.isEmpty then
      pure (.ready
        { layout, phis := s.phis, aliases, livePhis := live, temps := s.temps
          replace := s.replace, dead := s.dead, snapshots := s.snapshots
          monitorsRemoved := s.monitorsRemoved })
    else pure (.retry s.failures)

end EscapeAnalysis
