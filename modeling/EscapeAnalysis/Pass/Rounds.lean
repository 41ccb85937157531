import EscapeAnalysis.Merge.Reduce
import EscapeAnalysis.PointsTo.Propagate
import EscapeAnalysis.Retention

/-!
# Rounds

Taking webs of merges apart may make more allocations replaceable, and new merges visible, so the
method is analyzed anew after each round. A round that makes an allocation stay which an earlier
round relies on is undone, and its webs are left alone from then on.
-/

namespace EscapeAnalysis

structure Abort where
  rounds : Nat
  fault : Fault
deriving DecidableEq

abbrev Attempt := ExceptT Abort (StateM Budget)

def Metered.during {α : Type} (rounds : Nat) (m : Metered α) : Attempt α :=
  ExceptT.adapt (Abort.mk rounds) m

structure Analysis where
  graph : Graph
  merges : MergeAnalysis
  retention : Retention
deriving Inhabited

def Analysis.replaces (a : Analysis) (x : InstId) : Bool :=
  match a.graph.allocOf.get? x with
  | some n => a.retention.isReplaced n
  | none => false

def Analysis.compute (p : Program) (settings : Settings) (registry : Registry)
    (blacklist : List InstId) (body : Body) : Metered Analysis := do
  if settings.nodeBudget < body.insts.size then
    throw (.nodeBudget body.insts.size settings.nodeBudget)
  let (graph, _) ← (Graph.ofBody p body settings).propagate settings
  let merges ← MergeAnalysis.compute p body graph registry.isCarrier blacklist
    (settings.reduceMerges && settings.eliminateAllocations)
  pure { graph, merges, retention := .compute p body graph merges settings [] }

structure Rounds where
  body : Body
  analysis : Analysis
  registry : Registry := {}
  blacklist : List InstId := []
  begun : Nat := 0
  rolledBack : Nat := 0
  reduced : List InstId := []
deriving Inhabited

namespace Rounds

variable (p : Program) (settings : Settings)

def webs (s : Rounds) : List Web :=
  (s.analysis.merges.reducibleWebs s.analysis.retention.isReplaced).map Prod.fst

def leaveAlone (webs : List Web) (s : Rounds) : Metered Rounds := do
  let blacklist := webs.flatMap Web.phis ++ s.blacklist
  let analysis ← Analysis.compute p settings s.registry blacklist s.body
  pure { s with blacklist, analysis }

/-- Takes the given webs apart, and undoes that if an allocation would stay that has to go. -/
def takeApart (webs : List Web) (s : Rounds) : Metered Rounds := do
  let (body, registry, reduced) ← Metered.lift <|
    s.body.reduce p s.analysis.merges s.analysis.retention.isReplaced s.registry webs
  let analysis ← Analysis.compute p settings registry s.blacklist body
  if registry.leaves.all analysis.replaces then
    pure { s with body, registry, analysis, reduced := s.reduced ++ reduced }
  else leaveAlone p settings webs { s with rolledBack := s.rolledBack + 1 }

def step (s : Rounds) : Attempt (Rounds ⊕ Rounds) := do
  let webs := s.webs
  if webs.isEmpty then pure (.inr s)
  else
    Metered.tick.during s.begun
    if settings.maxRounds ≤ s.begun then
      pure (.inl (← (leaveAlone p settings webs s).during s.begun))
    else
      let s := { s with begun := s.begun + 1 }
      pure (.inl (← (takeApart p settings webs s).during s.begun))

def run (s : Rounds) : Attempt Rounds :=
  Metered.iterateOr (fun s b => { rounds := s.begun, fault := .stepBudget b.limit })
    (step p settings) s

end Rounds

end EscapeAnalysis
