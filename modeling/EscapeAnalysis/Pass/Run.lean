import EscapeAnalysis.Locking.Elide
import EscapeAnalysis.Pass.Report
import EscapeAnalysis.Pass.Rounds
import EscapeAnalysis.Scalar.Recipes

/-!
# The pass

Takes merges apart, does without every allocation that never leaves the method, and removes locks
that no one else can take. If anything goes wrong the method stays as it is.
-/

namespace EscapeAnalysis

/-- Whether `x` may be an object of the method that has not got out. -/
def Graph.isLocal (g : Graph) (x : InstId) : Bool :=
  (g.allocsOf x).any fun n => g.escapeOf n < .global

/-- Whether `x` may be an object of the method that callees see only while they run. -/
def Graph.isLent (g : Graph) (x : InstId) : Bool :=
  (g.allocsOf x).any fun n => g.escapeOf n == .arg

/-- Notes which safepoints and calls still see objects of the method. -/
def Body.annotate (body : Body) (g : Graph) : Body :=
  { body with
    states := body.states.map fun s =>
      { s with hasLocal := !s.recipes.isEmpty || s.insts.any g.isLocal }
    insts := body.insts.map fun inst =>
      match inst.op with
      | .call c => { inst with op := .call { c with argEscape := c.args.any g.isLent } }
      | _ => inst }

namespace Pass

variable (p : Program) (settings : Settings)

/-- Plans, and keeps what fails, until a plan is ready. -/
def planStep (body : Body) (a : Analysis) (s : Retention × List (Nat × KeepReason)) :
    Metered ((Retention × List (Nat × KeepReason)) ⊕ (Plan × Retention)) := do
  let (r, forced) := s
  match ← body.plan p a.graph r with
  | .ready plan => pure (.inr (plan, r))
  | .retry failures =>
    Metered.tick
    let forced := failures ++ forced
    pure (.inl (.compute p body a.graph a.merges settings forced, forced))

def plan (body : Body) (a : Analysis) : Metered (Plan × Retention) :=
  Metered.iterate (planStep p settings body a) (a.retention, [])

/-- Carries out a plan and removes what it leaves dead. -/
def carryOut (plan : Plan) (body : Body) : Except Breach (Body × Committed) := do
  let committed ← plan.commit body
  let body ← committed.emit
  pure (body.removeInsts committed.dead, committed)

def verify (body : Body) : Except Breach Unit :=
  if settings.verify then (body.check p).mapError .malformed else pure ()

def report (s : Rounds) (a : Analysis) (eliminated : List InstId) (locks : Nat) : Report :=
  { outcome :=
      if eliminated.isEmpty && s.reduced.isEmpty && locks == 0 then .nothingToDo else .reduced
    rounds := s.begun
    rolledBack := s.rolledBack
    eliminated
    retained := a.retention.kept.map fun (n, why) => ((a.graph.alloc n).inst, why)
    reducedMerges := s.reduced
    irreducibleMerges := a.merges.irreducible
    eliminatedLocks := locks
    escape := .ofGraph a.graph }

/-- Does without allocations and locks once no web is left to take apart. -/
def finish (s : Rounds) : Metered (Body × Report) := do
  let (plan, retention) ← plan p settings s.body s.analysis
  let a := { s.analysis with retention }
  match s.registry.leaves.find? fun leaf => !a.replaces leaf with
  | some leaf => throw (.invariant (.keptLeaf leaf))
  | none =>
    let (body, eliminated, removed) ←
      if plan.layout.objects.isEmpty then pure (s.body, [], 0)
      else do
        let (body, committed) ← Metered.lift ((carryOut plan s.body).mapError .invariant)
        pure (body, committed.eliminated, committed.monitorsRemoved)
    Metered.demand (!settings.eliminateLocks || body.tracksMonitors a.graph retention.isReplaced)
    let (body, elided) :=
      if settings.eliminateLocks then body.elide a.graph retention.isReplaced else (body, 0)
    let body := body.annotate a.graph
    Metered.lift ((verify p settings body).mapError .invariant)
    pure (body, report s a eliminated (removed + elided))

/-- The pass on a method that has allocations, and nothing on others. -/
def attempt (body : Body) : Attempt (Body × Report) := do
  let analysis ← (Analysis.compute p settings {} [] body).during 0
  if analysis.graph.allocCount = 0 then pure (body, { outcome := .nothingToDo })
  else
    let s ← Rounds.run p settings { body, analysis }
    (finish p settings s).during s.begun

def allocsIn (body : Body) : Nat := body.insts.values.countP fun inst => inst.op.isAlloc

end Pass

/-- Runs the pass on a body. If it gives up the body stays, and every allocation counts as
escaping. -/
def Body.optimize (p : Program) (settings : Settings) (body : Body) : Body × Report :=
  if !settings.enabled then (body, { outcome := .disabled })
  else
    match ((Pass.attempt p settings body).run.run { limit := settings.stepBudget }).1 with
    | .ok result => result
    | .error abort =>
      (body,
        { outcome := .ofFault abort.fault
          rounds := abort.rounds
          escape := { global := Pass.allocsIn body } })

end EscapeAnalysis
