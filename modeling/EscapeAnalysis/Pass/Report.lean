import EscapeAnalysis.Retention

/-!
# Reports

What a run of the pass has done to a method.
-/

namespace EscapeAnalysis

inductive PassOutcome where
  | disabled
  | nothingToDo
  | reduced
  | notReduced (why : Bailout)
  /-- The pass never comes to an end. -/
  | endless
deriving DecidableEq, Inhabited

def PassOutcome.name : PassOutcome → String
  | disabled => "disabled"
  | nothingToDo => "nothing-to-do"
  | reduced => "reduced"
  | notReduced why => s!"not-reduced:{why.name}"
  | endless => "endless"

def PassOutcome.ofFault (f : Fault) : PassOutcome := (f.bailout?.map notReduced).getD endless

structure EscapeCounts where
  none : Nat := 0
  arg : Nat := 0
  global : Nat := 0
deriving DecidableEq, Inhabited

namespace EscapeCounts

def total (c : EscapeCounts) : Nat := c.none + c.arg + c.global

def ofGraph (g : Graph) : EscapeCounts :=
  let count (e : Escape) : Nat := g.allocNumbers.countP fun n => g.escapeOf n == e
  { none := count .none, arg := count .arg, global := count .global }

end EscapeCounts

structure Report where
  outcome : PassOutcome
  rounds : Nat := 0
  /-- The rounds undone because they would have kept a leaf of an earlier reduction. -/
  rolledBack : Nat := 0
  eliminated : List InstId := []
  retained : List (InstId × KeepReason) := []
  reducedMerges : List InstId := []
  irreducibleMerges : List (InstId × Obstacle) := []
  eliminatedLocks : Nat := 0
  escape : EscapeCounts := {}
deriving Inhabited

/-- Why an allocation was kept: the first reason that the report has for it. -/
def Report.reason? (r : Report) (alloc : InstId) : Option KeepReason := r.retained.lookup alloc

end EscapeAnalysis
