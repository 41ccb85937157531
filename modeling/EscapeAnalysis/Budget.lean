import EscapeAnalysis.Ir.Defect

/-!
# Step budgets

The analyses count their steps against a budget and give up when it is exceeded. A metered
computation keeps what was spent even if it gives up.
-/

namespace EscapeAnalysis

structure Budget where
  limit : Nat
  spent : Nat := 0
deriving DecidableEq, Inhabited

inductive Breach where
  | irreducibleWeb (root : Option InstId)
  | classOfPolymorphic (phi : InstId)
  | typeCheckOfPolymorphic (phi : InstId)
  | unexpectedUse (phi : InstId)
  | noFixedShape (alloc : InstId)
  | keptLeaf (leaf : InstId)
  | notInBlock (x : InstId) (b : BlockId)
  | lateTemporary (idx : Nat)
  | unrecorded (state : SafepointId) (alloc : InstId)
  | malformed (d : Defect)
deriving DecidableEq

def Breach.message : Breach → String
  | irreducibleWeb root =>
    let name := (root.map Key.text).getD "nothing"
    s!"attempted to reduce an irreducible web rooted at {name}"
  | classOfPolymorphic phi => s!"class load of polymorphic {phi.text}"
  | typeCheckOfPolymorphic phi => s!"type check of polymorphic {phi.text}"
  | unexpectedUse phi => s!"unexpected use of reduced {phi.text}"
  | noFixedShape alloc => s!"scalar-replaceable {alloc.text} has no fixed shape"
  | keptLeaf leaf => s!"{leaf.text} feeds a reduced merge but is kept"
  | notInBlock x b => s!"{x.text} is not in {b.text}"
  | lateTemporary idx => s!"temporary #{idx} used before its creation"
  | unrecorded state alloc =>
    s!"{state.text} refers to {alloc.text}, whose state was not recorded"
  | malformed d => d.message

/-- Why the pass gives up on a method. -/
inductive Fault where
  | nodeBudget (nodes budget : Nat)
  | stepBudget (limit : Nat)
  | iterationLimit (limit : Nat)
  | doubleRegistration (phi : InstId)
  | invariant (b : Breach)
  /-- What a value is the same as is followed round and round, so there is never an answer. -/
  | endless
deriving DecidableEq

/-- The kinds of faults that a report tells apart. -/
inductive Bailout where
  | budget
  | iterationLimit
  | invariant
deriving DecidableEq

def Bailout.name : Bailout → String
  | budget => "budget"
  | iterationLimit => "iteration-limit"
  | invariant => "invariant"

namespace Fault

def kind : Fault → String
  | nodeBudget _ _ => "node-budget"
  | stepBudget _ => "step-budget"
  | iterationLimit _ => "iteration-limit"
  | doubleRegistration _ => "double-registration"
  | invariant _ => "invariant"
  | endless => "endless"

def message : Fault → String
  | nodeBudget nodes budget => s!"the method has {nodes} instructions, over the budget of {budget}"
  | stepBudget limit => s!"the analysis exhausted its budget of {limit} steps"
  | iterationLimit limit => s!"escape propagation did not converge within {limit} iterations"
  | doubleRegistration phi => s!"{phi.text} was registered as a reduced merge twice"
  | invariant b => s!"internal invariant violated: {b.message}"
  | endless => "the analysis never comes to an end"

/-- The kind under which a fault is reported. Of what never ends there is no report. -/
def bailout? : Fault → Option Bailout
  | nodeBudget _ _ | stepBudget _ => some .budget
  | iterationLimit _ => some .iterationLimit
  | doubleRegistration _ | invariant _ => some .invariant
  | endless => none

end Fault

abbrev Metered := ExceptT Fault (StateM Budget)

namespace Metered

/-- Spends `n` steps at once. They count as spent even if that is too many. -/
def charge (n : Nat) : Metered Unit := do
  modify fun b => { b with spent := b.spent + n }
  let b ← get
  if b.limit < b.spent then throw (.stepBudget b.limit)

def tick : Metered Unit := charge 1

/-- Spends `n` steps one by one. -/
def ticks : Nat → Metered Unit
  | 0 => pure ()
  | n + 1 => do
    tick
    ticks n

/-- A fault that does not depend on the budget. -/
def lift {α : Type} : Except Fault α → Metered α
  | .ok a => pure a
  | .error e => throw e

/-- Goes on only if what is followed comes to an end. -/
def demand (ends : Bool) : Metered Unit := if ends then pure () else throw .endless

/-- Repeats `f` for at most `n` rounds, until it answers on the right. -/
def rounds {ε α β : Type} (late : α → Budget → ε) (f : α → ExceptT ε (StateM Budget) (α ⊕ β)) :
    Nat → α → ExceptT ε (StateM Budget) β
  | 0, a => do
    let b ← get
    throw (late a b)
  | n + 1, a => do
    match ← f a with
    | .inl a => rounds late f n a
    | .inr b => pure b

/-- Repeats `f` until it answers on the right. A round that does not answer has to spend a step, so
the steps left bound the rounds. -/
def iterateOr {ε α β : Type} (late : α → Budget → ε) (f : α → ExceptT ε (StateM Budget) (α ⊕ β))
    (a : α) : ExceptT ε (StateM Budget) β := do
  let b ← get
  rounds late f (b.limit - b.spent + 1) a

def iterate {α β : Type} (f : α → Metered (α ⊕ β)) (a : α) : Metered β :=
  iterateOr (fun _ b => Fault.stepBudget b.limit) f a

end Metered

end EscapeAnalysis
