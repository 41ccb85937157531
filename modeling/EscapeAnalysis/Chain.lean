/-!
# Chains

Following a partial successor function from a start, for at most a given number of steps.
-/

namespace EscapeAnalysis

/-- The chain `a`, `next a`, `next (next a)` and so on, cut after `n` steps. -/
def chain {α : Type} (next : α → Option α) : Nat → α → List α
  | 0, a => [a]
  | n + 1, a =>
    match next a with
    | some b => a :: chain next n b
    | none => [a]

/-- The end of the chain from `a`, or where it stands after `n` steps. -/
def chainEnd {α : Type} (next : α → Option α) : Nat → α → α
  | 0, a => a
  | n + 1, a =>
    match next a with
    | some b => chainEnd next n b
    | none => a

theorem chainEnd_induction {α : Type} {next : α → Option α} {P : α → Prop}
    (step : ∀ a b, P a → next a = some b → P b) : ∀ (n : Nat) (a : α), P a → P (chainEnd next n a)
  | 0, _, h => h
  | n + 1, a, h => by
    rw [chainEnd]
    split
    · exact chainEnd_induction step n _ (step a _ h ‹_›)
    · exact h

section End

variable {α : Type} {next : α → Option α} {n : Nat} {a b : α}

theorem chainEnd_of_some (h : next a = some b) : chainEnd next (n + 1) a = chainEnd next n b := by
  rw [chainEnd, h]

theorem chainEnd_of_none (h : next a = none) : chainEnd next n a = a := by
  cases n with
  | zero => rfl
  | succ n => rw [chainEnd, h]

/-- A chain that comes to its end comes there from each of its members. -/
theorem chainEnd_of_next (hab : next a = some b) (h : next (chainEnd next n a) = none) :
    chainEnd next n b = chainEnd next n a := by
  induction n generalizing a b with
  | zero =>
    rw [chainEnd, hab] at h
    cases h
  | succ n ih =>
    rw [chainEnd_of_some hab] at h ⊢
    rcases hb : next b with _ | c
    · rw [chainEnd_of_none hb, chainEnd_of_none hb]
    · rw [chainEnd_of_some hb]
      exact ih hb h

end End

end EscapeAnalysis
