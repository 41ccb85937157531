/-!
# Ranges of characters

A property of characters is a table of closed ranges of codes, which rise and do not overlap. It is
written down as the lengths of runs, so it cannot help but rise (`Ranges.rises_ofRuns`). The tables
of this library follow Unicode 17.0.
-/

namespace EscapeAnalysis

abbrev Ranges := List (Nat × Nat)

namespace Ranges

/-- Whether a range holds the code `n`. The first range that starts behind `n` ends the search. -/
def has : Ranges → Nat → Bool
  | [], _ => false
  | (lo, hi) :: rest, n => lo ≤ n && (n ≤ hi || has rest n)

/-- Whether the ranges start at `n` or later and every range lies behind the one before. -/
def risesFrom (n : Nat) : Ranges → Bool
  | [] => true
  | (lo, hi) :: rest => n ≤ lo && lo ≤ hi && risesFrom (hi + 1) rest

/-- The ranges behind `n`, each given by the number of codes that it leaves out and by the number of
codes behind its first one. -/
def ofRuns (n : Nat) : List (Nat × Nat) → Ranges
  | [] => []
  | (gap, more) :: runs => (n + gap, n + gap + more) :: ofRuns (n + gap + more + 1) runs

theorem rises_ofRuns (n : Nat) (runs : List (Nat × Nat)) : (ofRuns n runs).risesFrom n = true := by
  induction runs generalizing n with
  | nil => rfl
  | cons run runs ih => simp [ofRuns, risesFrom, ih]

theorem le_of_risesFrom {rs : Ranges} {n : Nat} (rises : rs.risesFrom n = true) :
    ∀ r ∈ rs, n ≤ r.1 := by
  induction rs generalizing n with
  | nil => simp
  | cons r rest ih =>
    simp only [risesFrom, Bool.and_eq_true, decide_eq_true_eq] at rises
    simp only [List.forall_mem_cons]
    exact ⟨rises.1.1, fun s hs => by have := ih rises.2 s hs; omega⟩

/-- Looking no further than the first range behind `n` misses nothing. -/
theorem has_iff {rs : Ranges} {start : Nat} (rises : rs.risesFrom start = true) (n : Nat) :
    rs.has n = true ↔ ∃ r ∈ rs, r.1 ≤ n ∧ n ≤ r.2 := by
  induction rs generalizing start with
  | nil => simp [has]
  | cons r rest ih =>
    simp only [risesFrom, Bool.and_eq_true, decide_eq_true_eq] at rises
    simp only [has, Bool.and_eq_true, Bool.or_eq_true, decide_eq_true_eq, ih rises.2,
      List.mem_cons, or_and_right, exists_or, exists_eq_left]
    constructor
    · rintro ⟨hlo, hhi | found⟩
      · exact .inl ⟨hlo, hhi⟩
      · exact .inr found
    · rintro (⟨hlo, hhi⟩ | ⟨s, hs, hlo, hhi⟩)
      · exact ⟨hlo, .inl hhi⟩
      · have := le_of_risesFrom rises.2 s hs
        exact ⟨by omega, .inr ⟨s, hs, hlo, hhi⟩⟩

end Ranges

end EscapeAnalysis
