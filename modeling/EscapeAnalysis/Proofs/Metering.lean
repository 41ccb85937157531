import EscapeAnalysis.Budget

/-!
# Metered computations

`Metered.Yields` opens the layers of a metered computation once, so that the analyses can be
reasoned about step by step; a repeated round keeps what each round keeps
(`Metered.Yields.iterate`), and ends if each round makes a measure smaller (`Metered.Ends.iterate`).

With enough steps left the outcome does not depend on the budget (`Metered.Outcome`), and fewer can
do no more than cut it off (`Metered.Steady`). `Metered.Turns` counts the rounds of a loop.
-/

namespace EscapeAnalysis

open List

namespace Except

variable {ε ε' α β : Type} {E E' : ε → Prop} {Q : α → Prop} {R : β → Prop} {x : Except ε α}

/-- An answer satisfies `Q`, and an error satisfies `E`. -/
def Meets (E : ε → Prop) (Q : α → Prop) : Except ε α → Prop
  | .ok a => Q a
  | .error e => E e

/-- An answer satisfies `Q`. -/
abbrev Answers (Q : α → Prop) (x : Except ε α) : Prop := Meets (fun _ => True) Q x

namespace Meets

variable {Q' : α → Prop}

theorem ok {a} (ha : Q a) : Meets E Q (.ok a) := ha

theorem any (x : Except ε α) : Answers (fun _ => True) x := by
  cases x <;> trivial

theorem self (x : Except ε α) : Answers (fun a => x = .ok a) x := by
  cases x with
  | ok a => exact rfl
  | error e => trivial

theorem mono (h : Meets E Q x) (hE : ∀ e, E e → E' e) (hQ : ∀ a, Q a → Q' a) : Meets E' Q' x := by
  cases x with
  | ok a => exact hQ a h
  | error e => exact hE e h

theorem and (h : Meets E Q x) (h' : Meets E' Q' x) : Meets E (fun a => Q a ∧ Q' a) x := by
  cases x with
  | ok a => exact ⟨h, h'⟩
  | error e => exact h

theorem bind {f} (h : Meets E Q x) (hf : ∀ a, Q a → Meets E R (f a)) : Meets E R (x >>= f) := by
  cases x with
  | ok a => exact hf a h
  | error e => exact h

theorem mapError {f} {E' : ε' → Prop} (h : Meets E Q x) (hf : ∀ e, E e → E' (f e)) :
    Meets E' Q (x.mapError f) := by
  cases x with
  | ok a => exact h
  | error e => exact hf e h

/-- What holds of the start and of what is left of the list holds after every step. -/
theorem foldlM {I : List α → β → Prop} {f} (step : ∀ a l b, I (a :: l) b → Meets E (I l) (f b a)) :
    ∀ (l : List α) (b : β), I l b → Meets E (I []) (l.foldlM f b)
  | [], _, hb => hb
  | a :: l, b, hb => by
    rw [foldlM_cons]
    exact (step a l b hb).bind fun b' hb' => foldlM step l b' hb'

/-- What holds of what is done of the list goes on to hold. -/
theorem foldlM_done {P : List α → β → Prop} {f} : ∀ {l d : List α} {b : β},
    (∀ a ∈ l, ∀ done b, P done b → Meets E (P (done ++ [a])) (f b a)) → P d b →
    Meets E (P (d ++ l)) (l.foldlM f b)
  | [], done, _, _, hb => (append_nil done).symm ▸ hb
  | a :: l, done, b, step, hb => by
    rw [foldlM_cons, append_cons]
    exact (step a (.head _) done b hb).bind fun b' =>
      foldlM_done fun a' ha' => step a' (.tail _ ha')

theorem mapM {f} :
    ∀ (l : List α), (∀ a ∈ l, Meets E R (f a)) → Meets E (fun bs => ∀ b ∈ bs, R b) (l.mapM f)
  | [], _ => by
    intro b hb
    cases hb
  | a :: l, h => by
    rw [mapM_cons]
    refine (h a (by simp)).bind fun b hb => ?_
    refine (mapM l fun a' ha' => h a' (.tail _ ha')).bind fun bs hbs => ?_
    intro b' hb'
    rcases mem_cons.1 hb' with rfl | hb'
    · exact hb
    · exact hbs b' hb'

end Meets

theorem exists_ok_of_any {P} (h : x.toOption.any P = true) : ∃ a, x = .ok a ∧ P a = true := by
  cases x with
  | ok a => exact ⟨a, rfl, h⟩
  | error e => cases h

end Except

namespace Metered

variable {ε α β : Type} {P : α → Prop}

/-- From budget `b` the computation gives `a` and leaves budget `b'`. -/
def Yields (x : ExceptT ε (StateM Budget) α) (b : Budget) (a : α) (b' : Budget) : Prop :=
  (x.run.run b).run = (.ok a, b')

variable {x : ExceptT ε (StateM Budget) α} {b b' : Budget} {a a' : α}

@[simp] theorem yields_pure :
    Yields (pure a : ExceptT ε (StateM Budget) α) b a' b' ↔ a = a' ∧ b = b' := by
  show ((.ok a, b) : Except ε α × Budget) = (.ok a', b') ↔ _
  simp

theorem yields_bind {f} {r : β} :
    Yields (x >>= f) b r b' ↔ ∃ a b₁, Yields x b a b₁ ∧ Yields (f a) b₁ r b' := by
  simp only [Yields, ExceptT.run_bind, StateT.run_bind, Id.run_bind]
  rcases hx : (x.run.run b).run with ⟨e | a, b₁⟩
  · simp
  · simp only [Prod.mk.injEq, Except.ok.injEq]
    constructor
    · exact fun h => ⟨a, b₁, ⟨rfl, rfl⟩, h⟩
    · rintro ⟨_, _, ⟨rfl, rfl⟩, h⟩
      exact h

@[simp] theorem not_yields_throw {e} : ¬ Yields (throw e : ExceptT ε (StateM Budget) α) b a b' := by
  show ¬ ((.error e, b) : Except ε α × Budget) = (.ok a, b')
  simp

@[simp] theorem yields_get {b₁} :
    Yields (get : ExceptT ε (StateM Budget) Budget) b b₁ b' ↔ b = b₁ ∧ b = b' := by
  show ((.ok b, b) : Except ε Budget × Budget) = (.ok b₁, b') ↔ _
  simp

variable {late : α → Budget → ε} {f : α → ExceptT ε (StateM Budget) (α ⊕ β)} {r : β}

/-- What holds at the start and after every round that does not answer gives what holds of the
answer. -/
theorem Yields.rounds {Q : β → Prop} (next : ∀ a b a' b', P a → Yields (f a) b (.inl a') b' → P a')
    (done : ∀ a b r b', P a → Yields (f a) b (.inr r) b' → Q r) :
    ∀ (n : Nat) (a : α) (b b' : Budget), P a → Yields (Metered.rounds late f n a) b r b' → Q r
  | 0, a, b, b', _, h => by
    rw [Metered.rounds, yields_bind] at h
    obtain ⟨_, _, _, h⟩ := h
    exact absurd h not_yields_throw
  | n + 1, a, b, b', ha, h => by
    rw [Metered.rounds, yields_bind] at h
    obtain ⟨s, b₁, hs, h⟩ := h
    rcases s with a' | r'
    · exact Yields.rounds next done n a' b₁ b' (next a b a' b₁ ha hs) h
    · simp only [yields_pure] at h
      exact h.1 ▸ done a b r' b₁ ha hs

theorem Yields.iterate {f} {Q : β → Prop}
    (next : ∀ a b a' b', P a → Yields (f a) b (.inl a') b' → P a')
    (done : ∀ a b r b', P a → Yields (f a) b (.inr r) b' → Q r) (ha : P a)
    (h : Yields (Metered.iterate f a) b r b') : Q r := by
  rw [Metered.iterate, Metered.iterateOr, yields_bind] at h
  obtain ⟨_, b₁, _, h⟩ := h
  exact Yields.rounds next done _ a b₁ b' ha h

@[simp] theorem yields_charge {n u} : Yields (charge n) b u b' ↔
    b.spent + n ≤ b.limit ∧ { b with spent := b.spent + n } = b' := by
  show Yields (if b.limit < b.spent + n then throw (.stepBudget b.limit) else pure () :
    Metered Unit) { b with spent := b.spent + n } u b' ↔ _
  by_cases h : b.limit < b.spent + n
  · rw [if_pos h]
    exact iff_of_false not_yields_throw fun hle => absurd hle.1 (Nat.not_le.2 h)
  · rw [if_neg h, yields_pure]
    exact ⟨fun he => ⟨Nat.not_lt.1 h, he.2⟩, fun he => ⟨rfl, he.2⟩⟩

/-- Every answer satisfies `Q`, and with `n` steps left there is one. -/
structure Ends (x : Metered α) (n : Nat) (Q : α → Prop) : Prop where
  sound : ∀ b a b', Yields x b a b' → Q a
  ends : ∀ b, b.spent + n ≤ b.limit →
    ∃ a b', Yields x b a b' ∧ b'.limit = b.limit ∧ b'.spent ≤ b.spent + n

namespace Ends

variable {x : Metered α} {m n : Nat} {Q : α → Prop} {R : β → Prop}

theorem pure (ha : Q a) : Ends (Pure.pure a) n Q where
  sound _ _ _ h := (yields_pure.1 h).1 ▸ ha
  ends b _ := ⟨a, b, yields_pure.2 ⟨rfl, rfl⟩, rfl, Nat.le_add_right _ _⟩

theorem bind {f} (hx : Ends x m Q) (hf : ∀ a, Q a → Ends (f a) n R) : Ends (x >>= f) (m + n) R where
  sound b r b' h := by
    obtain ⟨a, b₁, ha, hr⟩ := yields_bind.1 h
    exact (hf a (hx.sound b a b₁ ha)).sound b₁ r b' hr
  ends b hb := by
    obtain ⟨a, b₁, ha, hl, hs⟩ := hx.ends b (by omega)
    obtain ⟨r, b2, hr, hl2, hs2⟩ := (hf a (hx.sound b a b₁ ha)).ends b₁ (by omega)
    exact ⟨r, b2, yields_bind.2 ⟨a, b₁, ha, hr⟩, hl2.trans hl, by omega⟩

theorem charge (n : Nat) : Ends (Metered.charge n) n fun _ => True where
  sound _ _ _ _ := trivial
  ends _ hb := ⟨(), _, yields_charge.2 ⟨hb, rfl⟩, rfl, Nat.le_refl _⟩

theorem ticks : ∀ n, Ends (Metered.ticks n) n fun _ => True
  | 0 => pure trivial
  | n + 1 => by
    rw [Metered.ticks, Nat.add_comm]
    exact bind (charge 1) fun _ _ => ticks n

/-- Rounds that each end, and that make a measure smaller unless they answer, end. -/
theorem iterate {f} {P : α → Prop} {μ : α → Nat}
    (step : ∀ a, P a → Ends (f a) n (Sum.elim (fun a' => P a' ∧ μ a' < μ a) R)) (ha : P a) :
    Ends (Metered.iterate f a) ((μ a + 1) * (n + 1)) R where
  sound b r b' := Yields.iterate
    (fun a b a' b' ha h => ((step a ha).sound b (.inl a') b' h).1)
    (fun a b r b' ha h => (step a ha).sound b (.inr r) b' h) ha
  ends b hb := by
    have loop : ∀ (k : Nat) (a : α) (b : Budget), P a → μ a < k →
        b.spent + (μ a + 1) * n ≤ b.limit →
        ∃ r b', Yields (rounds (fun _ b => Fault.stepBudget b.limit) f k a) b r b' ∧
          b'.limit = b.limit ∧ b'.spent ≤ b.spent + (μ a + 1) * n := by
      intro k
      induction k with
      | zero => exact fun a b _ hlt => absurd hlt (Nat.not_lt_zero _)
      | succ k ih =>
        intro a b ha hlt hb
        rw [Nat.add_mul, Nat.one_mul] at hb ⊢
        obtain ⟨s, b₁, hs, hl1, hs1⟩ := (step a ha).ends b (by omega)
        rcases s with a' | r
        · obtain ⟨ha', hμ⟩ := (step a ha).sound b (.inl a') b₁ hs
          have hmul : (μ a' + 1) * n ≤ μ a * n := Nat.mul_le_mul_right n hμ
          obtain ⟨r, b2, hr, hl2, hs2⟩ := ih a' b₁ ha' (by omega) (by omega)
          refine ⟨r, b2, ?_, hl2.trans hl1, by omega⟩
          rw [rounds, yields_bind]
          exact ⟨.inl a', b₁, hs, hr⟩
        · refine ⟨r, b₁, ?_, hl1, by omega⟩
          rw [rounds, yields_bind]
          exact ⟨.inr r, b₁, hs, yields_pure.2 ⟨rfl, rfl⟩⟩
    rw [Nat.mul_succ] at hb
    obtain ⟨r, b', hr, hl, hs⟩ := loop (b.limit - b.spent + 1) a b ha (by omega) (by omega)
    refine ⟨r, b', ?_, hl, by rw [Nat.mul_succ]; omega⟩
    rw [Metered.iterate, iterateOr, yields_bind]
    exact ⟨b, b, yields_get.2 ⟨rfl, rfl⟩, hr⟩

end Ends

/-- Every answer satisfies `Q`, and every fault satisfies `E`. -/
def Meets (E : ε → Prop) (Q : α → Prop) (x : ExceptT ε (StateM Budget) α) : Prop :=
  ∀ b, Except.Meets E Q (x.run.run b).run.1

/-- Every answer satisfies `Q`. -/
abbrev Answers (Q : α → Prop) (x : ExceptT ε (StateM Budget) α) : Prop := Meets (fun _ => True) Q x

namespace Meets

variable {E : ε → Prop} {Q Q' : α → Prop} {R : β → Prop}

theorem pure (ha : Q a) : Meets E Q (Pure.pure a) := fun _ => ha

theorem any (x : ExceptT ε (StateM Budget) α) : Answers (fun _ => True) x :=
  fun _ => Except.Meets.any _

theorem throw {e} (he : E e) : Meets E Q (MonadExcept.throw e) := fun _ => he

theorem mono (h : Meets E Q x) (hQ : ∀ a, Q a → Q' a) : Meets E Q' x :=
  fun b => (h b).mono (fun _ => id) hQ

theorem and {E'} (h : Meets E Q x) (h' : Meets E' Q' x) : Meets E (fun a => Q a ∧ Q' a) x :=
  fun b => (h b).and (h' b)

theorem of_yields (h : Meets E (fun _ => True) x) (hy : ∀ b a b', Yields x b a b' → Q a) :
    Meets E Q x := by
  intro b
  have hx := h b
  rcases hrun : (x.run.run b).run with ⟨e | a, b'⟩
  · rwa [hrun] at hx
  · exact hy b a b' hrun

theorem yields (h : Meets E Q x) (hy : Yields x b a b') : Q a := by
  have hx := h b
  rwa [hy] at hx

theorem self (x : ExceptT ε (StateM Budget) α) : Answers (fun a => ∃ b b', Yields x b a b') x :=
  (any x).of_yields fun b _ b' hy => ⟨b, b', hy⟩

theorem bind {f} (h : Meets E Q x) (hf : ∀ a, Q a → Meets E R (f a)) : Meets E R (x >>= f) := by
  intro b
  have hx := h b
  simp only [ExceptT.run_bind, StateT.run_bind, Id.run_bind]
  rcases hrun : (x.run.run b).run with ⟨e | a, b'⟩
  · rwa [hrun] at hx
  · rw [hrun] at hx
    exact hf a hx b'

/-- What holds of what is done of the list goes on to hold. -/
theorem foldlM {γ : Type} {I : List γ → β → Prop} {f} {l : List γ} {b : β}
    (step : ∀ done c rest b, l = done ++ c :: rest → I done b → Meets E (I (done ++ [c])) (f b c))
    (hb : I [] b) : Meets E (I l) (l.foldlM f b) := by
  have loop : ∀ (rest done : List γ) (b : β), l = done ++ rest → I done b →
      Meets E (I l) (rest.foldlM f b) := by
    intro rest
    induction rest with
    | nil =>
      intro done b hl hb
      rw [hl, append_nil]
      exact pure hb
    | cons c rest ih =>
      intro done b hl hb
      rw [foldlM_cons]
      exact (step done c rest b hl hb).bind fun b' => ih (done ++ [c]) b' (by simp [hl])
  exact loop l [] b rfl hb

/-- What holds at the start and after every round that does not answer gives what holds of the
answer. -/
theorem iterateOr {P} (hlate : ∀ a b, P a → E (late a b))
    (step : ∀ a, P a → Meets E (Sum.elim P R) (f a)) (ha : P a) :
    Meets E R (Metered.iterateOr late f a) := by
  have loop : ∀ (n : Nat) (a : α), P a → Meets E R (rounds late f n a) := by
    intro n
    induction n with
    | zero => exact fun a ha b => hlate a b ha
    | succ n ih =>
      intro a ha
      rw [rounds]
      refine (step a ha).bind fun s hs => ?_
      rcases s with a' | r
      · exact ih a' hs
      · exact pure hs
  exact fun b => loop _ a ha b

theorem lift {E x} (h : Except.Meets E Q x) : Meets E Q (Metered.lift x) := by
  cases x with
  | ok a => exact pure h
  | error e => exact throw h

theorem charge {E} (h : ∀ limit, E (.stepBudget limit)) (n : Nat) :
    Meets E (fun _ => True) (Metered.charge n) := by
  intro b
  show Except.Meets E _ (ExceptT.run (if b.limit < b.spent + n then
    MonadExcept.throw (.stepBudget b.limit) else Pure.pure () : Metered Unit)
    { b with spent := b.spent + n }).run.1
  split
  · exact h b.limit
  · trivial

theorem ticks {E} (h : ∀ limit, E (.stepBudget limit)) :
    ∀ n, Meets E (fun _ => True) (Metered.ticks n)
  | 0 => pure trivial
  | n + 1 => (charge h 1).bind fun _ _ => ticks h n

end Meets

def result? (x : ExceptT ε (StateM Budget) α) (b : Budget) : Option α :=
  match (x.run.run b).run.1 with
  | .ok a => some a
  | .error _ => none

def fault? (x : ExceptT ε (StateM Budget) α) (b : Budget) : Option ε :=
  match (x.run.run b).run.1 with
  | .ok _ => none
  | .error e => some e

theorem result?_eq_some_iff : result? x b = some a ↔ ∃ b', Yields x b a b' := by
  simp only [result?, Yields]
  rcases hx : (x.run.run b).run with ⟨e | a', b'⟩
  · simp
  · simp

theorem exists_yields {P} (h : (result? x b).any P = true) :
    ∃ a b', Yields x b a b' ∧ P a = true := by
  rcases hx : result? x b with _ | a
  · simp [hx] at h
  · obtain ⟨b', hy⟩ := result?_eq_some_iff.1 hx
    exact ⟨a, b', hy, by simpa [hx] using h⟩

end Metered

/-- The fault is not that the steps are used up. -/
def Fault.NotSpent (e : Fault) : Prop := ∀ limit, e ≠ .stepBudget limit

theorem Fault.stepBudget_ne_endless (limit : Nat) : stepBudget limit ≠ endless := by simp

namespace Metered

variable {ε α β : Type} {x : ExceptT ε (StateM Budget) α} {f : α → ExceptT ε (StateM Budget) β}
  {r r' : Except ε α} {a : α} {b b₁ : Budget} {E : ε → Prop} {Q : α → Prop} {R : β → Prop}

theorem run_bind_ok (h : (x.run.run b).run = (.ok a, b₁)) :
    ((x >>= f).run.run b).run = ((f a).run.run b₁).run := by
  simp only [ExceptT.run_bind, StateT.run_bind, Id.run_bind, h]

theorem run_bind_error {e} (h : (x.run.run b).run = (.error e, b₁)) :
    ((x >>= f).run.run b).run = (.error e, b₁) := by
  simp only [ExceptT.run_bind, StateT.run_bind, Id.run_bind, h]
  rfl

/-- With enough steps left the computation ends with `r`, at a cost that does not depend on the
budget. -/
def Outcome (x : ExceptT ε (StateM Budget) α) (r : Except ε α) : Prop :=
  ∃ needed cost, ∀ b : Budget, b.spent + needed ≤ b.limit →
    (x.run.run b).run = (r, { b with spent := b.spent + cost })

namespace Outcome

theorem unique (h : Outcome x r) (h' : Outcome x r') : r = r' := by
  obtain ⟨n, c, hr⟩ := h
  obtain ⟨n', c', hr'⟩ := h'
  have h1 := hr { limit := n + n' } (by simp)
  have h2 := hr' { limit := n + n' } (by simp)
  rw [h1] at h2
  exact congrArg Prod.fst h2

theorem meets (h : Outcome x r) (hx : Meets E Q x) : Except.Meets E Q r := by
  obtain ⟨n, c, hr⟩ := h
  have hm := hx { limit := n }
  rwa [hr { limit := n } (by simp)] at hm

theorem yields (h : Outcome x (.ok a)) : ∃ b b', Yields x b a b' := by
  obtain ⟨n, c, hr⟩ := h
  exact ⟨_, _, hr { limit := n } (by simp)⟩

theorem pure (a : α) : Outcome (Pure.pure a : ExceptT ε (StateM Budget) α) (.ok a) :=
  ⟨0, 0, fun _ _ => rfl⟩

theorem throw (e : ε) : Outcome (MonadExcept.throw e : ExceptT ε (StateM Budget) α) (.error e) :=
  ⟨0, 0, fun _ _ => rfl⟩

theorem charge (n : Nat) : Outcome (Metered.charge n) (.ok ()) :=
  ⟨n, n, fun _ hb => yields_charge.2 ⟨hb, rfl⟩⟩

theorem bind {r} (hx : Outcome x (.ok a)) (hf : Outcome (f a) r) : Outcome (x >>= f) r := by
  obtain ⟨n, c, hx⟩ := hx
  obtain ⟨n', c', hf⟩ := hf
  refine ⟨n + c + n', c + c', fun b hb => ?_⟩
  rw [run_bind_ok (hx b (by omega)), hf _ (by simp only; omega), Nat.add_assoc]

theorem bind_error {e} (hx : Outcome x (.error e)) : Outcome (x >>= f) (.error e) := by
  obtain ⟨n, c, hx⟩ := hx
  exact ⟨n, c, fun b hb => run_bind_error (hx b hb)⟩

theorem exists_of_bind {r} (hx : ∃ r, Outcome x r) (hf : ∀ a, ∃ r, Outcome (f a) r)
    (h : Outcome (x >>= f) (.ok r)) : ∃ a, Outcome x (.ok a) ∧ Outcome (f a) (.ok r) := by
  obtain ⟨e | a, hx⟩ := hx
  · cases h.unique (hx.bind_error (f := f))
  · obtain ⟨r', hr'⟩ := hf a
    exact ⟨a, hx, h.unique (hx.bind hr') ▸ hr'⟩

end Outcome

/-- What ends with as many steps left as it was given at least ends in the same way, and spends the
same, with more of them, unless it was cut off: `E` are the other faults. -/
def Steady (E : ε → Prop) (x : ExceptT ε (StateM Budget) α) : Prop :=
  ∀ b r b', (x.run.run b).run = (r, b') → Except.Meets E (fun _ => True) r →
    ∃ cost, ∀ b₁ : Budget, b.limit + b₁.spent ≤ b₁.limit + b.spent →
      (x.run.run b₁).run = (r, { b₁ with spent := b₁.spent + cost })

namespace Steady

theorem outcome {b'} (h : Steady E x) (hr : (x.run.run b).run = (r, b'))
    (hm : Except.Meets E (fun _ => True) r) : Outcome x r := by
  obtain ⟨cost, hcost⟩ := h b r b' hr hm
  exact ⟨b.limit, cost, fun b₁ hb1 => hcost b₁ (by omega)⟩

theorem pure (a : α) : Steady E (Pure.pure a) := by
  rintro b r b' hr -
  obtain ⟨rfl, -⟩ := Prod.mk.inj hr
  exact ⟨0, fun _ _ => rfl⟩

theorem throw (e : ε) : Steady E (MonadExcept.throw e : ExceptT ε (StateM Budget) α) := by
  rintro b r b' hr -
  obtain ⟨rfl, -⟩ := Prod.mk.inj hr
  exact ⟨0, fun _ _ => rfl⟩

theorem charge (n : Nat) : Steady Fault.NotSpent (Metered.charge n) := by
  intro b r b' hr hm
  by_cases hb : b.spent + n ≤ b.limit
  · have hy : Yields (Metered.charge n) b () { b with spent := b.spent + n } :=
      yields_charge.2 ⟨hb, rfl⟩
    obtain ⟨rfl, -⟩ := Prod.mk.inj (hr.symm.trans hy)
    exact ⟨n, fun b₁ hb1 => yields_charge.2 ⟨by omega, rfl⟩⟩
  · have hthrow : ((Metered.charge n).run.run b).run =
        (.error (.stepBudget b.limit), { b with spent := b.spent + n }) := by
      show (ExceptT.run (if b.limit < b.spent + n then
        MonadExcept.throw (Fault.stepBudget b.limit) else Pure.pure () : Metered Unit)
        { b with spent := b.spent + n }).run = _
      rw [if_pos (Nat.lt_of_not_le hb)]
      rfl
    obtain ⟨rfl, -⟩ := Prod.mk.inj (hr.symm.trans hthrow)
    exact absurd rfl (hm b.limit)

theorem bind (hx : Steady E x) (hf : ∀ a b b', Yields x b a b' → Steady E (f a)) :
    Steady E (x >>= f) := by
  intro b r b' hr hm
  rcases hrun : (x.run.run b).run with ⟨e | a, b₁⟩
  · rw [run_bind_error hrun] at hr
    obtain ⟨rfl, -⟩ := Prod.mk.inj hr
    obtain ⟨cost, hx⟩ := hx b _ b₁ hrun hm
    exact ⟨cost, fun b2 hb2 => run_bind_error (hx b2 hb2)⟩
  · rw [run_bind_ok hrun] at hr
    obtain ⟨cost, hx⟩ := hx b _ b₁ hrun trivial
    have hf := hf a b b₁ hrun
    obtain ⟨-, rfl⟩ := Prod.mk.inj (hrun.symm.trans (hx b (Nat.le_refl _)))
    obtain ⟨cost', hf⟩ := hf _ r b' hr hm
    refine ⟨cost + cost', fun b2 hb2 => ?_⟩
    rw [run_bind_ok (hx b2 hb2), hf _ (by simp only; omega), Nat.add_assoc]

section Rounds

variable {late : α → Budget → ε} {f : α → ExceptT ε (StateM Budget) (α ⊕ β)} {P : α → Prop}
  (hlate : ∀ a b, ¬ E (late a b)) (hf : ∀ a, P a → Steady E (f a))
  (hP : ∀ a b a' b', P a → Yields (f a) b (.inl a') b' → P a')
include hlate hf hP

/-- Rounds that were enough are enough with more of them to come and with more steps left. -/
theorem rounds {r : Except ε β} : ∀ (n : Nat) (a : α) (b b' : Budget), P a →
    ((Metered.rounds late f n a).run.run b).run = (r, b') → Except.Meets E (fun _ => True) r →
    ∃ cost, ∀ n₁ ≥ n, ∀ b₁ : Budget, b.limit + b₁.spent ≤ b₁.limit + b.spent →
      ((Metered.rounds late f n₁ a).run.run b₁).run = (r, { b₁ with spent := b₁.spent + cost })
  | 0, a, b, b', _, hr, hm => by
    obtain ⟨rfl, -⟩ := Prod.mk.inj hr
    exact absurd hm (hlate a b)
  | n + 1, a, b, b', ha, hr, hm => by
    suffices ∃ cost, ∀ n₁ ≥ n, ∀ b₁ : Budget, b.limit + b₁.spent ≤ b₁.limit + b.spent →
        ((Metered.rounds late f (n₁ + 1) a).run.run b₁).run =
          (r, { b₁ with spent := b₁.spent + cost }) by
      refine this.imp fun _ h n₁ hn => ?_
      obtain ⟨n₁, rfl⟩ := Nat.exists_eq_add_of_le' (Nat.le_of_add_left_le hn)
      exact h n₁ (Nat.le_of_succ_le_succ hn)
    simp only [Metered.rounds] at hr ⊢
    rcases hrun : ((f a).run.run b).run with ⟨e | a' | v, b₁⟩
    · rw [run_bind_error hrun] at hr
      obtain ⟨rfl, -⟩ := Prod.mk.inj hr
      obtain ⟨cost, hcost⟩ := hf a ha b _ b₁ hrun hm
      exact ⟨cost, fun _ _ b₂ hb => run_bind_error (hcost b₂ hb)⟩
    · rw [run_bind_ok hrun] at hr
      obtain ⟨cost, hcost⟩ := hf a ha b _ b₁ hrun trivial
      obtain ⟨-, rfl⟩ := Prod.mk.inj (hrun.symm.trans (hcost b (Nat.le_refl _)))
      obtain ⟨cost', hrest⟩ := rounds n a' _ b' (hP a b a' _ ha hrun) hr hm
      refine ⟨cost + cost', fun n₁ hn b₂ hb => ?_⟩
      rw [run_bind_ok (hcost b₂ hb), hrest n₁ hn _ (by simp only; omega), Nat.add_assoc]
    · rw [run_bind_ok hrun] at hr
      obtain ⟨rfl, -⟩ := Prod.mk.inj hr
      obtain ⟨cost, hcost⟩ := hf a ha b _ b₁ hrun trivial
      exact ⟨cost, fun _ _ b₂ hb => by rw [run_bind_ok (hcost b₂ hb)]; rfl⟩

theorem iterateOr (ha : P a) : Steady E (Metered.iterateOr late f a) := by
  intro b r b' hr hm
  obtain ⟨cost, hcost⟩ := rounds hlate hf hP _ a b b' ha hr hm
  exact ⟨cost, fun b₁ hb => hcost (b₁.limit - b₁.spent + 1) (by omega) b₁ hb⟩

end Rounds

end Steady

/-- The computation has an outcome, an answer that satisfies `Q` or a fault that satisfies `E`, and
a budget can do no more than cut it off. -/
structure Settles (E : ε → Prop) (Q : α → Prop) (x : ExceptT ε (StateM Budget) α) : Prop where
  steady : Steady E x
  ends : ∃ r, Outcome x r ∧ Except.Meets E Q r

namespace Settles

variable {Q' : α → Prop} {γ : Type}

section

variable (h : Settles E Q x)
include h

theorem of_outcome (hr : Outcome x r) : Except.Meets E Q r := by
  obtain ⟨r', hr', hm⟩ := h.ends
  exact hr.unique hr' ▸ hm

theorem yields {b'} (hy : Yields x b a b') : Q a :=
  h.of_outcome (h.steady.outcome hy trivial)

theorem mono (hQ : ∀ a, Q a → Q' a) : Settles E Q' x := by
  obtain ⟨hs, r, hr, hm⟩ := h
  exact ⟨hs, r, hr, hm.mono (fun _ => id) hQ⟩

theorem outcome : Settles E (fun a => Q a ∧ Outcome x (.ok a)) x := by
  obtain ⟨hs, r, hr, hm⟩ := h
  refine ⟨hs, r, hr, ?_⟩
  cases r with
  | ok a => exact ⟨hm, hr⟩
  | error e => exact hm

theorem and_meets {E'} (hm : Meets E' Q' x) : Settles E (fun a => Q a ∧ Q' a) x := by
  obtain ⟨hs, r, hr, hQ⟩ := h
  refine ⟨hs, r, hr, ?_⟩
  cases r with
  | ok a =>
    obtain ⟨b, b', hy⟩ := hr.yields
    exact ⟨hQ, hm.yields hy⟩
  | error e => exact hQ

end

theorem pure (ha : Q a) : Settles E Q (Pure.pure a) := ⟨.pure a, _, .pure a, ha⟩

theorem throw {e} (he : E e) : Settles E Q (MonadExcept.throw e) :=
  ⟨.throw e, _, .throw e, he⟩

theorem bind (hx : Settles E Q x) (hf : ∀ a, Q a → Settles E R (f a)) : Settles E R (x >>= f) := by
  refine ⟨hx.steady.bind fun a b b' hy => (hf a (hx.yields hy)).steady, ?_⟩
  obtain ⟨r, hr, hm⟩ := hx.ends
  cases r with
  | ok a =>
    obtain ⟨r', hr', hm'⟩ := (hf a hm).ends
    exact ⟨r', hr.bind hr', hm'⟩
  | error e => exact ⟨_, hr.bind_error, hm⟩

theorem charge (n : Nat) : Settles Fault.NotSpent (fun _ => True) (Metered.charge n) :=
  ⟨.charge n, _, .charge n, trivial⟩

theorem ticks : ∀ n, Settles Fault.NotSpent (fun _ => True) (Metered.ticks n)
  | 0 => pure trivial
  | n + 1 => (charge 1).bind fun _ _ => ticks n

theorem lift {E x} (h : Except.Meets E Q x) : Settles E Q (Metered.lift x) := by
  cases x with
  | ok a => exact pure h
  | error e => exact throw h

theorem foldlM {I : β → Prop} {f} (step : ∀ b c, I b → Settles E I (f b c)) :
    ∀ (l : List γ) (b : β), I b → Settles E I (l.foldlM f b)
  | [], _, hb => pure hb
  | c :: l, b, hb => by
    rw [foldlM_cons]
    exact (step b c hb).bind fun b' hb' => foldlM step l b' hb'

theorem forM {f} (step : ∀ c, Settles E (fun _ => True)
    (f c)) : ∀ l : List γ, Settles E (fun _ => True) (l.forM f)
  | [] => pure trivial
  | c :: l => (step c).bind fun _ _ => forM step l

/-- Rounds that each have an outcome, and that make a measure smaller unless they answer, have an
outcome. -/
theorem iterateOr {late} {f : α → ExceptT ε (StateM Budget) (α ⊕ β)} {P : α → Prop} {μ : α → Nat}
    (hlate : ∀ a b, ¬ E (late a b))
    (step : ∀ a, P a → Settles E (Sum.elim (fun a' => P a' ∧ μ a' < μ a) R) (f a)) (ha : P a) :
    Settles E R (Metered.iterateOr late f a) := by
  have hf : ∀ a, P a → Steady E (f a) := fun a ha => (step a ha).steady
  have hP : ∀ a b a' b', P a → Yields (f a) b (.inl a') b' → P a' :=
    fun a _ _ _ ha hy => ((step a ha).yields hy).1
  have loop : ∀ (k : Nat) (a : α), P a → μ a < k →
      ∃ r, Outcome (rounds late f k a) r ∧ Except.Meets E R r := by
    intro k
    induction k with
    | zero => exact fun a _ hlt => absurd hlt (Nat.not_lt_zero _)
    | succ k ih =>
      intro a ha hlt
      obtain ⟨-, r, hr, hm⟩ := step a ha
      rcases r with e | a' | r
      · exact ⟨_, hr.bind_error, hm⟩
      · obtain ⟨r, hr', hm'⟩ := ih a' hm.1 (Nat.lt_of_lt_of_le hm.2 (Nat.le_of_lt_succ hlt))
        exact ⟨r, hr.bind hr', hm'⟩
      · exact ⟨_, hr.bind (.pure r), hm⟩
  obtain ⟨r, ⟨n, c, hr⟩, hm⟩ := loop (μ a + 1) a ha (Nat.lt_succ_self _)
  obtain ⟨cost, hcost⟩ := Steady.rounds hlate hf hP _ a { limit := n } _ ha
    (hr _ (by simp)) (hm.mono (fun _ => id) fun _ _ => trivial)
  exact ⟨.iterateOr hlate hf hP ha, r, ⟨n + μ a, cost, fun b hb =>
    hcost (b.limit - b.spent + 1) (by omega) b (by simp only; omega)⟩, hm⟩

end Settles

/-- What ends with enough steps left, and does not depend on how many there are, has an outcome. -/
theorem Ends.settles {x n E} (h : Ends x n Q) (hs : Steady E x) : Settles E Q x := by
  obtain ⟨a, b', hy, -⟩ := h.ends { limit := n } (by simp)
  exact ⟨hs, .ok a, hs.outcome hy trivial, h.sound _ _ _ hy⟩

/-- `k` rounds in a row that do not answer, with all the steps they ask for. -/
inductive Turns (f : α → ExceptT ε (StateM Budget) (α ⊕ β)) (a : α) : Nat → α → Prop
  | start : Turns f a 0 a
  | next {k : Nat} {a' a''} (h : Turns f a k a') (hf : Outcome (f a') (.ok (.inl a''))) :
      Turns f a (k + 1) a''

end Metered

end EscapeAnalysis
