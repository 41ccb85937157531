/-!
# Walks over finite graphs

Two ways to visit what can be reached from some roots. `walk` goes depth first, and `flood` keeps a
list of pending nodes. Both look at each edge once and stay inside a given list of nodes, which is
what makes them end.
-/

namespace EscapeAnalysis

variable {α : Type} [DecidableEq α]

/-- What a depth-first walk has seen, latest first. -/
structure Walk (α : Type) where
  opened : List α := []
  closed : List α := []
  cyclic : Bool := false

namespace Walk

/-- The nodes not seen yet, weighed by `weight`. -/
def unseen (weight : α → Nat) (seen : List α) : List α → Nat
  | [] => 0
  | a :: nodes => (if a ∈ seen then 0 else weight a) + unseen weight seen nodes

theorem unseen_cons_le (weight : α → Nat) (seen : List α) (b : α) :
    ∀ nodes : List α, unseen weight (b :: seen) nodes ≤ unseen weight seen nodes
  | [] => Nat.le_refl _
  | a :: nodes => by
    have ih := unseen_cons_le weight seen b nodes
    simp only [unseen, List.mem_cons]
    by_cases hs : a ∈ seen
    · simpa [hs] using ih
    · by_cases hb : a = b <;> simp [hs, hb] <;> omega

/-- Seeing a node takes its weight from what is left. -/
theorem unseen_cons_add_le (weight : α → Nat) {seen : List α} {b : α} (hs : b ∉ seen) :
    ∀ nodes : List α, b ∈ nodes →
      unseen weight (b :: seen) nodes + weight b ≤ unseen weight seen nodes
  | [], h => by simp at h
  | a :: nodes, h => by
    by_cases hab : a = b
    · have rest := unseen_cons_le weight seen b nodes
      simp only [unseen, List.mem_cons, hab, true_or, if_true, hs, if_false]
      omega
    · have ih := unseen_cons_add_le weight hs nodes (by simpa [Ne.symm hab] using h)
      simp only [unseen, List.mem_cons, hab, false_or]
      omega

/-- A node weighs one, and one more for each of its edges. -/
def degree (next : α → List α) (a : α) : Nat := (next a).length + 1

/-- One unit for each node on the stack and for each of its edges still to be looked at. -/
def pending : List (α × List α) → Nat
  | [] => 0
  | e :: stack => e.2.length + 1 + pending stack

end Walk

/-- Walks depth first from the top of the stack, on which each open node lies with the edges still
to be looked at. -/
def walk (nodes : List α) (next : α → List α) : List (α × List α) → Walk α → Walk α
  | [], w => w
  | (a, []) :: stack, w => walk nodes next stack { w with closed := a :: w.closed }
  | (a, b :: bs) :: stack, w =>
    if b ∈ w.opened then
      walk nodes next ((a, bs) :: stack) { w with cyclic := w.cyclic || b ∉ w.closed }
    else if b ∈ nodes then
      walk nodes next ((b, next b) :: (a, bs) :: stack) { w with opened := b :: w.opened }
    else walk nodes next ((a, bs) :: stack) w
termination_by stack w => Walk.unseen (Walk.degree next) w.opened nodes + Walk.pending stack
decreasing_by
  · simp [Walk.pending]
  · simp [Walk.pending]
  · rename_i hseen hmem
    have := Walk.unseen_cons_add_le (Walk.degree next) hseen nodes hmem
    simp only [Walk.pending, Walk.degree, List.length_cons] at this ⊢
    omega
  · simp [Walk.pending]

/-- Walks from each root that is not opened yet, in order. -/
def walkFrom (nodes : List α) (next : α → List α) (roots : List α) : Walk α :=
  roots.foldl (fun w r =>
    if r ∈ w.opened then w
    else walk nodes next [(r, next r)] { w with opened := r :: w.opened }) {}

/-- Which of the pending nodes is visited next. -/
inductive Discipline where
  | oldestFirst
  | newestFirst

namespace Discipline

/-- Puts nodes on the list of pending ones, the first of them first. -/
def add {β : Type} : Discipline → List β → List β → List β
  | oldestFirst, pending, fresh => pending ++ fresh
  | newestFirst, pending, fresh => fresh.reverse ++ pending

theorem length_add {β : Type} (d : Discipline) (pending fresh : List β) :
    (d.add pending fresh).length = pending.length + fresh.length := by
  cases d <;> simp [add, Nat.add_comm]

end Discipline

/-- Those of a list that are nodes and not marked, each once. -/
def unmarked (nodes : List α) : List α → List α → List α
  | _, [] => []
  | marked, b :: bs =>
    if b ∈ nodes ∧ b ∉ marked then b :: unmarked nodes (b :: marked) bs
    else unmarked nodes marked bs

theorem unseen_unmarked_le (nodes : List α) :
    ∀ marked bs : List α,
      Walk.unseen (fun _ => 1) ((unmarked nodes marked bs).reverse ++ marked) nodes +
        (unmarked nodes marked bs).length ≤ Walk.unseen (fun _ => 1) marked nodes
  | _, [] => by simp [unmarked]
  | marked, b :: bs => by
    rw [unmarked]
    split
    · rename_i hb
      have ih := unseen_unmarked_le nodes (b :: marked) bs
      have := Walk.unseen_cons_add_le (fun _ => 1) hb.2 nodes hb.1
      simp only [List.reverse_cons, List.append_assoc, List.singleton_append,
        List.length_cons] at ih ⊢
      omega
    · exact unseen_unmarked_le nodes marked bs

/-- Visits the pending nodes one by one, marks what they lead to and puts that on the list. The
answer lists the visited nodes in order. -/
def flood (d : Discipline) (nodes : List α) (next : α → List α) :
    (pending marked : List α) → List α
  | [], _ => []
  | a :: pending, marked =>
    let fresh := unmarked nodes marked (next a)
    a :: flood d nodes next (d.add pending fresh) (fresh.reverse ++ marked)
termination_by pending marked => 2 * Walk.unseen (fun _ => 1) marked nodes + pending.length
decreasing_by
  have := unseen_unmarked_le nodes marked (next a)
  simp only [Discipline.length_add, List.length_cons]
  omega

end EscapeAnalysis
