import EscapeAnalysis.Walk

/-!
# What walks visit

The nodes that a depth-first walk from a root has closed, latest first, are an order in which the
root comes first and every other node has a predecessor in front of it (`Walk.Complete`). A flood
visits what its starting nodes lead to.
-/

namespace EscapeAnalysis

open List

variable {α : Type}

def Before (a b : α) (l : List α) : Prop := ∃ l₁ l₂, l = l₁ ++ a :: l₂ ∧ b ∈ l₂

namespace Before

variable {a b c : α} {l : List α}

theorem cons (h : Before a b l) : Before a b (c :: l) := by
  obtain ⟨l1, l2, rfl, hb⟩ := h
  exact ⟨c :: l1, l2, rfl, hb⟩

theorem head (h : b ∈ l) : Before a b (a :: l) := ⟨[], l, rfl, h⟩

theorem of_cons (h : Before a b (c :: l)) : a = c ∧ b ∈ l ∨ Before a b l := by
  obtain ⟨l1, l2, hl, hb⟩ := h
  rcases l1 with _ | ⟨d, l1⟩ <;> cases hl
  · exact .inl ⟨rfl, hb⟩
  · exact .inr ⟨l1, l2, rfl, hb⟩

theorem left_mem (h : Before a b l) : a ∈ l := by
  obtain ⟨l1, l2, rfl, -⟩ := h
  simp

theorem right_mem (h : Before a b l) : b ∈ l := by
  obtain ⟨l1, l2, rfl, hb⟩ := h
  simp [hb]

theorem idxOf_lt [DecidableEq α] (h : Before a b l) (hnd : l.Nodup) : l.idxOf a < l.idxOf b := by
  obtain ⟨l1, l2, rfl, hb⟩ := h
  rw [nodup_append] at hnd
  obtain ⟨-, hnd2, hdis⟩ := hnd
  have ha : a ∉ l1 := fun h => hdis a h a (by simp) rfl
  have hb1 : b ∉ l1 := fun h => hdis b h b (by simp [hb]) rfl
  have hne : a ≠ b := fun e => (nodup_cons.1 hnd2).1 (e ▸ hb)
  rw [idxOf_append, idxOf_append, if_neg ha, if_neg hb1, idxOf_cons_self,
    idxOf_cons, beq_false_of_ne hne]
  simp

end Before

theorem nodup_eraseDups [BEq α] [LawfulBEq α] : ∀ l : List α, l.eraseDups.Nodup
  | [] => by simp
  | a :: l => by
    rw [eraseDups_cons, nodup_cons]
    exact ⟨fun h => by simpa using mem_eraseDups.1 h, nodup_eraseDups _⟩
termination_by l => l.length
decreasing_by exact Nat.lt_succ_of_le (length_filter_le ..)

variable {nodes : List α} {next : α → List α} {roots : List α}

namespace Walk

variable {stack : List (α × List α)} {w : Walk α} {a b : α} {bs : List α}
  {I : List (α × List α) → Walk α → Prop}

/-- Each node on the stack is led to by the one below it, and the lowest is a root. -/
def Linked (next : α → List α) (roots : List α) : List α → Prop
  | [] => True
  | [a] => a ∈ roots
  | b :: a :: stack => b ∈ next a ∧ Linked next roots (a :: stack)

theorem Linked.tail {l} (h : Linked next roots (a :: l)) : Linked next roots l := by
  cases l with
  | nil => trivial
  | cons c l => exact h.2

theorem Linked.leads : ∀ {l : List α} {a : α}, Linked next roots (a :: l) → ∀ c ∈ l,
    Relation.TransGen (fun a b => b ∈ next a) c a
  | d :: l, a, h, c, hc => by
    rcases mem_cons.1 hc with rfl | hc
    · exact .single h.1
    · exact .tail (h.2.leads c hc) h.1

/-- What holds throughout a walk from some roots: the open nodes are the closed ones and those on
the stack, and no node is both or closed twice. What an open node leads to is closed, or still to be
looked at, or stands above it on the stack, or has been met open. A closed node is a root or has
been reached along an edge, and what it leads to was closed before it, unless a circle was met on
which both lie. -/
structure Underway (nodes : List α) (next : α → List α) (roots : List α)
    (stack : List (α × List α)) (w : Walk α) : Prop where
  opened_iff : ∀ a, a ∈ w.opened ↔ a ∈ w.closed ∨ a ∈ stack.map Prod.fst
  nodup : (w.closed ++ stack.map Prod.fst).Nodup
  known : ∀ a ∈ w.opened, a ∈ roots ∨ a ∈ nodes
  suffix : ∀ e ∈ stack, ∀ b ∈ e.2, b ∈ next e.1
  linked : Linked next roots (stack.map Prod.fst)
  looked : ∀ a ∈ w.opened, ∀ b ∈ next a, b ∈ nodes →
    b ∈ w.closed ∨ (∃ bs, (a, bs) ∈ stack ∧ b ∈ bs) ∨ Before b a (stack.map Prod.fst) ∨
      b ∈ w.opened ∧ w.cyclic = true
  parent : ∀ b ∈ w.closed, b ∈ roots ∨
    ∃ p, b ∈ next p ∧ (p ∈ stack.map Prod.fst ∨ Before p b w.closed)
  back : ∀ a ∈ w.closed, ∀ b ∈ next a, b ∈ nodes → Before a b w.closed ∨
    w.cyclic = true ∧ (b = a ∨ Relation.TransGen (fun a b => b ∈ next a) b a)
  circle : w.cyclic = true → ∃ a ∈ w.opened, Relation.TransGen (fun a b => b ∈ next a) a a

namespace Underway

theorem not_mem_stack (h : Underway nodes next roots ((a, bs) :: stack) w) :
    a ∉ stack.map Prod.fst :=
  (nodup_cons.1 (nodup_append.1 h.nodup).2.1).1

/-- What a node leads to was closed before it, unless it still stood on the stack. -/
theorem back_close (h : Underway nodes next roots ((a, []) :: stack) w) (hb : b ∈ next a)
    (hn : b ∈ nodes) : Before a b (a :: w.closed) ∨
      w.cyclic = true ∧ (b = a ∨ Relation.TransGen (fun a b => b ∈ next a) b a) := by
  rcases h.looked a ((h.opened_iff a).2 (.inr (by simp))) b hb hn with
    hc | ⟨bs, hmem, hbs⟩ | habove | ⟨ho, hcyclic⟩
  · exact .inl (.head hc)
  · rcases mem_cons.1 hmem with heq | hmem
    · cases heq
      cases hbs
    · exact absurd (mem_map.2 ⟨_, hmem, rfl⟩) h.not_mem_stack
  · rcases habove.of_cons with ⟨-, hmem⟩ | habove
    · exact absurd hmem h.not_mem_stack
    · exact absurd habove.right_mem h.not_mem_stack
  · rcases (h.opened_iff b).1 ho with hc | hs
    · exact .inl (.head hc)
    · exact .inr ⟨hcyclic, (mem_cons.1 hs).imp_right (h.linked.leads b)⟩

theorem close (h : Underway nodes next roots ((a, []) :: stack) w) :
    Underway nodes next roots stack { w with closed := a :: w.closed } where
  opened_iff b := by
    rw [h.opened_iff]
    simp only [map_cons, mem_cons]
    grind
  nodup := perm_middle.nodup_iff.1 h.nodup
  known := h.known
  suffix e he := h.suffix e (.tail _ he)
  linked := h.linked.tail
  looked c hc b hb hn := by
    rcases h.looked c hc b hb hn with hb | ⟨bs, hmem, hb⟩ | habove | hmet
    · exact .inl (.tail _ hb)
    · rcases mem_cons.1 hmem with heq | hmem
      · cases heq
        cases hb
      · exact .inr (.inl ⟨bs, hmem, hb⟩)
    · rcases habove.of_cons with ⟨rfl, -⟩ | habove
      · exact .inl (.head _)
      · exact .inr (.inr (.inl habove))
    · exact .inr (.inr (.inr hmet))
  parent b hb := by
    rcases mem_cons.1 hb with rfl | hbc
    · rcases stack with _ | ⟨e, stack⟩
      · exact .inl h.linked
      · exact .inr ⟨e.1, h.linked.1, .inl (by simp)⟩
    · refine (h.parent b hbc).imp_right fun ⟨p, hp, hpos⟩ => ⟨p, hp, ?_⟩
      rcases hpos with hpos | hpos
      · rcases mem_cons.1 hpos with rfl | hpos
        · exact .inr (.head hbc)
        · exact .inl hpos
      · exact .inr hpos.cons
  back c hc b hb hn := by
    rcases mem_cons.1 hc with rfl | hc
    · exact h.back_close hb hn
    · exact (h.back c hc b hb hn).imp_left .cons
  circle := h.circle

theorem suffix_tail (h : Underway nodes next roots ((a, b :: bs) :: stack) w) :
    ∀ e ∈ (a, bs) :: stack, ∀ c ∈ e.2, c ∈ next e.1 := by
  intro e he c hc
  rcases mem_cons.1 he with rfl | he
  · exact h.suffix (a, b :: bs) (by simp) c (.tail _ hc)
  · exact h.suffix e (.tail _ he) c hc

/-- Of the edges still to be looked at, only the one from `a` to `b` is left out when `b` is taken
off the stack. -/
theorem pending_tail {c d} (h : ∃ cs, (c, cs) ∈ (a, b :: bs) :: stack ∧ d ∈ cs) :
    c = a ∧ d = b ∨ ∃ cs, (c, cs) ∈ (a, bs) :: stack ∧ d ∈ cs := by
  obtain ⟨cs, hmem, hd⟩ := h
  rcases mem_cons.1 hmem with heq | hmem
  · cases heq
    exact (mem_cons.1 hd).imp (fun hd => ⟨rfl, hd⟩) fun hd => ⟨bs, by simp, hd⟩
  · exact .inr ⟨cs, .tail _ hmem, hd⟩

theorem circle_of_open (h : Underway nodes next roots ((a, b :: bs) :: stack) w)
    (hb : b ∈ w.opened) (hnc : b ∉ w.closed) :
    ∃ a ∈ w.opened, Relation.TransGen (fun a b => b ∈ next a) a a := by
  have hedge : b ∈ next a := h.suffix (a, b :: bs) (by simp) b (by simp)
  refine ⟨a, (h.opened_iff a).2 (.inr (by simp)), ?_⟩
  rcases mem_cons.1 (((h.opened_iff b).1 hb).resolve_left hnc) with rfl | hmem
  · exact .single hedge
  · exact Relation.TransGen.trans (.single hedge) (h.linked.leads b hmem)

theorem meet [DecidableEq α] (h : Underway nodes next roots ((a, b :: bs) :: stack) w)
    (hb : b ∈ w.opened) : Underway nodes next roots ((a, bs) :: stack)
      { w with cyclic := w.cyclic || b ∉ w.closed } where
  opened_iff := h.opened_iff
  nodup := h.nodup
  known := h.known
  suffix := h.suffix_tail
  linked := h.linked
  looked c hc d hd hn := by
    rcases h.looked c hc d hd hn with hd | hpending | habove | ⟨ho, hcyclic⟩
    · exact .inl hd
    · rcases pending_tail hpending with ⟨-, rfl⟩ | hpending
      · by_cases hclosed : d ∈ w.closed
        · exact .inl hclosed
        · exact .inr (.inr (.inr ⟨hb, by simp [hclosed]⟩))
      · exact .inr (.inl hpending)
    · exact .inr (.inr (.inl habove))
    · exact .inr (.inr (.inr ⟨ho, by simp [hcyclic]⟩))
  parent := h.parent
  back c hc d hd hn := (h.back c hc d hd hn).imp_right fun hr => ⟨by simp [hr.1], hr.2⟩
  circle hc := by
    rw [Bool.or_eq_true, decide_eq_true_eq] at hc
    exact hc.elim h.circle (h.circle_of_open hb)

theorem ignore (h : Underway nodes next roots ((a, b :: bs) :: stack) w) (hb : b ∉ nodes) :
    Underway nodes next roots ((a, bs) :: stack) w where
  opened_iff := h.opened_iff
  nodup := h.nodup
  known := h.known
  suffix := h.suffix_tail
  linked := h.linked
  looked c hc d hd hn := by
    refine (h.looked c hc d hd hn).imp_right (Or.imp_left fun hpending => ?_)
    exact (pending_tail hpending).resolve_left fun he => hb (he.2 ▸ hn)
  parent := h.parent
  back := h.back
  circle := h.circle

theorem enter (h : Underway nodes next roots ((a, b :: bs) :: stack) w) (hb : b ∉ w.opened)
    (hn : b ∈ nodes) : Underway nodes next roots ((b, next b) :: (a, bs) :: stack)
      { w with opened := b :: w.opened } where
  opened_iff c := by
    rw [mem_cons, h.opened_iff]
    simp only [map_cons, mem_cons]
    grind
  nodup := by
    have hb' : b ∉ w.closed ++ ((a, b :: bs) :: stack).map Prod.fst := by
      rwa [mem_append, ← h.opened_iff]
    exact perm_middle.nodup_iff.2 (nodup_cons.2 ⟨hb', h.nodup⟩)
  known c hc := (mem_cons.1 hc).elim (fun heq => .inr (heq ▸ hn)) (h.known c)
  suffix e he := by
    rcases mem_cons.1 he with rfl | he
    · exact fun _ hc => hc
    · exact h.suffix_tail e he
  linked := ⟨h.suffix (a, b :: bs) (by simp) b (by simp), h.linked⟩
  looked c hc d hd hdn := by
    rcases mem_cons.1 hc with rfl | hc
    · exact .inr (.inl ⟨next c, by simp, hd⟩)
    · rcases h.looked c hc d hd hdn with hd | hpending | habove | ⟨ho, hcyclic⟩
      · exact .inl hd
      · rcases pending_tail hpending with ⟨rfl, rfl⟩ | ⟨cs, hmem, hd⟩
        · exact .inr (.inr (.inl (.head (.head _))))
        · exact .inr (.inl ⟨cs, .tail _ hmem, hd⟩)
      · exact .inr (.inr (.inl habove.cons))
      · exact .inr (.inr (.inr ⟨.tail _ ho, hcyclic⟩))
  parent c hc := (h.parent c hc).imp_right fun ⟨p, hp, hpos⟩ =>
    ⟨p, hp, hpos.imp_left (.tail _)⟩
  back := h.back
  circle hc :=
    let ⟨c, hc, hloop⟩ := h.circle hc
    ⟨c, .tail _ hc, hloop⟩

theorem root {r} (hr : r ∈ roots) (h : Underway nodes next roots [] w) (hnew : r ∉ w.opened) :
    Underway nodes next roots [(r, next r)] { w with opened := r :: w.opened } where
  opened_iff a := by
    rw [mem_cons, h.opened_iff]
    simp [or_comm]
  nodup := by
    have hclosed : r ∉ w.closed := fun hc => hnew ((h.opened_iff r).2 (.inl hc))
    exact nodup_append.2
      ⟨by simpa using h.nodup, by simp, fun a ha b hb he => hclosed (by simp_all)⟩
  known a ha := (mem_cons.1 ha).elim (fun heq => .inl (heq ▸ hr)) (h.known a)
  suffix := by simp
  linked := hr
  looked a ha b hb hn := by
    rcases mem_cons.1 ha with rfl | ha
    · exact .inr (.inl ⟨next a, by simp, hb⟩)
    · have ho : b ∈ w.opened := by
        rcases h.looked a ha b hb hn with hc | ⟨_, hmem, -⟩ | habove | hmet
        · exact (h.opened_iff b).2 (.inl hc)
        · cases hmem
        · cases habove.left_mem
        · exact hmet.1
      exact .inl (by simpa using (h.opened_iff b).1 ho)
  parent b hb := (h.parent b hb).imp_right fun ⟨p, hp, hpos⟩ => ⟨p, hp, hpos.imp_left (by simp)⟩
  back := h.back
  circle hc :=
    let ⟨c, hc, hloop⟩ := h.circle hc
    ⟨c, .tail _ hc, hloop⟩

end Underway

/-- What a finished walk from some roots has closed, in which order. -/
structure Complete (nodes : List α) (next : α → List α) (roots : List α) (w : Walk α) : Prop where
  nodup : w.closed.Nodup
  opened_iff : ∀ a, a ∈ w.opened ↔ a ∈ w.closed
  start : ∀ r ∈ roots, r ∈ w.closed
  known : ∀ a ∈ w.closed, a ∈ roots ∨ a ∈ nodes
  back : ∀ a ∈ w.closed, ∀ b ∈ next a, b ∈ nodes → Before a b w.closed ∨
    w.cyclic = true ∧ (b = a ∨ Relation.TransGen (fun a b => b ∈ next a) b a)
  closed_next : ∀ a ∈ w.closed, ∀ b ∈ next a, b ∈ nodes → b ∈ w.closed
  parent : ∀ b ∈ w.closed, b ∈ roots ∨ ∃ p, b ∈ next p ∧ Before p b w.closed
  circle : w.cyclic = true → ∃ a ∈ w.closed, Relation.TransGen (fun a b => b ∈ next a) a a

variable [DecidableEq α]

/-- A property of walks under way that each of their steps keeps. -/
structure Kept (nodes : List α) (next : α → List α) (I : List (α × List α) → Walk α → Prop) :
    Prop where
  close : ∀ {a stack w}, I ((a, []) :: stack) w → I stack { w with closed := a :: w.closed }
  meet : ∀ {a b bs stack w}, I ((a, b :: bs) :: stack) w → b ∈ w.opened →
    I ((a, bs) :: stack) { w with cyclic := w.cyclic || b ∉ w.closed }
  enter : ∀ {a b bs stack w}, I ((a, b :: bs) :: stack) w → b ∉ w.opened → b ∈ nodes →
    I ((b, next b) :: (a, bs) :: stack) { w with opened := b :: w.opened }
  ignore : ∀ {a b bs stack w}, I ((a, b :: bs) :: stack) w → b ∉ nodes → I ((a, bs) :: stack) w

theorem Kept.walk (hk : Kept nodes next I) (h : I stack w) : I [] (walk nodes next stack w) := by
  fun_induction EscapeAnalysis.walk nodes next stack w with
  | case1 w => exact h
  | case2 a stack w ih => exact ih (hk.close h)
  | case3 a b bs stack w hb ih => exact ih (hk.meet h hb)
  | case4 a b bs stack w hb hn ih => exact ih (hk.enter h hb hn)
  | case5 a b bs stack w hb hn ih => exact ih (hk.ignore h hn)

theorem Kept.walkFrom (hk : Kept nodes next I) (h : I [] {})
    (hroot : ∀ r ∈ roots, ∀ w, I [] w → r ∉ w.opened → I [(r, next r)] { w with opened := r ::
      w.opened }) : I [] (walkFrom nodes next roots) := by
  refine foldlRecOn roots _ h fun w hw r hr => ?_
  split
  · exact hw
  · exact hk.walk (hroot r hr w hw ‹_›)

theorem Underway.kept : Kept nodes next (Underway nodes next roots) :=
  ⟨Underway.close, Underway.meet, Underway.enter, Underway.ignore⟩

theorem mem_opened_walkFrom : ∀ r ∈ roots, r ∈ (walkFrom nodes next roots).opened := by
  have hkept : ∀ l : List α, Kept nodes next fun _ w => ∀ a ∈ l, a ∈ w.opened := fun l =>
    ⟨id, fun h _ => h, fun h _ _ a ha => .tail _ (h a ha), fun h _ => h⟩
  suffices h : ∀ (roots : List α) (w : Walk α) (r : α), r ∈ w.opened ∨ r ∈ roots →
      r ∈ (roots.foldl (fun w r => if r ∈ w.opened then w
        else walk nodes next [(r, next r)] { w with opened := r :: w.opened }) w).opened from
    fun r hr => h roots {} r (.inr hr)
  intro roots
  induction roots with
  | nil => exact fun w r hr => hr.resolve_right (by simp)
  | cons q roots ih =>
    intro w r hr
    by_cases hmem : r ∈ roots
    · exact ih _ r (.inr hmem)
    refine ih _ r (.inl ?_)
    have hr : r = q ∨ r ∈ w.opened := by simpa [hmem, or_comm] using hr
    dsimp only
    split
    · rename_i hq
      exact hr.elim (· ▸ hq) id
    · exact (hkept (q :: w.opened)).walk (fun _ => id) r (by simpa using hr)

/-- A walk closes everything that its roots lead to. -/
theorem complete_walkFrom (nodes : List α) (next : α → List α) (roots : List α) :
    (walkFrom nodes next roots).Complete nodes next roots := by
  have h : Underway nodes next roots [] (walkFrom nodes next roots) :=
    Underway.kept.walkFrom
      ⟨by simp, by simp, by simp, by simp, trivial, by simp, by simp, by simp, by simp⟩
      fun r hr w hw hnew => hw.root hr hnew
  have hiff : ∀ a, a ∈ (walkFrom nodes next roots).opened ↔
      a ∈ (walkFrom nodes next roots).closed := by simpa using h.opened_iff
  refine ⟨by simpa using h.nodup, hiff, fun r hr => (hiff r).1 (mem_opened_walkFrom r hr),
    by simpa [hiff] using h.known, h.back, fun a ha b hb hn => ?_, by simpa using h.parent,
    by simpa [hiff] using h.circle⟩
  rcases h.looked a ((hiff a).2 ha) b hb hn with hc | ⟨_, hmem, -⟩ | habove | hmet
  · exact hc
  · cases hmem
  · cases habove.left_mem
  · exact (hiff b).1 hmet.1

namespace Complete

theorem head {root} (h : w.Complete nodes next [root]) : w.closed.head? = some root := by
  have hroot := h.start root (by simp)
  rcases hc : w.closed with _ | ⟨a, l⟩
  · simp [hc] at hroot
  · rcases h.parent a (by simp [hc]) with ha | ⟨p, -, hbefore⟩
    · simpa using ha
    · -- nothing stands in front of the first node
      have := hbefore.idxOf_lt h.nodup
      simp [hc] at this

theorem induction {P : α → Prop} (h : w.Complete nodes next roots) (hroots : ∀ a ∈ roots, P a)
    (hnext : ∀ a b, P a → b ∈ next a → b ∈ nodes → P b) : ∀ a ∈ w.closed, P a := by
  intro a ha
  induction hi : w.closed.idxOf a using Nat.strongRecOn generalizing a with
  | ind i ih =>
    rcases h.known a ha with hr | hn
    · exact hroots a hr
    rcases h.parent a ha with hr | ⟨p, hp, hbefore⟩
    · exact hroots a hr
    · exact hnext p a (ih _ (hi ▸ hbefore.idxOf_lt h.nodup) p hbefore.left_mem rfl) hp hn

end Complete

end Walk

variable [DecidableEq α]

theorem mem_unmarked {b} : ∀ {marked bs : List α},
    b ∈ unmarked nodes marked bs ↔ b ∈ bs ∧ b ∈ nodes ∧ b ∉ marked
  | _, [] => by simp [unmarked]
  | marked, c :: bs => by
    rw [unmarked]
    by_cases hbc : b = c <;> split <;> simp_all [mem_unmarked]

theorem Discipline.mem_add {β : Type} (d : Discipline) {pending fresh} {b : β} :
    b ∈ d.add pending fresh ↔ b ∈ pending ∨ b ∈ fresh := by
  cases d <;> simp [add, or_comm]

/-- A flood visits the pending nodes and what the visited ones lead to, but for nodes that were
marked before. -/
theorem mem_flood (d : Discipline) (nodes : List α) (next : α → List α) (pending marked : List α) :
    (∀ a ∈ pending, a ∈ flood d nodes next pending marked) ∧
      ∀ a ∈ flood d nodes next pending marked, ∀ b ∈ next a, b ∈ nodes →
        b ∈ marked ∨ b ∈ flood d nodes next pending marked := by
  fun_induction flood d nodes next pending marked with
  | case1 => simp
  | case2 a pending marked fresh ih =>
    obtain ⟨hpending, hnext⟩ := ih
    have hfresh : ∀ b ∈ fresh,
        b ∈ flood d nodes next (d.add pending fresh) (fresh.reverse ++ marked) :=
      fun b hb => hpending b (d.mem_add.2 (.inr hb))
    refine ⟨fun b hb => ?_, fun c hc b hb hn => ?_⟩
    · rcases mem_cons.1 hb with rfl | hb
      · simp
      · exact .tail _ (hpending b (d.mem_add.2 (.inl hb)))
    · rcases mem_cons.1 hc with rfl | hc
      · by_cases hm : b ∈ marked
        · exact .inl hm
        · exact .inr (.tail _ (hfresh b (mem_unmarked.2 ⟨hb, hn, hm⟩)))
      · rcases hnext c hc b hb hn with h | h
        · rcases mem_append.1 h with h | h
          · exact .inr (.tail _ (hfresh b (by simpa using h)))
          · exact .inl h
        · exact .inr (.tail _ h)

theorem flood_induction (d : Discipline) {P : α → Prop}
    (hnext : ∀ a b, P a → b ∈ next a → b ∈ nodes → P b) (pending marked : List α)
    (hp : ∀ a ∈ pending, P a) : ∀ a ∈ flood d nodes next pending marked, P a := by
  fun_induction flood d nodes next pending marked with
  | case1 => simp
  | case2 a pending marked fresh ih =>
    have hrest : ∀ b ∈ d.add pending fresh, P b := by
      intro b hb
      rcases d.mem_add.1 hb with hb | hb
      · exact hp b (.tail _ hb)
      · obtain ⟨h1, h2, -⟩ := mem_unmarked.1 hb
        exact hnext a b (hp a (by simp)) h1 h2
    intro b hb
    rcases mem_cons.1 hb with rfl | hb
    · exact hp b (by simp)
    · exact ih hrest b hb

theorem flood_mono (d : Discipline) {nodes' next' start start'} (hnodes : ∀ a ∈ nodes, a ∈ nodes')
    (hnext : ∀ a, ∀ b ∈ next a, b ∈ next' a) (hstart : ∀ a ∈ start, a ∈ start') :
    ∀ a ∈ flood d nodes next start start, a ∈ flood d nodes' next' start' start' := by
  obtain ⟨hfirst, hthen⟩ := mem_flood d nodes' next' start' start'
  refine flood_induction d (fun a b ha hb hn => ?_) _ _ fun a ha => hfirst a (hstart a ha)
  rcases hthen a ha b (hnext a b hb) (hnodes b hn) with hm | hm
  · exact hfirst b hm
  · exact hm

/-- A flood visits no node that was marked before, but for its starting points. -/
theorem not_mem_marked_of_mem_flood (d : Discipline) (nodes : List α) (next : α → List α)
    (pending marked : List α) :
    ∀ a ∈ flood d nodes next pending marked, a ∈ pending ∨ a ∉ marked := by
  fun_induction flood d nodes next pending marked with
  | case1 => simp
  | case2 a pending marked fresh ih =>
    intro b hb
    rcases mem_cons.1 hb with rfl | hb
    · exact .inl (by simp)
    rcases ih b hb with h | h
    · rcases d.mem_add.1 h with h | h
      · exact .inl (.tail _ h)
      · exact .inr (mem_unmarked.1 h).2.2
    · exact .inr fun hm => h (mem_append_right _ hm)

theorem nodup_unmarked (nodes : List α) : ∀ marked bs : List α, (unmarked nodes marked bs).Nodup
  | _, [] => by simp [unmarked]
  | marked, b :: bs => by
    rw [unmarked]
    split
    · refine nodup_cons.2 ⟨fun h => ?_, nodup_unmarked nodes _ bs⟩
      exact (mem_unmarked.1 h).2.2 (.head _)
    · exact nodup_unmarked nodes marked bs

theorem nodup_flood (d : Discipline) (nodes : List α) (next : α → List α) (pending marked : List α)
    (hnd : pending.Nodup) (hmarked : ∀ a ∈ pending, a ∈ marked) :
    (flood d nodes next pending marked).Nodup := by
  fun_induction flood d nodes next pending marked with
  | case1 => exact nodup_nil
  | case2 a pending marked fresh ih =>
    have hfresh : ∀ b ∈ fresh, b ∉ marked := fun b hb => (mem_unmarked.1 hb).2.2
    obtain ⟨ha, hnd⟩ := nodup_cons.1 hnd
    refine nodup_cons.2 ⟨fun h => ?_, ih ?_ fun b hb => ?_⟩
    · rcases not_mem_marked_of_mem_flood d nodes next _ _ a h with h | h
      · rcases d.mem_add.1 h with h | h
        · exact ha h
        · exact hfresh a h (hmarked a (.head _))
      · exact h (mem_append_right _ (hmarked a (.head _)))
    · have hdis : ∀ b ∈ pending, b ∉ fresh := fun b hb hb' =>
        hfresh b hb' (hmarked b (.tail _ hb))
      cases d with
      | oldestFirst =>
        exact nodup_append.2 ⟨hnd, nodup_unmarked .., fun b hb c hc he => hdis b hb (he ▸ hc)⟩
      | newestFirst =>
        exact nodup_append.2 ⟨(reverse_perm _).nodup_iff.2 (nodup_unmarked ..), hnd,
          fun b hb c hc he => hdis c hc (he ▸ mem_reverse.1 hb)⟩
    · rcases d.mem_add.1 hb with hb | hb
      · exact mem_append_right _ (hmarked b (.tail _ hb))
      · exact mem_append_left _ (mem_reverse.2 hb)

end EscapeAnalysis
