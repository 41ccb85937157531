import EscapeAnalysis.Merge.Reduce
import EscapeAnalysis.Proofs.Splitting

/-!
# Taking merges apart

A reduction replaces the users of a merge one by one and then lets the debug states name the
leaves. The invariant says what has taken the place of each user, and that every state is the
original one with the merges that are gone replaced in its locals and monitors.
-/

namespace EscapeAnalysis

open List Body DebugState

namespace DebugValue

variable {x : InstId} {v : DebugValue}

/-- Puts the debug values of a table in place of the instructions they stand for. -/
def swap (table : List (InstId × DebugValue)) : DebugValue → DebugValue
  | .value x => (table.lookup x).getD (.value x)
  | v => v

theorem swap_nil (v : DebugValue) : v.swap [] = v := by cases v <;> rfl

theorem swap_append (table : List (InstId × DebugValue)) {w}
    (ht : ∀ e ∈ table, e.2.isValueOf x = false) (v : DebugValue) :
    v.swap (table ++ [(x, w)]) = if (v.swap table).isValueOf x then w else v.swap table := by
  cases v with
  | value y =>
    simp only [swap, lookup_append]
    rcases Option.eq_none_or_eq_some (table.lookup y) with hy | ⟨u, hy⟩
    · by_cases hyx : y = x
      · subst hyx
        simp [hy, isValueOf]
      · simp [hy, isValueOf, lookup_cons, beq_false_of_ne hyx, hyx]
    · have := ht (y, u) (mem_of_lookup hy)
      simp_all
  | _ => simp [swap, isValueOf]

theorem eq_of_isValueOf_swap {table} (ht : ∀ e ∈ table, e.2.isValueOf x = false)
    (h : (v.swap table).isValueOf x = true) : v = .value x := by
  cases v with
  | value y =>
    rcases Option.eq_none_or_eq_some (table.lookup y) with hy | ⟨u, hy⟩
    · simpa [swap, hy, isValueOf] using h
    · have := ht (y, u) (mem_of_lookup hy)
      simp_all [swap]
  | _ => cases h

theorem isValueOf_iff : v.isValueOf x = true ↔ v = .value x := by
  cases v <;> simp [isValueOf]

end DebugValue

namespace DebugState

theorem mapTop_mapTop (s : DebugState) (f g : DebugValue → DebugValue) :
    (s.mapTop f).mapTop g = s.mapTop (g ∘ f) := by
  simp [mapTop, Function.comp_def]

theorem mapTop_congr {s : DebugState} {f g}
    (h : ∀ v ∈ s.locals ++ s.monitors.map MonitorSlot.obj, f v = g v) :
    s.mapTop f = s.mapTop g := by
  simp only [mapTop]
  congr 1
  · exact map_congr_left fun v hv => h v (mem_append_left _ hv)
  · refine map_congr_left fun m hm => ?_
    rw [h m.obj (mem_append_right _ (mem_map_of_mem hm))]

theorem mem_insts_of_top {s : DebugState} {x}
    (h : .value x ∈ s.locals ++ s.monitors.map MonitorSlot.obj) : x ∈ s.insts :=
  mem_flatMap.2 ⟨.value x, mem_append_left _ h, by simp [DebugValue.insts]⟩

end DebugState

namespace SlotTable

variable {f : Family} {α : Type} {g : α → α}

theorem get?_foldl_modify (hg : ∀ a, g (g a) = g a) (k : Key f) :
    ∀ (l : List (Key f)) (t : SlotTable f α),
      (l.foldl (fun t j => t.modify j g) t).get? k =
        if k ∈ l then (t.get? k).map g else t.get? k
  | [], t => by simp
  | j :: l, t => by
    rw [foldl_cons, get?_foldl_modify hg k l, get?_modify]
    by_cases hkj : k = j <;> by_cases hkl : k ∈ l <;>
      simp [hkj, hkl, Function.comp_def, hg]

theorem WellFormed.foldl_modify : ∀ (l : List (Key f)) {t : SlotTable f α}, t.WellFormed →
    (l.foldl (fun t j => t.modify j g) t).WellFormed
  | [], _, h => h
  | j :: l, _, h => foldl_modify l (h.modify j g)

end SlotTable

theorem Body.foldl_modifyState (g : DebugState → DebugState) :
    ∀ (l : List SafepointId) (body : Body), l.foldl (fun body s => body.modifyState s g) body =
      { body with states := l.foldl (fun t s => t.modify s g) body.states }
  | [], _ => rfl
  | s :: l, body => by
    rw [foldl_cons, foldl_modifyState g l]
    rfl

theorem Op.eq_barrier_of_mapOperands {r} {op : Op} {store} (h : op.mapOperands r = .barrier store) :
    op = .barrier store := by
  cases op <;> simp_all [Op.mapOperands]

theorem Op.isPhi_mapOperands (r : InstId → InstId) (op : Op) :
    (op.mapOperands r).isPhi = op.isPhi := by
  cases op <;> rfl

namespace Reduction

variable {p : Program} {body : Body} {g : Graph} {a : MergeAnalysis} {replaced : Nat → Bool}
  {gone : List InstId} {cands : List InstId} {web : Web} {phi user u x y X : InstId}
  {r r' : Reduction} {extra extra' : BlockId → List InstId}
  {table table' : List (InstId × DebugValue)} {s s' : Splitter}

/-- What has taken the place of a user of a merge. -/
inductive Replaced (p : Program) (body : Body) (m : Merges) (gone : List InstId) (s : Splitter)
    (u X : InstId) : Prop
  | field (phi : InstId) (f : FieldId) (hphi : phi ∈ gone)
      (hop : body.op? u = some (.loadField phi f)) (h : ((phi, .field f), X) ∈ s.parts)
  | isNull (phi lhs rhs : InstId) (hphi : phi ∈ gone)
      (hop : body.op? u = some (.refEq lhs rhs)) (hmem : phi = lhs ∨ phi = rhs)
      (h : ((phi, .isNull), X) ∈ s.parts)
  | cls (phi : InstId) (cls : ClassId) (hphi : phi ∈ gone)
      (hop : body.op? u = some (.loadClass phi)) (hsh : (m.desc phi).shapes = .exact cls)
      (h : (.cls cls, X) ∈ s.consts)
  | instanceOf (phi : InstId) (exact cls : ClassId) (hphi : phi ∈ gone)
      (hop : body.op? u = some (.instanceOf phi cls))
      (hsh : (m.desc phi).shapes = .exact exact)
      (h : (.int (if p.isSubclass exact cls then 1 else 0), X) ∈ s.consts)

namespace Replaced

variable {m : Merges}

variable (h : Replaced p body m gone s u X)
include h

theorem mono (hp : s.parts ⊆ s'.parts)
    (hc : s.consts ⊆ s'.consts) : Replaced p body m gone s' u X := by
  cases h with
  | field phi f hphi hop h => exact .field phi f hphi hop (hp h)
  | isNull phi lhs rhs hphi hop hmem h => exact .isNull phi lhs rhs hphi hop hmem (hp h)
  | cls phi cls hphi hop hsh h => exact .cls phi cls hphi hop hsh (hc h)
  | instanceOf phi exact cls hphi hop hsh h =>
    exact .instanceOf phi exact cls hphi hop hsh (hc h)

theorem exists_op :
    ∃ op, body.op? u = some op ∧ op.isPhi = false ∧ op.isAlloc = false ∧ op.isRefStore = false ∧
      op.isCall = false := by
  cases h with
  | field phi f hphi hop h => exact ⟨_, hop, rfl, rfl, rfl, rfl⟩
  | isNull phi lhs rhs hphi hop hmem h => exact ⟨_, hop, rfl, rfl, rfl, rfl⟩
  | cls phi cls hphi hop hsh h => exact ⟨_, hop, rfl, rfl, rfl, rfl⟩
  | instanceOf phi exact cls hphi hop hsh h => exact ⟨_, hop, rfl, rfl, rfl, rfl⟩

theorem fresh (hb : s.Built p body g m replaced gone extra) :
    body.insts.get? X = none := by
  cases h with
  | field phi f hphi hop h => exact (hb.parts _ h).1
  | isNull phi lhs rhs hphi hop hmem h => exact (hb.parts _ h).1
  | cls phi cls hphi hop hsh h => exact (hb.consts _ h).1
  | instanceOf phi exact cls hphi hop hsh h => exact (hb.consts _ h).1

end Replaced

/-- What debug states say in place of a merge. -/
def standIn (m : Merges) (replaced : Nat → Bool) (phi selector other : InstId) : DebugValue :=
  .merge selector other ((m.desc phi).leaves.map fun
    | .alloc n x => if replaced n then .value x else .const .null
    | .null => .const .null)

/-- The merges of `gone` can be taken apart in a body that passes the check. -/
structure Separable (p : Program) (body : Body) (g : Graph) (m : Merges)
    (cands gone : List InstId) : Prop where
  wf : body.WellFormed
  issued : body.Issued
  checked : body.Checked
  faithful : m.Faithful body g cands
  apart : Merges.Apart p body g m gone

section Uses

variable (H : Separable p body g a.merges cands gone)
  (hweb : MergeAnalysis.Settled (.ofBody p body g) a.merges web) (hsub : web.phis ⊆ gone)

include H hweb hsub

theorem makes_part (hphi : phi ∈ web.phis) {part} (hw : Splitter.Wanted p g a.merges phi part) :
    Splitter.Makes p body g a.merges replaced gone (Reduction.part p a replaced web part phi)
      fun s _ x => ((phi, part), x) ∈ s.parts := by
  refine Splitter.makes_part H.checked H.faithful H.apart _
    (fun q hq => hsub (mem_reverse.1 hq)) ?_ part phi (mem_reverse.2 hphi) hw
  intro l1 q l2 hl child hchild
  have hphis : web.phis = l2.reverse ++ q :: l1.reverse := by
    rw [← reverse_reverse web.phis, hl]
    simp
  have hnd : (l2.reverse ++ q :: l1.reverse).Nodup := hphis ▸ hweb.nodup
  have hbefore := hweb.sorted q (by simp [hphis]) child hchild
  rw [hphis] at hbefore
  simpa using (Merges.mem_left_of_before hnd hbefore).1

theorem makes_valueFor (hphi : phi ∈ web.phis) (hu : body.uses.Lists phi (.inst user))
    (hs : s.Built p body g a.merges replaced gone extra) {make}
    (h : valueFor p a replaced web phi user s.body = .ok (some make)) :
    Splitter.Makes p body g a.merges replaced gone make
      fun s _ X => Replaced p body a.merges gone s user X := by
  obtain ⟨inst, hinst⟩ :=
    live_of_mem_phis (H.faithful.described phi (hweb.keys phi hphi)).mem_phis
  obtain ⟨-, op, hop, hmem⟩ := (lists_uses_iff H.wf H.issued hinst).1 hu
  have hgone := hsub hphi
  simp only [valueFor, hs.op?_old hop] at h
  split at h
  · cases h
  · rename_i obj f heq
    cases heq
    cases h
    obtain rfl := mem_singleton.1 hmem
    have hw : Splitter.Wanted p g a.merges phi (.field f) := by
      rintro f' ⟨⟩
      exact (H.apart.reducible phi hgone).field user phi f hu hop
    intro s extra hs
    obtain ⟨extra', h', hg', hX⟩ := makes_part H hweb hsub hphi hw s extra hs
    exact ⟨extra', h', hg', .field phi f hgone hop hX⟩
  · rename_i lhs rhs heq
    cases heq
    cases h
    have hw : Splitter.Wanted p g a.merges phi .isNull := by rintro f' ⟨⟩
    intro s extra hs
    obtain ⟨extra', h', hg', hX⟩ := makes_part H hweb hsub hphi hw s extra hs
    exact ⟨extra', h', hg', .isNull phi lhs rhs hgone hop (by simpa [Op.operands] using hmem) hX⟩
  · rename_i heq
    cases heq
    split at h
    · rename_i cls hsh
      cases h
      obtain rfl := mem_singleton.1 hmem
      intro s extra hs
      obtain ⟨h', hg', hX⟩ := hs.constant H.checked (.cls cls)
      exact ⟨extra, h', hg', .cls phi cls hgone hop hsh hX⟩
    · cases h
  · rename_i heq
    cases heq
    split at h
    · rename_i exact hsh
      cases h
      obtain rfl := mem_singleton.1 hmem
      intro s extra hs
      obtain ⟨h', hg', hX⟩ := hs.constant H.checked _
      exact ⟨extra, h', hg', .instanceOf phi exact _ hgone hop hsh hX⟩
    · cases h
  · cases h

end Uses

theorem valueFor_ne_none {op} (hop : s.body.op? user = some op) (hphi : op.isPhi = false) :
    valueFor p a replaced web phi user s.body ≠ .ok none := by
  intro h
  simp only [valueFor, hop] at h
  split at h
  · cases ‹some op = _›
    cases hphi
  · cases h
  · cases h
  · split at h <;> cases h
  · split at h <;> cases h
  · cases h

structure Done (body : Body) (table : List (InstId × DebugValue)) (r : Reduction) (phi : InstId) :
    Prop where
  users : ∀ user op, body.uses.Lists phi (.inst user) → body.op? user = some op →
    op.isPhi = false → ∃ X, r.replace.get? user = some X
  states : ∀ sp state, body.states.get? sp = some state → phi ∈ state.insts →
    ∃ v, table.lookup phi = some v

/-- What holds while merges are taken apart. -/
structure Reducing (p : Program) (body : Body) (g : Graph) (m : Merges) (replaced : Nat → Bool)
    (gone : List InstId) (extra : BlockId → List InstId) (table : List (InstId × DebugValue))
    (r : Reduction) : Prop where
  built : r.splitter.Built p body g m replaced gone extra
  states : ∀ sp, r.splitter.body.states.get? sp =
    (body.states.get? sp).map (mapTop (DebugValue.swap table))
  swapped : ∀ e ∈ table, e.1 ∈ gone ∧ ∃ X Y, ((e.1, .selector 0), X) ∈ r.splitter.parts ∧
    ((e.1, .kept), Y) ∈ r.splitter.parts ∧ e.2 = standIn m replaced e.1 X Y
  replace : ∀ u X, r.replace.get? u = some X → Replaced p body m gone r.splitter u X
  size : ∀ u X, r.replace.get? u = some X → 0 < r.replace.size
  dead : ∀ u, u ∈ r.dead ↔ u ∈ r.reduced ∨ ∃ X, r.replace.get? u = some X
  done : ∀ phi ∈ r.reduced, Done body table r phi

/-- Replacing users keeps what has been replaced. -/
structure Later (r r' : Reduction) : Prop where
  reduced : r'.reduced = r.reduced
  registry : r'.registry = r.registry
  replace : ∀ u X, r.replace.get? u = some X → ∃ X', r'.replace.get? u = some X'

theorem Later.refl (r : Reduction) : Later r r := ⟨rfl, rfl, fun _ X h => ⟨X, h⟩⟩

theorem Later.trans {r1 r2 r3} (h : Later r1 r2) (h' : Later r2 r3) : Later r1 r3 :=
  ⟨h'.reduced.trans h.reduced, h'.registry.trans h.registry, fun u X hu =>
    let ⟨X', hX'⟩ := h.replace u X hu
    h'.replace u X' hX'⟩

theorem Done.later (h : Done body table r phi) (hl : Later r r') : Done body table r' phi :=
  ⟨fun user op hu hop hphi =>
    let ⟨X, hX⟩ := h.users user op hu hop hphi
    hl.replace user X hX, h.states⟩

/-- The merges `phis` have been taken apart. -/
def Taken (p : Program) (body : Body) (g : Graph) (m : Merges) (replaced : Nat → Bool)
    (gone phis : List InstId) (r : Reduction) : Prop :=
  ∃ extra table, Reducing p body g m replaced gone extra table r ∧ r.reduced = phis

/-- What taking a merge apart keeps, taking webs apart keeps. -/
theorem meets_reduceWebs {P : List InstId → Reduction → Prop} {webs : List Web} {uses : Uses}
    (step : ∀ web ∈ webs, ∀ phi ∈ web.phis, ∀ phis r, P phis r →
      Except.Answers (P (phis ++ [phi])) (reducePhi p a replaced uses web r phi))
    (hreg : ∀ phis r registry, P phis r → P phis { r with registry }) (h : P [] r) :
    Except.Answers (P (webs.flatMap Web.phis))
      (webs.foldlM (reduceWeb p a replaced uses) r) := by
  refine Except.Meets.foldlM_done (P := fun done r => P (done.flatMap Web.phis) r) (d := [])
    (fun web hw done r hr => ?_) h
  rw [reduceWeb, flatMap_append, flatMap_singleton]
  split
  · trivial
  refine (Except.Meets.any _).bind fun registry _ => ?_
  exact Except.Meets.bind (Except.Meets.mapError (E := fun _ => True) (Except.Meets.foldlM_done
    (step web hw) (hreg _ _ registry hr)) fun _ => id) fun r' hr' => hreg _ _ _ hr'

namespace Reducing

theorem start (p : Program) (g : Graph) (m : Merges) (replaced : Nat → Bool) (gone : List InstId)
    (registry : Registry) (hwf : body.WellFormed) (hc : body.Checked) :
    Reducing p body g m replaced gone (fun _ => []) []
      { splitter := { body }, registry } where
  built := .start p g m replaced gone hwf hc
  states sp := by
    have hid : mapTop (DebugValue.swap []) = id := by
      funext state
      simp [mapTop, funext DebugValue.swap_nil]
    simp [hid]
  swapped := by simp
  replace u X h := by cases h
  size u X h := by cases h
  dead u := by simp [show (KeyMap.get? {} u : Option InstId) = none from rfl]
  done := by simp

section Steps

variable (H : Separable p body g a.merges cands gone)
  (hweb : MergeAnalysis.Settled (.ofBody p body g) a.merges web) (hsub : web.phis ⊆ gone)
  (hphi : phi ∈ web.phis)

include H hweb hsub hphi

section

variable (h : Reducing p body g a.merges replaced gone extra table r)
include h

theorem replaceUse {use} (hu : body.uses.Lists phi use) : Except.Answers (fun r' =>
      (∃ extra', Reducing p body g a.merges replaced gone extra' table r') ∧ Later r r' ∧
        ∀ user op, use = .inst user → body.op? user = some op → op.isPhi = false →
          ∃ X, r'.replace.get? user = some X) (replaceUse p a replaced web phi r use) := by
  cases use with
  | term b => exact ⟨⟨extra, h⟩, .refl r, by simp⟩
  | debug sp => exact ⟨⟨extra, h⟩, .refl r, by simp⟩
  | inst user =>
    refine (Except.Meets.self _).bind fun value? hvalue => ?_
    cases value? with
    | none =>
      refine ⟨⟨extra, h⟩, .refl r, fun user op heq hop hphi => ?_⟩
      cases heq
      exact absurd hvalue (valueFor_ne_none (h.built.op?_old hop) hphi)
    | some make =>
      obtain ⟨extra', h', hg, hX⟩ :=
        makes_valueFor H hweb hsub hphi hu h.built hvalue _ _ h.built
      have hget : ∀ u, (r.replace.insert user (make r.splitter).1).get? u =
          if u = user then some (make r.splitter).1 else r.replace.get? u := fun u =>
        KeyMap.get?_insert _ _ _ _
      have hkept : ∀ u X, r.replace.get? u = some X →
          ∃ X', (r.replace.insert user (make r.splitter).1).get? u = some X' := by
        intro u X hu
        rw [hget]
        split
        · exact ⟨_, rfl⟩
        · exact ⟨X, hu⟩
      refine ⟨⟨extra', ?_⟩, ⟨rfl, rfl, hkept⟩, ?_⟩
      · refine ⟨h', fun sp => ?_, fun e he => ?_, fun u X hu => ?_, fun _ _ _ => Nat.succ_pos _,
          fun u => ?_, fun q hq => (h.done q hq).later ⟨rfl, rfl, hkept⟩⟩
        · rw [← h.states sp]
          exact congrArg (SlotTable.get? · sp) hg.states
        · obtain ⟨hred, X, Y, hX, hY, hv⟩ := h.swapped e he
          exact ⟨hred, X, Y, hg.parts hX, hg.parts hY, hv⟩
        · replace hu := (hget u).symm.trans hu
          split at hu
          · rename_i hu'
            cases hu
            exact hu' ▸ hX
          · exact (h.replace u X hu).mono hg.parts hg.consts
        · change u ∈ user :: r.dead ↔ u ∈ r.reduced ∨
            ∃ X, (r.replace.insert user (make r.splitter).1).get? u = some X
          rw [hget, mem_cons, h.dead]
          by_cases hu : u = user <;> simp [hu]
      · rintro user' op ⟨⟩ - -
        exact ⟨_, (hget user).trans (if_pos rfl)⟩

theorem replaceUses (users : List Use)
    (hu : ∀ use ∈ users, body.uses.Lists phi use) : Except.Answers (fun r' =>
      (∃ extra', Reducing p body g a.merges replaced gone extra' table r') ∧ Later r r' ∧
        ∀ user op, .inst user ∈ users → body.op? user = some op → op.isPhi = false →
          ∃ X, r'.replace.get? user = some X)
      (users.foldlM (Reduction.replaceUse p a replaced web phi) r) := by
  refine Except.Meets.foldlM_done (P := fun done r' =>
    (∃ extra', Reducing p body g a.merges replaced gone extra' table r') ∧ Later r r' ∧
      ∀ user op, Use.inst user ∈ done → body.op? user = some op → op.isPhi = false →
        ∃ X, r'.replace.get? user = some X) (d := []) ?_ ⟨⟨extra, h⟩, .refl r, by simp⟩
  rintro use huse done r1 ⟨⟨extra1, h1⟩, hl1, husers⟩
  refine (h1.replaceUse H hweb hsub hphi (hu use huse)).mono (fun _ => id) ?_
  rintro r2 ⟨hr2, hl2, huse⟩
  refine ⟨hr2, hl1.trans hl2, fun user op hmem hop hnphi => ?_⟩
  rcases mem_append.1 hmem with hmem | hmem
  · obtain ⟨X, hX⟩ := husers user op hmem hop hnphi
    exact hl2.replace user X hX
  · exact huse user op (mem_singleton.1 hmem).symm hop hnphi

end

theorem makes_debugValue : Splitter.Makes p body g a.merges replaced gone
    (debugValue p a replaced web phi) fun s _ v => ∃ X Y, ((phi, .selector 0), X) ∈ s.parts ∧
      ((phi, .kept), Y) ∈ s.parts ∧ v = standIn a.merges replaced phi X Y := by
  intro s extra h
  obtain ⟨extra1, h1, hg1, hX⟩ :=
    makes_part H hweb hsub hphi (show Splitter.Wanted p g a.merges phi (.selector 0) by
      rintro f ⟨⟩) s extra h
  obtain ⟨extra2, h2, hg2, hY⟩ :=
    makes_part H hweb hsub hphi (show Splitter.Wanted p g a.merges phi .kept by
      rintro f ⟨⟩) _ extra1 h1
  exact ⟨extra2, h2, hg1.trans hg2, _, _, hg2.parts hX, hY, rfl⟩

theorem replaceInStates {states : List SafepointId}
    (h : Reducing p body g a.merges replaced gone extra table r)
    (hst : ∀ sp state, body.states.get? sp = some state → phi ∈ state.insts → sp ∈ states) :
    ∃ extra' table', Reducing p body g a.merges replaced gone extra' table'
        (Reduction.replaceInStates p a replaced web phi states r) ∧
      Later r (Reduction.replaceInStates p a replaced web phi states r) ∧
      ∀ sp state, body.states.get? sp = some state → phi ∈ state.insts →
        ∃ v, table'.lookup phi = some v := by
  rw [Reduction.replaceInStates]
  split
  · rename_i hempty
    refine ⟨extra, table, h, .refl r, fun sp state hsp hmem => ?_⟩
    rw [isEmpty_iff.1 hempty] at hst
    cases hst sp state hsp hmem
  · obtain ⟨extra', h', hg, X, Y, hX, hY, hv⟩ :=
      makes_debugValue H hweb hsub hphi _ _ h.built
    dsimp only [StateT.run]
    generalize hr1 : debugValue p a replaced web phi r.splitter = r1 at h' hg hX hY hv ⊢
    obtain ⟨v, s1⟩ := r1
    dsimp only at h' hg hX hY hv ⊢
    rw [foldl_modifyState]
    have hnot : v.isValueOf phi = false := by simp [hv, standIn, DebugValue.isValueOf]
    have htable : ∀ e ∈ table, e.2.isValueOf phi = false := by
      intro e he
      obtain ⟨-, X, Y, -, -, hv⟩ := h.swapped e he
      simp [hv, standIn, DebugValue.isValueOf]
    have hidem : ∀ state : DebugState,
        (state.mapTop fun w => if w.isValueOf phi then v else w).mapTop
          (fun w => if w.isValueOf phi then v else w) =
        state.mapTop fun w => if w.isValueOf phi then v else w := by
      intro state
      rw [mapTop_mapTop]
      refine mapTop_congr fun w _ => ?_
      by_cases hw : w.isValueOf phi = true <;> simp [hw, hnot]
    refine ⟨extra', table ++ [(phi, v)], ?_, ?_, ?_⟩
    · refine ⟨h'.setStates (.foldl_modify _ h'.wf.states), fun sp => ?_, fun e he => ?_,
        fun u X hu => ?_, h.size, h.dead, fun q hq => ?_⟩
      · refine (SlotTable.get?_foldl_modify hidem sp _ _).trans ?_
        rw [hg.states, h.states sp]
        cases hsp : body.states.get? sp with
        | none => simp
        | some state =>
          simp only [Option.map_some, mapTop_mapTop, ← apply_ite, Option.some.injEq]
          split
          · exact mapTop_congr fun w _ => (DebugValue.swap_append table htable w).symm
          · rename_i hnsp
            refine mapTop_congr fun w hw => ?_
            rw [DebugValue.swap_append table htable, if_neg]
            intro hval
            obtain rfl := DebugValue.eq_of_isValueOf_swap htable hval
            exact hnsp (hst sp state hsp (mem_insts_of_top hw))
      · rcases mem_append.1 he with he | he
        · obtain ⟨hgone, X, Y, hX, hY, hv⟩ := h.swapped e he
          exact ⟨hgone, X, Y, hg.parts hX, hg.parts hY, hv⟩
        · obtain rfl := mem_singleton.1 he
          exact ⟨hsub hphi, X, Y, hX, hY, hv⟩
      · exact (h.replace u X hu).mono hg.parts hg.consts
      · refine ⟨(h.done q hq).users, fun sp state hsp hmem => ?_⟩
        obtain ⟨w, hw⟩ := (h.done q hq).states sp state hsp hmem
        exact ⟨w, by simp [lookup_append, hw]⟩
    · exact ⟨rfl, rfl, fun u X hu => ⟨X, hu⟩⟩
    · intro sp state hsp hmem
      rw [lookup_append]
      cases table.lookup phi with
      | some w => exact ⟨w, rfl⟩
      | none => exact ⟨v, by simp⟩

theorem reducePhi {phis} (h : Taken p body g a.merges replaced gone phis r) :
    Except.Answers (Taken p body g a.merges replaced gone (phis ++ [phi]))
      (Reduction.reducePhi p a replaced body.uses web r phi) := by
  obtain ⟨extra, table, h, rfl⟩ := h
  obtain ⟨inst, hinst⟩ :=
    live_of_mem_phis (H.faithful.described phi (hweb.keys phi hphi)).mem_phis
  refine (h.replaceUses H hweb hsub hphi _ fun _ => id).bind fun r1 hr1 => ?_
  obtain ⟨⟨extra1, h1⟩, hl1, husers⟩ := hr1
  have hst : ∀ sp state, body.states.get? sp = some state → phi ∈ state.insts →
      sp ∈ ((body.uses.get? phi).getD []).filterMap debugState? := fun sp state hsp hmem =>
    mem_filterMap.2 ⟨.debug sp,
      (lists_uses_iff H.wf H.issued hinst).2 ⟨state, hsp, hmem⟩, rfl⟩
  obtain ⟨extra2, table', h2, hl2, hstates⟩ :=
    h1.replaceInStates H hweb hsub hphi hst
  dsimp only
  generalize Reduction.replaceInStates p a replaced web phi _ r1 = r2 at h2 hl2 ⊢
  have hdone : Done body table' r2 phi := by
    refine ⟨fun user op hu hop hnphi => ?_, hstates⟩
    obtain ⟨X, hX⟩ := husers user op hu hop hnphi
    exact hl2.replace user X hX
  refine ⟨extra2, table', ⟨h2.built, h2.states, h2.swapped, h2.replace, h2.size, fun u => ?_,
    fun q hq => ?_⟩, ?_⟩
  · simp only [mem_cons, mem_append, not_mem_nil, or_false, h2.dead]
    rw [or_left_comm, or_assoc]
  · rcases mem_append.1 hq with hq | hq
    · exact ⟨(h2.done q hq).users, (h2.done q hq).states⟩
    · obtain rfl := mem_singleton.1 hq
      exact ⟨hdone.users, hdone.states⟩
  · rw [← hl1.reduced, ← hl2.reduced]

end Steps

theorem reduceWebs (H : Separable p body g a.merges cands gone) {webs : List Web}
    (hwebs : ∀ web ∈ webs, MergeAnalysis.Settled (.ofBody p body g) a.merges web ∧ web.phis ⊆ gone)
    (h : Taken p body g a.merges replaced gone [] r) :
    Except.Answers (Taken p body g a.merges replaced gone (webs.flatMap Web.phis))
      (webs.foldlM (Reduction.reduceWeb p a replaced body.uses) r) := by
  refine meets_reduceWebs (fun web hw phi hphi phis r hr => ?_) (fun phis r registry hr => ?_) h
  · exact reducePhi H (hwebs web hw).1 (hwebs web hw).2 hphi hr
  · obtain ⟨extra, table, h, rfl⟩ := hr
    exact ⟨extra, table, ⟨h.built, h.states, h.swapped, h.replace, h.size, h.dead, fun q hq =>
      ⟨(h.done q hq).users, (h.done q hq).states⟩⟩, rfl⟩

end Reducing

def ren (r : Reduction) : InstId → InstId := Body.resolve r.replace

def cut (r : Reduction) : List InstId :=
  r.dead ++ (r.splitter.body.mapOperands r.ren).barriersOf r.dead

def result (r : Reduction) : Body := (r.splitter.body.mapOperands r.ren).removeInsts r.dead

section

variable (h : Reducing p body g a.merges replaced gone extra table r)
include h

theorem Reducing.ren_eq (hX : r.replace.get? u = some X) : r.ren u = X := by
  have hnone : r.replace.get? X = none := by
    cases hX' : r.replace.get? X with
    | none => rfl
    | some Y =>
      obtain ⟨op, hop, -⟩ := (h.replace X Y hX').exists_op
      obtain ⟨inst, hinst⟩ := live_of_op? hop
      simp [(h.replace u X hX).fresh h.built] at hinst
  obtain ⟨n, hn⟩ := Nat.exists_eq_succ_of_ne_zero (Nat.ne_of_gt (h.size u X hX))
  rw [ren, Body.resolve, hn, chainEnd, hX]
  cases n with
  | zero => rfl
  | succ n => simp [chainEnd, hnone]

theorem Reducing.ren_of_not_dead (hu : u ∉ r.dead) : r.ren u = u := by
  have hnone : r.replace.get? u = none := by
    cases hX : r.replace.get? u with
    | none => rfl
    | some X => exact absurd ((h.dead u).2 (.inr ⟨X, hX⟩)) hu
  rw [ren, Body.resolve]
  cases r.replace.size with
  | zero => rfl
  | succ n => simp [chainEnd, hnone]

end

end Reduction

/-- `body'` is `body` with the merges of `gone` taken apart. The splitter has made the new
instructions, `table` is what debug states say of the merges, and `ren` renames the users. -/
structure Body.Reduced (p : Program) (body : Body) (g : Graph) (m : Merges) (replaced : Nat → Bool)
    (gone : List InstId) (s : Splitter) (extra : BlockId → List InstId)
    (table : List (InstId × DebugValue)) (dead : List InstId) (ren : InstId → InstId)
    (body' : Body) : Prop where
  built : s.Built p body g m replaced gone extra
  wf : body'.WellFormed
  entry : body'.entry = body.entry
  params : body'.params = body.params
  gone_dead : ∀ phi ∈ gone, phi ∈ dead
  why : ∀ u ∈ dead, u ∈ gone ∨ Reduction.Replaced p body m gone s u (ren u)
  ren_of_not_dead : ∀ x, x ∉ dead → ren x = x
  users : ∀ b ∈ body.flow.order.blocks, ∀ x ∈ (body.block b).insts, x ∉ dead → ∀ op,
    body.op? x = some op → ∀ y ∈ op.operands, y ∉ gone
  op_old : ∀ b ∈ body.flow.order.blocks, ∀ x ∈ (body.block b).insts, x ∉ dead → ∀ op,
    body.op? x = some op → body'.op? x = some (op.mapOperands ren)
  op_new : ∀ y op, body.insts.get? y = none → s.body.op? y = some op →
    (∀ store, op ≠ .barrier store) → body'.op? y = some (op.mapOperands ren)
  phis : ∀ b ∈ body.flow.order.blocks, body'.phis b =
    (body.phis b).filter (· ∉ dead) ++ s.newPhis m b
  code : ∀ b ∈ body.flow.order.blocks, body'.code b =
    s.newConsts b ++ ((body.mainCode b).filter (· ∉ dead) ++ (extra b ++ body.lastCall b))
  term : ∀ b ∈ body.flow.order.blocks,
    (body'.block b).term = (body.block b).term.mapOperand ren
  states : ∀ sp, body'.states.get? sp = (body.states.get? sp).map fun state =>
    (state.mapTop (DebugValue.swap table)).mapInsts ren
  swapped : ∀ e ∈ table, e.1 ∈ gone ∧ ∃ X Y, ((e.1, .selector 0), X) ∈ s.parts ∧
    ((e.1, .kept), Y) ∈ s.parts ∧ e.2 = Reduction.standIn m replaced e.1 X Y
  named : ∀ phi ∈ gone, ∀ sp state, body.states.get? sp = some state → phi ∈ state.insts →
    ∃ v, table.lookup phi = some v

section Reduce

variable {p : Program} {body body' : Body} {g : Graph} {a : MergeAnalysis} {replaced : Nat → Bool}
  {cands gone merges : List InstId} {webs : List Web} {registry registry' : Registry}
  {extra : BlockId → List InstId} {table : List (InstId × DebugValue)} {r : Reduction}
  {b : BlockId} {u x y : InstId} {op : Op}

namespace Reduction.Reducing

theorem op?_result (hx : x ∉ r.cut) (hop : r.splitter.body.op? x = some op) :
    r.result.op? x = some (op.mapOperands r.ren) := by
  rw [cut] at hx
  rw [result, op?_removeInsts, if_neg hx, op?_mapOperands, hop, Option.map_some]

variable (H : Separable p body g a.merges cands gone)
  (h : Reducing p body g a.merges replaced gone extra table r) (hred : r.reduced = gone)

include h hred in
theorem why (hu : u ∈ r.dead) :
    u ∈ gone ∨ Replaced p body a.merges gone r.splitter u (r.ren u) := by
  rcases (h.dead u).1 hu with hu | ⟨X, hX⟩
  · exact .inl (hred ▸ hu)
  · exact .inr (h.ren_eq hX ▸ h.replace u X hX)

include H h hred

theorem op?_of_dead (hu : u ∈ r.dead) : ∃ op, body.op? u = some op ∧ op.isRefStore = false ∧
    op.isCall = false := by
  rcases h.why hred hu with hu | hu
  · obtain ⟨inputs, hop, -⟩ := (H.faithful.described u (H.apart.keys u hu)).inputs
    exact ⟨_, hop, rfl, rfl⟩
  · obtain ⟨op, hop, -, -, hstore, hcall⟩ := hu.exists_op
    exact ⟨op, hop, hstore, hcall⟩

theorem mem_cut_iff (hb : b ∈ body.order) (hx : x ∈ (body.block b).insts) :
    x ∈ r.cut ↔ x ∈ r.dead := by
  obtain ⟨i, hx⟩ := mem_iff_getElem?.1 hx
  obtain ⟨op, hop, hcheck⟩ := H.checked.inst b hb i x hx
  refine ⟨fun hcut => (mem_append.1 hcut).elim id fun hbar => ?_, mem_append_left _⟩
  obtain ⟨store, hstore, hbar⟩ := (mem_barriersOf _).1 hbar
  rw [op?_mapOperands, h.built.op?_old hop, Option.map_some, Option.some.injEq] at hbar
  obtain ⟨op', hop', href⟩ := hcheck.barrier store (Op.eq_barrier_of_mapOperands hbar)
  obtain ⟨op'', hop'', hnref, -⟩ := h.op?_of_dead H hred hstore
  simp_all

section

variable (hy : body.insts.get? y = none) (hop : r.splitter.body.op? y = some op)
  (hnbar : ∀ store, op ≠ .barrier store)
include hy hop hnbar

theorem not_mem_cut : y ∉ r.cut := by
  intro hcut
  rcases mem_append.1 hcut with hy' | hbar
  · obtain ⟨op', hop', -⟩ := h.op?_of_dead H hred hy'
    obtain ⟨inst, hinst⟩ := live_of_op? hop'
    simp [hy] at hinst
  · obtain ⟨store, -, hbar⟩ := (mem_barriersOf _).1 hbar
    rw [op?_mapOperands, hop, Option.map_some, Option.some.injEq] at hbar
    exact hnbar store (Op.eq_barrier_of_mapOperands hbar)

theorem op?_new : r.result.op? y = some (op.mapOperands r.ren) :=
  op?_result (h.not_mem_cut H hred hy hop hnbar) hop

end

theorem op?_old (hb : b ∈ body.order) (hx : x ∈ (body.block b).insts)
    (hnd : x ∉ r.dead) (hop : body.op? x = some op) :
    r.result.op? x = some (op.mapOperands r.ren) :=
  op?_result (mt (h.mem_cut_iff H hred hb hx).1 hnd) (h.built.op?_old hop)

section

variable (hb : b ∈ body.order)
include hb

theorem not_dead_of_mem_lastCall (hx : x ∈ body.lastCall b) : x ∉ r.dead := by
  intro hdead
  obtain ⟨op, hop, -, hncall⟩ := h.op?_of_dead H hred hdead
  rw [lastCall] at hx
  split at hx
  · rename_i call normal handler hterm
    obtain rfl := mem_singleton.1 hx
    obtain ⟨⟨c, hop'⟩, -⟩ := H.checked.invoke b hb x normal handler hterm
    obtain rfl := Option.mem_unique hop hop'
    cases hncall
  · cases hx

theorem insts_result : (r.result.block b).insts =
    ((body.phis b).filter (· ∉ r.dead) ++ r.splitter.newPhis a.merges b) ++
      (r.splitter.newConsts b ++ ((body.mainCode b).filter (· ∉ r.dead) ++
        (extra b ++ body.lastCall b))) := by
  have hinsts : ∀ x, x ∈ body.phis b ∨ x ∈ body.mainCode b ∨ x ∈ body.lastCall b →
      x ∈ (body.block b).insts := by
    intro x hx
    rw [insts_eq, code_eq H.checked hb]
    simpa using hx
  have hold : ∀ l : List InstId, (∀ x ∈ l, x ∈ (body.block b).insts) →
      l.filter (· ∉ r.cut) = l.filter (· ∉ r.dead) := fun l hl =>
    filter_congr fun x hx => by simp [h.mem_cut_iff H hred hb (hl x hx)]
  have hnew : ∀ l : List InstId, (∀ y ∈ l, body.insts.get? y = none ∧
      ∃ op, r.splitter.body.op? y = some op ∧ ∀ store, op ≠ .barrier store) →
      l.filter (· ∉ r.cut) = l := fun l hl => filter_eq_self.2 fun y hy => by
    obtain ⟨hfresh, op, hop, hnbar⟩ := hl y hy
    simpa using h.not_mem_cut H hred hfresh hop hnbar
  have hcall : (body.lastCall b).filter (· ∉ r.dead) = body.lastCall b :=
    filter_eq_self.2 fun x hx => by
      simpa using h.not_dead_of_mem_lastCall H hred hb hx
  rw [result, block_removeInsts, block_mapOperands]
  change ((r.splitter.body.block b).insts.filter (· ∉ r.cut)) = _
  rw [h.built.insts b hb]
  simp only [filter_append]
  rw [hold _ fun x hx => hinsts x (.inl hx), hold _ fun x hx => hinsts x (.inr (.inl hx)),
    hold (body.lastCall b) fun x hx => hinsts x (.inr (.inr hx)), hcall, hnew, hnew, hnew]
  · intro y hy
    obtain ⟨hfresh, x, f, hop, -⟩ := h.built.loads b y hy
    exact ⟨hfresh, _, hop, by simp⟩
  · intro y hy
    obtain ⟨hfresh, c, hop⟩ := h.built.op?_newConsts hy
    exact ⟨hfresh, _, hop, by simp⟩
  · intro y hy
    obtain ⟨hfresh, inputs, hop⟩ := h.built.op?_newPhis hy
    exact ⟨hfresh, _, hop, by simp⟩

theorem isPhi_phis (hy : y ∈ (body.phis b).filter (· ∉ r.dead) ++ r.splitter.newPhis a.merges b) :
    r.result.isPhi y = true := by
  rcases mem_append.1 hy with hy | hy
  · obtain ⟨hmem, hnd⟩ := mem_filter.1 hy
    obtain ⟨inputs, hop⟩ := isPhi_iff.1 (isPhi_of_mem_phis hmem)
    exact isPhi_of_op? (h.op?_old H hred hb (mem_insts_of_mem_phis hmem)
      (by simpa using hnd) hop)
  · obtain ⟨hfresh, inputs, hop⟩ := h.built.op?_newPhis hy
    exact isPhi_of_op? (h.op?_new H hred hfresh hop (by simp))

theorem isPhi_code
    (hy : y ∈ r.splitter.newConsts b ++ ((body.mainCode b).filter (· ∉ r.dead) ++
      (extra b ++ body.lastCall b))) : r.result.isPhi y = false := by
  have hold : y ∈ body.code b → y ∉ r.dead → r.result.isPhi y = false := by
    intro hmem hnd
    obtain ⟨inst, hinst⟩ := H.checked.live hb (mem_insts_of_mem_code hmem)
    have hop : body.op? y = some inst.op := op?_eq_some_iff.2 ⟨inst, hinst, rfl⟩
    rw [isPhi_of_op? (h.op?_old H hred hb (mem_insts_of_mem_code hmem) hnd hop),
      Op.isPhi_mapOperands]
    exact H.checked.not_isPhi_of_mem_code hb hmem hop
  rw [code_eq H.checked hb] at hold
  simp only [mem_append, mem_filter, decide_eq_true_eq] at hy hold
  rcases hy with hy | ⟨hy, hnd⟩ | hy | hy
  · obtain ⟨hfresh, c, hop⟩ := h.built.op?_newConsts hy
    exact isPhi_of_op? (h.op?_new H hred hfresh hop (by simp))
  · exact hold (.inl hy) hnd
  · obtain ⟨hfresh, x, f, hop, -⟩ := h.built.loads b y hy
    exact isPhi_of_op? (h.op?_new H hred hfresh hop (by simp))
  · exact hold (.inr hy) (h.not_dead_of_mem_lastCall H hred hb hy)

theorem not_mem_gone_of_mem_operands (hx : x ∈ (body.block b).insts)
    (hnd : x ∉ r.dead) (hop : body.op? x = some op) (hy : y ∈ op.operands) : y ∉ gone := by
  intro hgone
  obtain ⟨i, hx'⟩ := mem_iff_getElem?.1 hx
  obtain ⟨inst, hinst⟩ :=
    live_of_mem_phis (H.faithful.described y (H.apart.keys y hgone)).mem_phis
  have hlists : body.uses.Lists y (.inst x) :=
    (lists_uses_iff H.wf H.issued hinst).2 ⟨⟨b, hx⟩, op, hop, hy⟩
  by_cases hphi : op.isPhi = true
  · cases (H.apart.reducible y hgone).use b hb i x op hx' hop hy with
    | merge inputs hmem => exact hnd ((h.dead x).2 (.inl (hred ▸ hmem)))
    | _ => cases hphi
  · exact hnd ((h.dead x).2 (.inr ((h.done y (hred ▸ hgone)).users x op hlists hop
      (Bool.eq_false_iff.2 hphi))))

end

theorem reduced :
    body.Reduced p g a.merges replaced gone r.splitter extra table r.dead r.ren r.result where
  built := h.built
  wf := (h.built.wf.mapOperands _).removeInsts _
  entry := h.built.entry
  params := h.built.params
  gone_dead phi hphi := (h.dead phi).2 (.inl (hred ▸ hphi))
  why _ := h.why hred
  ren_of_not_dead _ := h.ren_of_not_dead
  users _ hb _ hx hnd _ hop _ := h.not_mem_gone_of_mem_operands H hred hb hx hnd hop
  op_old _ hb _ hx hnd _ := h.op?_old H hred hb hx hnd
  op_new _ _ := h.op?_new H hred
  phis b hb := by
    rw [Body.phis, h.insts_result H hred hb]
    exact takeWhile_append_of_all (fun _ => h.isPhi_phis H hred hb)
      fun _ => h.isPhi_code H hred hb
  code b hb := by
    rw [Body.code, h.insts_result H hred hb]
    exact dropWhile_append_of_all (fun _ => h.isPhi_phis H hred hb)
      fun _ => h.isPhi_code H hred hb
  term b hb := by
    rw [← h.built.term b hb, result, block_removeInsts, block_mapOperands]
  states sp := by
    change ((r.splitter.body.states.map (mapInsts r.ren)).get? sp) = _
    rw [SlotTable.get?_map, h.states, Option.map_map]
    rfl
  swapped := h.swapped
  named phi hphi := (h.done phi (hred ▸ hphi)).states

end Reduction.Reducing

theorem Body.reduced_of_reduce (hwf : body.WellFormed) (hi : body.Issued) (hc : body.Checked)
    (hf : a.merges.Faithful body g cands)
    (hwebs : ∀ w ∈ webs, MergeAnalysis.Settled (.ofBody p body g) a.merges w)
    (hr : body.reduce p a replaced registry webs = .ok (body', registry', merges)) :
    ∃ s extra table dead ren, body.Reduced p g a.merges replaced (webs.flatMap Web.phis) s extra
      table dead ren body' := by
  have H : Reduction.Separable p body g a.merges cands (webs.flatMap Web.phis) :=
    ⟨hwf, hi, hc, hf, Merges.apart_of_settled hwf hi hc hf hwebs⟩
  obtain ⟨r, hr, hbody⟩ := Except.bind_eq_ok.1 hr
  have hstart := Reduction.Reducing.start p g a.merges replaced (webs.flatMap Web.phis) registry hwf hc
  have hend := Reduction.Reducing.reduceWebs H (fun w hw => ⟨hwebs w hw, fun q hq =>
    mem_flatMap.2 ⟨w, hw, hq⟩⟩) ⟨_, _, hstart, rfl⟩
  rw [hr] at hend
  obtain ⟨extra, table, h, hred⟩ := hend
  obtain ⟨rfl, -⟩ := Prod.mk.inj (Except.pure_eq_ok.1 hbody)
  exact ⟨_, extra, table, _, _, h.reduced H hred⟩

end Reduce

end EscapeAnalysis
