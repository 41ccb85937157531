import EscapeAnalysis.Proofs.Dominance
import EscapeAnalysis.Proofs.Propagation

/-!
# What the points-to graph says about the code

Each instruction contributes to the graph in a fixed way (`Graph.addInst_eq`). So the graph of a
body accounts for every instruction of a reachable block (`Graph.Accounts`), and so does the
propagated graph, whose facts satisfy all constraints (`Graph.Solved`).
-/

namespace EscapeAnalysis

open List

theorem Body.exists_inst_of_op? {body : Body} {x op} (h : body.op? x = some op) :
    ∃ i, body.insts.get? x = some i := by
  simp only [Body.op?, Body.inst?, Option.map_eq_some_iff] at h
  obtain ⟨i, hi, -⟩ := h
  exact ⟨i, hi⟩

namespace Graph

variable (p : Program) (body : Body) {a : AllocShape × Escape} {f : Facts} {blocks : List BlockId}

/-- The node that an allocation gets: its shape and how far it escapes from the start. -/
def allocation? (x : InstId) : Option (AllocShape × Escape) :=
  match body.op? x with
  | some (.new c) => some (.inst c, if (p.cls c).flags.any then .global else .none)
  | some (.newArray elem len) => some (.array elem (body.constNat? len), .none)
  | _ => none

/-- What a reference points to without any constraint. -/
def seed? (x : InstId) : Option NodeSet :=
  match body.op? x with
  | some (.const .null) => some (.singleton .null)
  | some (.param _) | some (.loadGlobal _) | some .exception | some (.call _) =>
    if body.isRef x then some (.singleton .phantom) else none
  | _ => none

def constraintsOf (x : InstId) : List Constraint :=
  match body.op? x with
  | some (.call c) => callSinks p body c
  | some (.phi inputs) => if body.isRef x then inputs.map fun (_, y) => .copy x y else []
  | some (.checkCast obj _) => [.copy x obj]
  | some (.loadField obj f) => if body.isRef x then [.load x obj (.field f)] else []
  | some (.loadElem array index) =>
    if body.isRef x then [.load x array (.elem (body.constNat? index))] else []
  | some (.storeField obj f value) =>
    if body.isRef value then [.store obj (.field f) value] else []
  | some (.storeElem array index value) =>
    if body.isRef value then [.store array (.elem (body.constNat? index)) value] else []
  | some (.arrayFill array value) =>
    if body.isRef value then [.store array .allElems value] else []
  | some (.arrayCopy src srcPos dst dstPos len) =>
    [.copyElems src dst (copyRange? body srcPos dstPos len)]
  | some (.storeGlobal _ value) => if body.isRef value then [.sink value .global] else []
  | _ => []

theorem constraintsOf_arrayCopy {x src srcPos dst dstPos len}
    (h : body.op? x = some (.arrayCopy src srcPos dst dstPos len)) :
    ∃ range, constraintsOf p body x = [.copyElems src dst range] ∧ ∀ i j n,
      range = some (i, j, n) → body.constNat? srcPos = some i ∧ body.constNat? dstPos = some j ∧
        body.constNat? len = some n := by
  rw [constraintsOf, h]
  refine ⟨_, rfl, fun i j n hr => ?_⟩
  rw [copyRange?] at hr
  split at hr
  · cases hr
    exact ⟨by assumption, by assumption, by assumption⟩
  · cases hr

def phisOf (x : InstId) : List InstId :=
  match body.op? x with
  | some (.phi _) => if body.isRef x then [x] else []
  | _ => []

def monitorsOf (x : InstId) : List InstId :=
  match body.op? x with
  | some (.monitorEnter obj) => [obj]
  | _ => []

def declare (g : Graph) (x : InstId) : Graph :=
  if body.isRef x then { g with facts := { g.facts with pts := g.facts.pts.insert x ∅ } } else g

/-- Starts the set of a reference, if it has a seed. -/
def sow (g : Graph) (x : InstId) : Graph :=
  match seed? body x with
  | some s => g.addPts x s
  | none => g

theorem addInst_eq (g : Graph) (x : InstId) : addInst p body g x =
    match allocation? p body x with
    | some (shape, escape) => (declare body g x).addAlloc x shape escape
    | none =>
      { sow body (declare body g x) x with
        constraints := g.constraints ++ constraintsOf p body x
        phis := g.phis ++ phisOf body x
        monitors := g.monitors ++ monitorsOf body x } := by
  have hdecl : (declare body g x).constraints = g.constraints ∧
      (declare body g x).phis = g.phis ∧ (declare body g x).monitors = g.monitors := by
    rw [declare]
    split <;> exact ⟨rfl, rfl, rfl⟩
  have heta : declare body g x = { declare body g x with
      constraints := g.constraints, phis := g.phis, monitors := g.monitors } := by
    rw [← hdecl.1, ← hdecl.2.1, ← hdecl.2.2]
  unfold addInst
  simp only [allocation?, constraintsOf, phisOf, monitorsOf, sow, seed?]
  rw [show (if body.isRef x = true then
      { g with facts := { g.facts with pts := g.facts.pts.insert x ∅ } } else g) =
    declare body g x from rfl]
  rcases body.op? x with _ | op
  · simpa using heta
  · cases op
    case const c => cases c <;> simp [addPts, hdecl, ← heta]
    case new => rfl
    case newArray => rfl
    all_goals
      simp only [addConstraints, addPts, hdecl.1, hdecl.2.1, hdecl.2.2, append_nil]
      try split
      all_goals simp [← heta]

/-- The graph has what instruction `x` asks for, but for what the constraints add. -/
structure Accounts (g : Graph) (x : InstId) : Prop where
  ref : body.isRef x = true → ∃ t, g.facts.pts.get? x = some t
  seed : ∀ s, seed? body x = some s → ∀ n ∈ s, n ∈ g.ptsOf x
  alloc : ∀ a, allocation? p body x = some a → ∃ n, g.allocOf.get? x = some n
  constraints : ∀ c ∈ constraintsOf p body x, c ∈ g.constraints

/-- What holds of the graph while the code is read. -/
structure Tables (g : Graph) : Prop where
  pts : g.facts.pts.Within body.insts
  allocOf : g.allocOf.Within body.insts
  size : g.facts.escapes.size = g.allocs.size
  alloc : ∀ x n, g.allocOf.get? x = some n → ∃ shape escape,
    allocation? p body x = some (shape, escape) ∧ g.allocs[n]? = some ⟨x, shape⟩ ∧
      .alloc n ∈ g.ptsOf x

variable {p body} {g : Graph} {x y : InstId}

theorem exists_inst_of_isRef (h : body.isRef x = true) : ∃ i, body.insts.get? x = some i := by
  simp only [Body.isRef, Body.ty?, Body.inst?] at h
  rcases hx : body.insts.get? x with _ | i
  · rw [hx] at h
    simp at h
  · exact ⟨i, rfl⟩

theorem exists_inst_of_seed? {s : NodeSet} (h : seed? body x = some s) :
    ∃ i, body.insts.get? x = some i := by
  rw [seed?] at h
  rcases hx : body.op? x with _ | op
  · rw [hx] at h
    simp at h
  · exact Body.exists_inst_of_op? hx

section

variable (h : allocation? p body x = some a)
include h

theorem exists_inst_of_allocation? :
    ∃ i, body.insts.get? x = some i := by
  rw [allocation?] at h
  rcases hx : body.op? x with _ | op
  · rw [hx] at h
    simp at h
  · exact Body.exists_inst_of_op? hx

theorem seed?_eq_none_of_allocation? : seed? body x = none := by
  rw [allocation?] at h
  rw [seed?]
  split at h <;> simp_all

theorem constraintsOf_eq_nil_of_allocation? :
    constraintsOf p body x = [] := by
  rw [allocation?] at h
  rw [constraintsOf]
  split at h <;> simp_all

end

theorem ptsOf_eq {t} (h : f.pts.get? x = some t) : f.ptsOf x = t := by
  rw [Facts.ptsOf, h]
  rfl

theorem ptsOf_congr {f' : Facts} (h : f'.pts.get? x = f.pts.get? x) : f'.ptsOf x = f.ptsOf x := by
  rw [Facts.ptsOf, h]
  rfl

section Reading

variable (hwf : body.insts.WellFormed)
include hwf

theorem get?_declare (hw : g.facts.pts.Within body.insts) (x y : InstId) :
    (declare body g x).facts.pts.get? y =
      if y = x ∧ body.isRef x = true then some ∅ else g.facts.pts.get? y := by
  rw [declare]
  by_cases h : body.isRef x = true
  · obtain ⟨i, hi⟩ := exists_inst_of_isRef h
    simp only [h, if_true, and_true]
    exact SideTable.get?_insert hwf hw hi ∅ y
  · simp [h]

omit hwf in
theorem within_declare (hw : g.facts.pts.Within body.insts) (x : InstId) :
    (declare body g x).facts.pts.Within body.insts := by
  rw [declare]
  split
  · obtain ⟨i, hi⟩ := exists_inst_of_isRef (by assumption)
    exact hw.insert hi ∅
  · exact hw

theorem get?_addPts (hw : g.facts.pts.Within body.insts) {i} (hi : body.insts.get? x = some i)
    (s : NodeSet) (y : InstId) :
    (g.addPts x s).facts.pts.get? y =
      if y = x then some (g.ptsOf x ∪ s) else g.facts.pts.get? y :=
  SideTable.get?_insert hwf hw hi _ y

theorem get?_sow (hw : g.facts.pts.Within body.insts) (x y : InstId) :
    (sow body g x).facts.pts.get? y =
      if y = x then (match seed? body x with
        | some s => some (g.ptsOf x ∪ s)
        | none => g.facts.pts.get? x)
      else g.facts.pts.get? y := by
  rw [sow]
  rcases hs : seed? body x with _ | s
  · by_cases h : y = x <;> simp [h]
  · obtain ⟨i, hi⟩ := exists_inst_of_seed? hs
    exact get?_addPts hwf hw hi s y

omit hwf in
theorem within_sow (hw : g.facts.pts.Within body.insts) (x : InstId) :
    (sow body g x).facts.pts.Within body.insts := by
  rw [sow]
  split
  · obtain ⟨i, hi⟩ := exists_inst_of_seed? (by assumption)
    exact hw.insert hi _
  · exact hw

end Reading

theorem addInst_of_none (h : allocation? p body x = none) :
    (addInst p body g x).allocs = g.allocs ∧ (addInst p body g x).allocOf = g.allocOf ∧
      (addInst p body g x).facts.escapes = g.facts.escapes ∧
      (addInst p body g x).facts.pts = (sow body (declare body g x) x).facts.pts ∧
      (addInst p body g x).constraints = g.constraints ++ constraintsOf p body x := by
  rw [addInst_eq, h]
  refine ⟨?_, ?_, ?_, rfl, rfl⟩
  all_goals
    simp only [sow, declare, addPts]
    split <;> split <;> rfl

theorem addInst_of_some {shape escape} (h : allocation? p body x = some (shape, escape)) :
    (addInst p body g x).allocs = g.allocs.push ⟨x, shape⟩ ∧
      (addInst p body g x).allocOf = g.allocOf.insert x g.allocs.size ∧
      (addInst p body g x).facts.escapes = g.facts.escapes.push escape ∧
      (addInst p body g x).facts.pts =
        ((declare body g x).addPts x (.singleton (.alloc g.allocs.size))).facts.pts ∧
      (addInst p body g x).constraints = g.constraints := by
  rw [addInst_eq, h]
  have hd : (declare body g x).allocs = g.allocs ∧ (declare body g x).allocOf = g.allocOf ∧
      (declare body g x).facts.escapes = g.facts.escapes ∧
      (declare body g x).constraints = g.constraints := by
    rw [declare]
    split <;> exact ⟨rfl, rfl, rfl, rfl⟩
  simp only [addAlloc, addPts, hd.1, hd.2.1, hd.2.2.1, hd.2.2.2, and_self]

theorem mem_constraints_addInst {c} (h : c ∈ g.constraints) :
    c ∈ (addInst p body g x).constraints := by
  rcases ha : allocation? p body x with _ | ⟨shape, escape⟩
  · rw [(addInst_of_none ha).2.2.2.2]
    exact mem_append_left _ h
  · rwa [(addInst_of_some ha).2.2.2.2]

section

variable (hwf : body.insts.WellFormed) (ht : Tables p body g)
include hwf ht

theorem get?_pts_addInst_of_ne (hne : y ≠ x) :
    (addInst p body g x).facts.pts.get? y = g.facts.pts.get? y := by
  have hd : (declare body g x).facts.pts.get? y = g.facts.pts.get? y := by
    rw [get?_declare hwf ht.pts, if_neg (fun h => hne h.1)]
  rcases ha : allocation? p body x with _ | ⟨shape, escape⟩
  · rw [(addInst_of_none ha).2.2.2.1, get?_sow hwf (within_declare ht.pts x), if_neg hne, hd]
  · obtain ⟨i, hi⟩ := exists_inst_of_allocation? ha
    rw [(addInst_of_some ha).2.2.2.1, get?_addPts hwf (within_declare ht.pts x) hi,
      if_neg hne, hd]

theorem Tables.addInst (x : InstId) : Tables p body (addInst p body g x) := by
  have hother : ∀ y, y ≠ x → (Graph.addInst p body g x).ptsOf y = g.ptsOf y := fun y hne =>
    ptsOf_congr (get?_pts_addInst_of_ne hwf ht hne)
  rcases ha : allocation? p body x with _ | ⟨shape, escape⟩
  · obtain ⟨h1, h2, h3, h4, -⟩ := addInst_of_none (g := g) ha
    refine ⟨h4 ▸ within_sow (within_declare ht.pts x) x, h2 ▸ ht.allocOf,
      by rw [h1, h3, ht.size], fun y n hy => ?_⟩
    rw [h2] at hy
    obtain ⟨shape, escape, hsh, hn, hmem⟩ := ht.alloc y n hy
    have hne : y ≠ x := by
      rintro rfl
      rw [ha] at hsh
      cases hsh
    exact ⟨shape, escape, hsh, h1 ▸ hn, hother y hne ▸ hmem⟩
  · obtain ⟨i, hi⟩ := exists_inst_of_allocation? ha
    obtain ⟨h1, h2, h3, h4, -⟩ := addInst_of_some (g := g) ha
    have hget := get?_addPts hwf (within_declare ht.pts x) hi
      (.singleton (.alloc g.allocs.size))
    refine ⟨h4 ▸ (within_declare ht.pts x).insert hi _, h2 ▸ ht.allocOf.insert hi _,
      by simp [h1, h3, ht.size], fun y n hy => ?_⟩
    rw [h2, SideTable.get?_insert hwf ht.allocOf hi] at hy
    by_cases hyx : y = x
    · subst hyx
      rw [if_pos rfl] at hy
      cases hy
      refine ⟨shape, escape, ha, by simp [h1], ?_⟩
      have : (Graph.addInst p body g y).facts.pts.get? y =
          some ((declare body g y).ptsOf y ∪ .singleton (.alloc g.allocs.size)) := by
        rw [h4, hget, if_pos rfl]
      rw [ptsOf, ptsOf_eq this]
      simp
    · rw [if_neg hyx] at hy
      obtain ⟨shape', escape', hsh, hn, hmem⟩ := ht.alloc y n hy
      refine ⟨shape', escape', hsh, ?_, hother y hyx ▸ hmem⟩
      rw [h1, Array.getElem?_push, if_neg, hn]
      exact fun e => by simp [e] at hn

theorem Accounts.addInst
    (h : y = x ∨ Accounts p body g y) : Accounts p body (addInst p body g x) y := by
  by_cases hyx : y = x
  · subst hyx
    rcases ha : allocation? p body y with _ | ⟨shape, escape⟩
    · obtain ⟨-, -, -, h4, h5⟩ := addInst_of_none (g := g) ha
      have hget := get?_sow hwf (within_declare ht.pts y) y y
      rw [if_pos rfl, ← h4] at hget
      refine ⟨fun href => ?_, fun s hs n hn => ?_, fun a h => absurd h (by simp [ha]),
        fun c hc => h5 ▸ mem_append_right _ hc⟩
      · rw [hget, get?_declare hwf ht.pts]
        split
        · exact ⟨_, rfl⟩
        · exact ⟨∅, by simp [href]⟩
      · rw [hs] at hget
        rw [ptsOf, ptsOf_eq hget]
        exact NodeSet.mem_union.2 (.inr hn)
    · obtain ⟨i, hi⟩ := exists_inst_of_allocation? ha
      obtain ⟨-, h2, -, h4, -⟩ := addInst_of_some (g := g) ha
      have hget := get?_addPts hwf (within_declare ht.pts y) hi
        (.singleton (.alloc g.allocs.size)) y
      rw [if_pos rfl, ← h4] at hget
      refine ⟨fun _ => ⟨_, hget⟩, fun s hs => ?_, fun _ _ => ⟨g.allocs.size, ?_⟩, fun c hc => ?_⟩
      · rw [seed?_eq_none_of_allocation? ha] at hs
        cases hs
      · rw [h2, SideTable.get?_insert hwf ht.allocOf hi, if_pos rfl]
      · rw [constraintsOf_eq_nil_of_allocation? ha] at hc
        cases hc
  · have h := h.resolve_left hyx
    have hpts := get?_pts_addInst_of_ne hwf ht hyx
    refine ⟨fun href => hpts ▸ h.ref href, fun s hs n hn => ?_, fun a hy => ?_,
      fun c hc => mem_constraints_addInst (h.constraints c hc)⟩
    · rw [ptsOf, ptsOf_congr hpts]
      exact h.seed s hs n hn
    · obtain ⟨n, hn⟩ := h.alloc a hy
      rcases ha : allocation? p body x with _ | ⟨shape, escape⟩
      · exact ⟨n, by rw [(addInst_of_none ha).2.1, hn]⟩
      · obtain ⟨i, hi⟩ := exists_inst_of_allocation? ha
        refine ⟨n, ?_⟩
        rw [(addInst_of_some ha).2.1, SideTable.get?_insert hwf ht.allocOf hi, if_neg hyx, hn]

end

def termConstraints : Terminator → List Constraint
  | .ret (some x) | .throw x => [.sink x .global]
  | _ => []

theorem addTerm_eq (g : Graph) (t : Terminator) :
    g.addTerm t = { g with constraints := g.constraints ++ termConstraints t } := by
  rcases t with _ | _ | _ | (_ | _) | _ | _ | _ <;> simp [addTerm, termConstraints, addConstraints]

theorem Tables.addTerm (ht : Tables p body g) (t : Terminator) : Tables p body (g.addTerm t) := by
  rw [addTerm_eq]
  exact ⟨ht.pts, ht.allocOf, ht.size, ht.alloc⟩

theorem Accounts.addTerm (h : Accounts p body g x) (t : Terminator) :
    Accounts p body (g.addTerm t) x := by
  rw [addTerm_eq]
  exact ⟨h.ref, h.seed, h.alloc, fun c hc => mem_append_left _ (h.constraints c hc)⟩

theorem Tables.start (limit : Nat) : Tables p body { elemLimit := limit } :=
  ⟨.empty _, .empty _, rfl, fun x n h => by simp [SideTable.get?] at h⟩

/-- What reading the code has accounted for. -/
structure Read (p : Program) (body : Body) (blocks : List BlockId) (g : Graph) : Prop where
  tables : Tables p body g
  insts : ∀ b ∈ blocks, ∀ x ∈ (body.block b).insts, Accounts p body g x
  terms : ∀ b ∈ blocks, ∀ c ∈ termConstraints (body.block b).term, c ∈ g.constraints

/-- Facts that have at least what `f` has, for the same instructions and allocations. -/
structure Above (body : Body) (f f' : Facts) : Prop where
  within : f'.pts.Within body.insts
  size : f'.escapes.size = f.escapes.size
  pts : ∀ x t, f.pts.get? x = some t → ∃ t', f'.pts.get? x = some t' ∧ ∀ n ∈ t, n ∈ t'

theorem Read.above (h : Read p body blocks g) (hf : Above body g.facts f) :
    Read p body blocks { g with facts := f } := by
  have hpts : ∀ x n, n ∈ g.ptsOf x → n ∈ f.ptsOf x := by
    intro x n hn
    rcases hx : g.facts.pts.get? x with _ | t
    · simp [ptsOf, Facts.ptsOf, hx] at hn
    · obtain ⟨t', ht', hle⟩ := hf.pts x t hx
      rw [ptsOf, ptsOf_eq hx] at hn
      exact ptsOf_eq ht' ▸ hle n hn
  refine ⟨⟨hf.within, h.tables.allocOf, hf.size.trans h.tables.size, fun x n hx => ?_⟩,
    fun b hb x hx => ?_, h.terms⟩
  · obtain ⟨shape, escape, h1, h2, h3⟩ := h.tables.alloc x n hx
    exact ⟨shape, escape, h1, h2, hpts x _ h3⟩
  · have := h.insts b hb x hx
    refine ⟨fun href => ?_, fun s hs n hn => hpts x n (this.seed s hs n hn), this.alloc,
      this.constraints⟩
    obtain ⟨t, ht⟩ := this.ref href
    obtain ⟨t', ht', -⟩ := hf.pts x t ht
    exact ⟨t', ht'⟩

/-- A graph that accounts for the reachable code and whose facts are closed. -/
structure Solved (p : Program) (body : Body) (g : Graph) : Prop where
  read : Read p body body.flow.order.blocks g
  closed : g.Closed g.facts

section

variable (hwf : body.insts.WellFormed)
include hwf

theorem Read.block (h : Read p body blocks g) (b : BlockId) :
    Read p body (b :: blocks)
      (((body.block b).insts.foldl (Graph.addInst p body) g).addTerm (body.block b).term) := by
  have loop : ∀ (xs : List InstId) (g : Graph), Tables p body g →
      Tables p body (xs.foldl (Graph.addInst p body) g) ∧
      (∀ y, y ∈ xs ∨ Accounts p body g y →
        Accounts p body (xs.foldl (Graph.addInst p body) g) y) ∧
      ∀ c ∈ g.constraints, c ∈ (xs.foldl (Graph.addInst p body) g).constraints := by
    intro xs
    induction xs with
    | nil => exact fun g ht => ⟨ht, fun y hy => hy.resolve_left (by simp), fun c hc => hc⟩
    | cons x xs ih =>
      intro g ht
      obtain ⟨h1, h2, h3⟩ := ih _ (ht.addInst hwf x)
      refine ⟨h1, fun y hy => h2 y ?_, fun c hc => h3 c (mem_constraints_addInst hc)⟩
      rcases hy with hy | hy
      · rcases mem_cons.1 hy with rfl | hy
        · exact .inr (Accounts.addInst hwf ht (.inl rfl))
        · exact .inl hy
      · exact .inr (Accounts.addInst hwf ht (.inr hy))
  obtain ⟨h1, h2, h3⟩ := loop (body.block b).insts g h.tables
  refine ⟨h1.addTerm _, fun b' hb' x hx => ?_, fun b' hb' c hc => ?_⟩
  · apply Accounts.addTerm
    rcases mem_cons.1 hb' with rfl | hb'
    · exact h2 x (.inl hx)
    · exact h2 x (.inr (h.insts b' hb' x hx))
  · rw [addTerm_eq]
    rcases mem_cons.1 hb' with rfl | hb'
    · exact mem_append_right _ hc
    · exact mem_append_left _ (h3 c (h.terms b' hb' c hc))

theorem read_ofBody (settings : Settings) :
    Read p body body.order (ofBody p body settings) := by
  have loop : ∀ (bs done : List BlockId) (g : Graph), Read p body done g →
      Read p body (bs.reverse ++ done) (bs.foldl (fun g b =>
        ((body.block b).insts.foldl (Graph.addInst p body) g).addTerm (body.block b).term) g) := by
    intro bs
    induction bs with
    | nil => exact fun done g h => h
    | cons b bs ih =>
      intro done g h
      have := ih (b :: done) _ (h.block hwf b)
      simpa using this
  have hstart : Read p body [] ({ elemLimit := settings.arraySizeLimit } : Graph) :=
    ⟨.start _, by simp, by simp⟩
  have := loop body.order [] _ hstart
  rw [append_nil] at this
  exact ⟨this.tables, fun b hb => this.insts b (mem_reverse.2 hb),
    fun b hb => this.terms b (mem_reverse.2 hb)⟩

theorem kept_above (f : Facts) :
    Facts.Kept fun f' r => Above body f f' → Above body f r.1 where
  refl _ h := h
  trans h h' hf := h' (h hf)
  raise _ _ h := ⟨h.within, by simp [h.size], h.pts⟩
  addTo {f' x t} s hx h := by
    obtain ⟨i, hi⟩ := h.within x t hx
    refine ⟨h.within.insert hi _, h.size, fun y u hy => ?_⟩
    obtain ⟨u', hu', hle⟩ := h.pts y u hy
    rw [SideTable.get?_insert hwf h.within hi]
    by_cases hyx : y = x
    · subst hyx
      rw [hx] at hu'
      cases hu'
      exact ⟨t ∪ s, if_pos rfl, fun n hn => NodeSet.mem_union.2 (.inl (hle n hn))⟩
    · exact ⟨u', by rw [if_neg hyx, hu'], hle⟩
  addToCell _ _ _ _ h := ⟨h.within, h.size, h.pts⟩

theorem solved_of_propagate {settings settings' changed b b'}
    (h : Metered.Yields ((ofBody p body settings).propagate settings') b (g, changed) b') :
    Solved p body g := by
  obtain ⟨f, rfl, hf⟩ := of_propagate h
  have hread := read_ofBody (p := p) hwf settings
  have hclosed := closed_of_propagateFacts _ hf
  obtain ⟨_, hkept⟩ := (kept_above hwf (ofBody p body settings).facts).propagateFacts _ hf
  have habove := hkept ⟨hread.tables.pts, rfl, fun x t ht => ⟨t, ht, fun n hn => hn⟩⟩
  refine ⟨hread.above habove, fun c hc => ?_, hclosed.escapes⟩
  cases c <;> exact hclosed.satisfied _ hc

end

/-- Running the analysis of a body finds its graph. -/
theorem exists_propagated (p : Program) (body : Body) (n : Nat) {P : Graph → Bool}
    (h : ((Metered.result? ((ofBody p body {}).propagate {}) { limit := n }).any (P ·.1)) = true) :
    ∃ g changed b, Metered.Yields ((ofBody p body {}).propagate {}) { limit := n } (g, changed) b ∧
      P g = true := by
  obtain ⟨⟨g, changed⟩, b, hy, hg⟩ := Metered.exists_yields h
  exact ⟨g, changed, b, hy, hg⟩

end Graph

end EscapeAnalysis
