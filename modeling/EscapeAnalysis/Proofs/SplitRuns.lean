import EscapeAnalysis.Proofs.Reductions

/-!
# Runs with merges taken apart

An operation has the same effect under other names for its operands, as long as the other frame
holds the same values under those names, and so has a debug state. Names matter only where a run
fails, so the statements are one-way.

A body and the body with merges taken apart run in step. While the original holds a value for a
merge, that value is one of the leaves of the merge, and the parts of the merge hold what they say
of that leaf. A part that is a field was loaded before the merge was entered, so it is right for as
long as the merge is clean. The new body has loads at the ends of blocks that the original does not
have, and runs them before the call or the terminator that ends the block.
-/

namespace EscapeAnalysis

open List EscapeAnalysis.Except

variable {ren : InstId → InstId} {body : Body}

/-- The values of one table are found in another under new names. -/
def Carries (ren : InstId → InstId) (values values' : SideTable .inst Value) (y : InstId) : Prop :=
  ∀ v, values.get? y = some v → values'.get? (ren y) = some v

theorem Op.safepoint?_mapOperands (r : InstId → InstId) (op : Op) :
    (op.mapOperands r).safepoint? = op.safepoint? := by
  cases op <;> rfl

theorem Op.isCall_mapOperands (r : InstId → InstId) (op : Op) :
    (op.mapOperands r).isCall = op.isCall := by
  cases op <;> rfl

namespace Machine

/-- Whatever the one computation yields or throws, the other does too. -/
structure Refines {α : Type} (r r' : Except Halt α) : Prop where
  ok : ∀ a, r = .ok a → r' = .ok a
  thrown : ∀ t, r = .error (.thrown t) → r' = .error (.thrown t)

namespace Refines

variable {α β : Type} {r r' : Except Halt α} {f f' : Frame} {ren : InstId → InstId}
  {x y : InstId}

theorem refl (r : Except Halt α) : Refines r r := ⟨fun _ => id, fun _ => id⟩

theorem bind {k k' : α → Except Halt β} (h : Refines r r') (hk : ∀ a, Refines (k a) (k' a)) :
    Refines (r >>= k) (r' >>= k') := by
  cases r with
  | ok a =>
    rw [h.ok a rfl]
    exact hk a
  | error e =>
    cases e with
    | error e => exact ⟨nofun, nofun⟩
    | thrown t =>
      rw [h.thrown t rfl]
      exact .refl _

section

variable (h : Carries ren f.values f'.values y)
include h

theorem get : Refines (f.get y) (f'.get (ren y)) :=
  ⟨fun v hv => Frame.get_eq_ok.2 (h v (Frame.get_eq_ok.1 hv)),
    fun _ ht => absurd ht Frame.get_ne_thrown⟩

theorem target :
    Refines (target f y) (target f' (ren y)) := (get h).bind fun _ => .refl _

theorem copyBound :
    Refines (copyBound f y) (copyBound f' (ren y)) := (get h).bind fun _ => .refl _

end

theorem eval {m : Machine} {body h op} (hv : ∀ y ∈ op.operands, Carries ren f.values f'.values y)
    (he : f'.exception = f.exception) :
    Refines (m.eval f h x op) ({ m with body }.eval f' h x (op.mapOperands ren)) := by
  cases op <;>
    simp only [Op.operands, mem_cons, not_mem_nil, or_false, forall_eq_or_imp,
      forall_eq] at hv
  case unary | newArray | storeGlobal | instanceOf | checkCast =>
    exact (get hv).bind fun _ => .refl _
  case binary | refEq => exact (get hv.1).bind fun _ => (get hv.2).bind fun _ => .refl _
  case loadField | arrayLength | loadClass | monitorEnter | monitorExit =>
    exact (target hv).bind fun _ => .refl _
  case storeField | rawStore | arrayFill =>
    exact (target hv.1).bind fun _ => (get hv.2).bind fun _ => .refl _
  case loadElem =>
    exact (target hv.1).bind fun _ => (refl _).bind fun _ => (get hv.2).bind fun _ => .refl _
  case storeElem =>
    exact (target hv.1).bind fun _ => (get hv.2.1).bind fun _ => (refl _).bind fun _ =>
      (refl _).bind fun _ => (refl _).bind fun _ => (get hv.2.2).bind fun _ => .refl _
  case arrayCopy =>
    exact (target hv.1).bind fun _ => (target hv.2.2.1).bind fun _ =>
      (copyBound hv.2.1).bind fun _ => (copyBound hv.2.2.2.1).bind fun _ =>
      (copyBound hv.2.2.2.2).bind fun _ => .refl _
  case exception =>
    simp only [Op.mapOperands, Machine.eval, he]
    exact .refl _
  all_goals exact .refl _

end Refines

theorem mapM_get_of_carries {f f' : Frame} {ren} {xs : List InstId} {vs}
    (hv : ∀ y ∈ xs, Carries ren f.values f'.values y) (h : xs.mapM f.get = .ok vs) :
    (xs.map ren).mapM f'.get = .ok vs := by
  rw [mapM_get_eq_ok] at h ⊢
  induction xs generalizing vs with
  | nil => simpa using h
  | cons x xs ih =>
    cases vs with
    | nil => cases h
    | cons v vs =>
      simp only [map_cons, List.cons.injEq] at h ⊢
      exact ⟨hv x (by simp) v h.1, ih (fun y hy => hv y (.tail _ hy)) h.2⟩

variable {σ : Type} {m : Machine} {host : Host σ} {body : Body} {s s' : RunState σ}
  {ren : InstId → InstId} {x : InstId} {op : Op} {heap : Heap} {state : σ}

section Operations

variable (hv : ∀ y ∈ op.operands, Carries ren s.frame.values s'.frame.values y)
  (he : s'.frame.exception = s.frame.exception) (hheap : s'.heap = s.heap)
  (hhost : s'.host = s.host)
include hv he hheap hhost

theorem Does.rename {v : Option Value} (h : m.Does host s x op v heap state) :
    { m with body }.Does host s' x (op.mapOperands ren) v heap state := by
  cases h with
  | plain hc heval =>
    rw [← hheap] at heval ⊢
    rw [← hhost]
    exact .plain ((op.isCall_mapOperands ren).trans hc) ((Refines.eval hv he).ok _ heval)
  | call ha hh =>
    refine .call (mapM_get_of_carries hv ha) ?_
    rw [hheap, hhost]
    exact hh

theorem Throws.rename {t : Thrown} (h : m.Throws host s x op t heap state) :
    { m with body }.Throws host s' x (op.mapOperands ren) t heap state := by
  cases h with
  | plain hc heval =>
    rw [← hheap] at heval ⊢
    rw [← hhost]
    exact .plain ((op.isCall_mapOperands ren).trans hc) ((Refines.eval hv he).thrown _ heval)
  | call ha hh =>
    refine .call (mapM_get_of_carries hv ha) ?_
    rw [hheap, hhost]
    exact hh

end Operations

end Machine

theorem DebugValue.Selects.mapInsts {values values'} {v leaf : DebugValue}
    (h : v.Selects values leaf) (hv : ∀ y ∈ v.insts, Carries ren values values' y) :
    (v.mapInsts ren).Selects values' (leaf.mapInsts ren) := by
  induction h with
  | value x => exact .value (ren x)
  | const c => exact .const c
  | object idx => exact .object idx
  | other hs => exact .other (hv _ (mem_insts_merge.2 (.inl rfl)) _ hs)
  | candidate hs hk hc _ ih =>
    have hmem := mem_of_getElem? hc
    refine .candidate (hv _ (mem_insts_merge.2 (.inl rfl)) _ hs) hk ?_
      (ih fun y hy => hv y (mem_insts_merge.2 (.inr (.inr ⟨_, hmem, hy⟩))))
    rw [mapInstsAll_eq_map, List.getElem?_map, hc, Option.map_some]

namespace Rebuild

variable {program : Program} {values values' : SideTable .inst Value} {recipes : List Recipe}
  {ren : InstId → InstId} {r r' : Rebuild}

def rename (ren : InstId → InstId) (recipes : List Recipe) : List Recipe :=
  recipes.map fun o => { o with fields := o.fields.map (DebugValue.mapInsts ren) }

theorem object_rename (r : Rebuild) (idx : Nat) :
    object program (rename ren recipes) r idx = object program recipes r idx := by
  simp only [object, rename, List.getElem?_map]
  cases r.built[idx]? with
  | none => rfl
  | some o =>
    cases o <;> cases recipes[idx]? <;> rfl

theorem eval_rename {v} {res : Value × Rebuild} (hv : ∀ y ∈ v.insts, Carries ren values values' y)
    (h : eval program values recipes r v = .ok res) :
    eval program values' (rename ren recipes) r (v.mapInsts ren) = .ok res := by
  obtain ⟨leaf, hs⟩ := exists_selects_of_eval h
  rw [eval_of_selects hs] at h
  rw [eval_of_selects (hs.mapInsts hv)]
  cases leaf with
  | value x =>
    obtain ⟨w, hx, rfl⟩ := eval_value.1 h
    exact eval_value.2 ⟨w, hv x hs.value_mem_insts w hx, rfl⟩
  | const c =>
    rw [eval] at h
    rw [DebugValue.mapInsts, eval]
    exact h
  | object idx =>
    rw [eval] at h
    rw [DebugValue.mapInsts, eval, object_rename]
    exact h
  | merge => exact absurd rfl hs.ne_merge

/-- A debug value of the one table has the meaning of another of the other table. -/
def Means (program : Program) (values values' : SideTable .inst Value)
    (recipes recipes' : List Recipe) (v v' : DebugValue) : Prop :=
  ∀ r res, eval program values recipes r v = .ok res →
    eval program values' recipes' r v' = .ok res

section Top

variable {recipes' : List Recipe} (top : DebugValue → DebugValue)

theorem evalAll_means : ∀ {vs : List DebugValue} {r : Rebuild} {res : List Value × Rebuild},
    (∀ v ∈ vs, Means program values values' recipes recipes' v (top v)) →
    evalAll program values recipes r vs = .ok res →
    evalAll program values' recipes' r (vs.map top) = .ok res
  | [], _, _, _, h => h
  | v :: vs, r, res, hm, h => by
    obtain ⟨⟨w, r1⟩, hw, h⟩ := bind_eq_ok.1 h
    obtain ⟨⟨ws, r2⟩, hws, h⟩ := bind_eq_ok.1 h
    exact bind_eq_ok.2 ⟨(w, r1), hm v (by simp) r _ hw, bind_eq_ok.2
      ⟨(ws, r2), evalAll_means (fun v hv => hm v (.tail _ hv)) hws, h⟩⟩

theorem evalMonitors_means {s} :
    ∀ {ms : List MonitorSlot} {r : Rebuild} {res : List Value × Rebuild},
    (∀ m ∈ ms, Means program values values' recipes recipes' m.obj (top m.obj)) →
    evalMonitors program values recipes s r ms = .ok res →
    evalMonitors program values' recipes' s r
      (ms.map fun m => { m with obj := top m.obj }) = .ok res
  | [], _, _, _, h => h
  | m :: ms, r, res, hm, h => by
    obtain ⟨⟨w, r1⟩, hw, h⟩ := bind_eq_ok.1 h
    obtain ⟨⟨ws, r2⟩, hws, h⟩ := bind_eq_ok.1 h
    obtain ⟨⟨u, r0⟩, hu, hw⟩ := bind_eq_ok.1 hw
    exact bind_eq_ok.2 ⟨(w, r1), bind_eq_ok.2 ⟨(u, r0), hm m (by simp) r _ hu, hw⟩,
      bind_eq_ok.2 ⟨(ws, r2),
        evalMonitors_means (fun m hm' => hm m (.tail _ hm')) hws, h⟩⟩

end Top

theorem fillFields_rename {slots o} : ∀ {fields : List DebugValue} {r r' : Rebuild}
    {idx : Nat}, (∀ v ∈ fields, ∀ y ∈ v.insts, Carries ren values values' y) →
    fillFields program values recipes slots o r idx fields = .ok r' →
    fillFields program values' (rename ren recipes) slots o r idx
      (fields.map (DebugValue.mapInsts ren)) = .ok r'
  | [], _, _, _, _, h => h
  | v :: fields, r, r', idx, hv, h => by
    obtain ⟨w, ty, r1, hw, hty, h⟩ := fillFields_cons_eq_ok.1 h
    exact fillFields_cons_eq_ok.2 ⟨w, ty, r1, eval_rename (hv v (by simp)) hw, hty,
      fillFields_rename (fun v hmem => hv v (.tail _ hmem)) h⟩

theorem fill_rename (hv : ∀ o ∈ recipes, ∀ v ∈ o.fields, ∀ y ∈ v.insts,
    Carries ren values values' y) : ∀ {n : Nat} {r r' : Rebuild},
    fill program values recipes n r = .ok r' →
    fill program values' (rename ren recipes) n r = .ok r'
  | 0, _, _, h => h
  | n + 1, r, r', h => by
    rw [fill] at h ⊢
    split at h
    · exact h
    · rename_i idx pending hpending
      cases hb : r.built[idx]? with
      | none => simp [hb] at h
      | some o =>
        cases hr : recipes[idx]? with
        | none => cases o <;> simp [hb, hr] at h
        | some recipe =>
          cases o with
          | none => simp [hb] at h
          | some o =>
            have hr' : (rename ren recipes)[idx]? =
                some { recipe with fields := recipe.fields.map (DebugValue.mapInsts ren) } := by
              simp [rename, hr]
            simp only [hb, hr] at h
            simp only [hr']
            obtain ⟨r1, hr1, h⟩ := bind_eq_ok.1 h
            exact bind_eq_ok.2 ⟨r1, fillFields_rename (hv recipe (mem_of_getElem? hr)) hr1,
              fill_rename hv h⟩

end Rebuild

/-- A debug state leads to the same answer after its instructions have been renamed and its locals
and monitors have been said in other words. -/
theorem Body.deoptimize_rename {body' : Body} {program heap values values' top sp state res}
    (hst : body.states.get? sp = some state)
    (hst' : body'.states.get? sp = some ((state.mapTop top).mapInsts ren))
    (htop : ∀ v ∈ state.locals ++ state.monitors.map MonitorSlot.obj, Rebuild.Means program values
      values' state.recipes (Rebuild.rename ren state.recipes) v ((top v).mapInsts ren)) (hrec : ∀ o
      ∈ state.recipes, ∀ v ∈ o.fields, ∀ y ∈ v.insts, Carries ren values values' y)
    (h : body.deoptimize program heap values sp = .ok res) :
    body'.deoptimize program heap values' sp = .ok res := by
  have hlen : (Rebuild.rename ren state.recipes).length = state.recipes.length := by
    simp [Rebuild.rename]
  have hlocals_eq : ((state.mapTop top).mapInsts ren).locals =
      state.locals.map fun v => (top v).mapInsts ren := by
    simp [DebugState.mapInsts, DebugState.mapTop]
  have hmonitors_eq : ((state.mapTop top).mapInsts ren).monitors =
      state.monitors.map fun m => { m with obj := (top m.obj).mapInsts ren } := by
    simp [DebugState.mapInsts, DebugState.mapTop]
  have hrecipes_eq : ((state.mapTop top).mapInsts ren).recipes =
      Rebuild.rename ren state.recipes := rfl
  simp only [deoptimize, hst] at h
  simp only [deoptimize, hst', hlocals_eq, hmonitors_eq, hrecipes_eq, hlen]
  obtain ⟨⟨locals, r1⟩, hlocals, h⟩ := bind_eq_ok.1 h
  obtain ⟨⟨monitors, r2⟩, hmonitors, h⟩ := bind_eq_ok.1 h
  obtain ⟨r3, hfill, h⟩ := bind_eq_ok.1 h
  have hlocals' := Rebuild.evalAll_means (fun v => (top v).mapInsts ren)
    (fun v hv => htop v (mem_append_left _ hv)) hlocals
  have hmonitors' := Rebuild.evalMonitors_means (fun v => (top v).mapInsts ren)
    (fun m hm => htop m.obj (mem_append_right _ (mem_map_of_mem hm))) hmonitors
  exact bind_eq_ok.2 ⟨(locals, r1), hlocals', bind_eq_ok.2
    ⟨(monitors, r2), hmonitors', bind_eq_ok.2 ⟨r3, Rebuild.fill_rename hrec hfill, h⟩⟩⟩

open Merges

/-- A body, its merges, and the body with the merges of `gone` taken apart. -/
structure Splitting (p : Program) (body : Body) where
  graph : Graph
  cands : List InstId
  merges : Merges
  replaced : Nat → Bool
  gone : List InstId
  splitter : Splitter
  extra : BlockId → List InstId
  table : List (InstId × DebugValue)
  dead : List InstId
  ren : InstId → InstId
  result : Body
  wf : body.WellFormed
  issued : body.Issued
  checked : body.Checked
  statesChecked : body.StatesChecked
  solved : graph.Solved p body
  faithful : merges.Faithful body graph cands
  apart : merges.Apart p body graph gone
  reduced : body.Reduced p graph merges replaced gone splitter extra table dead ren result

/-- The instruction is a part of a merge or a constant made for one. -/
def Splitter.Names (split : Splitter) (X : InstId) : Prop :=
  (∃ key, (key, X) ∈ split.parts) ∨ ∃ c, (c, X) ∈ split.consts

theorem Reduction.Replaced.names {p m gone split u X} (h : Replaced p body m gone split u X) :
    split.Names X := by
  cases h with
  | field phi f hphi hop h => exact .inl ⟨_, h⟩
  | isNull phi lhs rhs hphi hop hmem h => exact .inl ⟨_, h⟩
  | cls phi cls hphi hop hsh h => exact .inr ⟨_, h⟩
  | instanceOf phi exact cls hphi hop hsh h => exact .inr ⟨_, h⟩

namespace Splitting

variable {p : Program} {body : Body} (H : Splitting p body) {b : BlockId} {phi u x y X : InstId}
  {op : Op}

theorem described (hphi : phi ∈ H.gone) : Described body H.graph H.cands phi (H.merges.desc phi) :=
  H.faithful.described phi (H.apart.keys phi hphi)

theorem op?_of_dead (hu : u ∈ H.dead) : ∃ op, body.op? u = some op ∧ op.isAlloc = false ∧
    op.isCall = false ∧ (u ∉ H.gone → op.isPhi = false) := by
  by_cases hgone : u ∈ H.gone
  · obtain ⟨inputs, hop, -⟩ := (H.described hgone).inputs
    exact ⟨_, hop, rfl, rfl, fun hn => absurd hgone hn⟩
  · obtain ⟨op, hop, hphi, halloc, -, hcall⟩ :=
      ((H.reduced.why u hu).resolve_left hgone).exists_op
    exact ⟨op, hop, halloc, hcall, fun _ => hphi⟩

theorem ren_of_new (hy : body.insts.get? y = none) : H.ren y = y := by
  refine H.reduced.ren_of_not_dead y fun hd => ?_
  obtain ⟨op, hop, -⟩ := H.op?_of_dead hd
  obtain ⟨inst, hinst⟩ := Body.live_of_op? hop
  simp [hy] at hinst

theorem not_dead_of_alloc (hop : body.op? x = some op) (ha : op.isAlloc = true) : x ∉ H.dead := by
  intro hd
  obtain ⟨op', hop', ha', -⟩ := H.op?_of_dead hd
  obtain rfl := Option.mem_unique hop hop'
  simp [ha] at ha'

theorem not_dead_of_call (hop : body.op? x = some op) (hc : op.isCall = true) : x ∉ H.dead := by
  intro hd
  obtain ⟨op', hop', -, hc', -⟩ := H.op?_of_dead hd
  obtain rfl := Option.mem_unique hop hop'
  simp [hc] at hc'

theorem names_fresh (hX : H.splitter.Names X) : body.insts.get? X = none := by
  rcases hX with ⟨key, h⟩ | ⟨c, h⟩
  · exact (H.reduced.built.parts _ h).1
  · exact (H.reduced.built.consts _ h).1

theorem ne_of_names (hX : H.splitter.Names X) (hop : body.op? x = some op) : X ≠ x := by
  rintro rfl
  obtain ⟨inst, hinst⟩ := Body.live_of_op? hop
  simp [H.names_fresh hX] at hinst

theorem available_input (hphi : phi ∈ H.gone) {inputs} (hop : body.op? phi = some (.phi inputs)) {e}
    (he : e ∈ inputs) : body.Available e.2 e.1 (body.block e.1).insts.length := by
  have hd := H.described hphi
  obtain ⟨i, hi⟩ := mem_iff_getElem?.1 (Body.mem_insts_of_mem_phis hd.mem_phis)
  obtain ⟨op', hop', hcheck⟩ := H.checked.inst _ hd.reachable i phi hi
  obtain rfl := Option.mem_unique hop hop'
  exact (hcheck.phi inputs rfl).available e he

theorem leaf_input {n} (hphi : phi ∈ H.gone) (hin : (b, .alloc n x) ∈ (H.merges.desc phi).inputs) :
    (∃ op, body.op? x = some op ∧ op.isAlloc = true) ∧ H.graph.allocOf.get? x = some n ∧
      body.Available x b (body.block b).insts.length ∧
      .alloc n x ∈ (H.merges.desc phi).leaves := by
  obtain ⟨inputs, hop, hinputs⟩ := (H.described hphi).inputs
  have hleaf : .alloc n x ∈ (H.merges.desc phi).leaves := by
    rw [(H.apart.summarized phi hphi).leaves]
    exact mem_flatMap.2 ⟨_, hin, by simp [inputLeaves]⟩
  rw [hinputs] at hin
  obtain ⟨e, he, heq⟩ := mem_map.1 hin
  obtain ⟨rfl, hof⟩ := Prod.mk.inj heq
  obtain ⟨rfl, halloc, hn⟩ := MergeInput.of_eq_alloc hof
  exact ⟨halloc, hn, H.available_input hphi hop he, hleaf⟩

theorem leafLoad {f} (hy : y ∈ H.extra b) (hop : H.splitter.body.op? y = some (.loadField x f)) :
    Splitter.LeafLoad p H.graph H.merges H.gone b x f ∧ body.insts.get? y = none := by
  obtain ⟨hfresh, x', f', hop', hleaf⟩ := H.reduced.built.loads b y hy
  obtain ⟨rfl, rfl⟩ : x' = x ∧ f' = f := by simpa [hop] using hop'.symm
  exact ⟨hleaf, hfresh⟩

theorem op?_load {f} (hy : y ∈ H.extra b) (hop : H.splitter.body.op? y = some (.loadField x f)) :
    H.result.op? y = some (.loadField x f) := by
  obtain ⟨⟨phi, hphi, n, hin, -⟩, hfresh⟩ := H.leafLoad hy hop
  obtain ⟨⟨op, hx, halloc⟩, -⟩ := H.leaf_input hphi hin
  rw [H.reduced.op_new y _ hfresh hop (by simp), Op.mapOperands,
    H.reduced.ren_of_not_dead x (H.not_dead_of_alloc hx halloc)]

theorem op?_const {c} (h : (c, y) ∈ H.splitter.consts) : H.result.op? y = some (.const c) :=
  H.reduced.op_new y _ (H.reduced.built.consts _ h).1 (H.reduced.built.consts _ h).2 (by simp)

theorem load_ne_of_names (hy : y ∈ H.extra b) (hX : H.splitter.Names X) : X ≠ y := by
  rintro rfl
  obtain ⟨-, x, f, hop, -⟩ := H.reduced.built.loads b X hy
  rcases hX with ⟨key, h⟩ | ⟨c, h⟩
  · obtain ⟨-, -, -, inputs, hop', -⟩ := H.reduced.built.parts _ h
    simp [hop] at hop'
  · simpa [hop] using (H.reduced.built.consts _ h).2

end Splitting

namespace MergePart

/-- What a part holds if the merge is `v` and turned out to be the leaf with number `k`. Fields
depend on the heap and are told elsewhere. -/
def value (replaced : Nat → Bool) (leaf : Leaf) (k : Nat) (v : Value) : MergePart → Value
  | isNull => .int (if v = .null then 1 else 0)
  | selector start =>
    match leaf with
    | .alloc n _ => .int (if replaced n then .ofNat (start + k) else -1)
    | .null => .int (-1)
  | kept =>
    match leaf with
    | .alloc n _ => if replaced n then .null else v
    | .null => v
  | field _ => v

end MergePart

namespace Machine

variable {σ : Type}

abbrev split (m : Machine) (H : Splitting m.program m.body) : Machine := { m with body := H.result }

/-- The point that a run has come to. A block that has not been entered yet is the end of the block
that control comes from. -/
def here (m : Machine) (s : RunState σ) : Point :=
  match s.rest with
  | some rest => .before s.frame.block (m.body.position s.frame.block (some rest))
  | none => .atEnd (s.frame.pred.getD s.frame.block)

variable (m : Machine) (H : Splitting m.program m.body) (org : ObjRef → Option Nat)

/-- The merge `phi` holds `v`, which is its leaf number `k`, and so do its parts. -/
structure Resolved (s : RunState σ) (values' : SideTable .inst Value) (phi : InstId) (v : Value)
    (k : Nat) (leaf : Leaf) : Prop where
  found : (H.merges.desc phi).leaves[k]? = some leaf
  leads : m.body.flow.Leads (H.merges.desc phi).block (m.here s).block
  null : leaf = .null → v = .null
  alloc : ∀ n x, leaf = .alloc n x → ∃ op, m.body.op? x = some op ∧ op.isAlloc = true
  object : ∀ n x, leaf = .alloc n x → ∃ o, v = .ref o ∧ org o = some n ∧
    (Clean m.body H.merges (reallocOf (H.merges.desc phi)) phi (m.here s) →
      s.frame.values.get? x = some v)
  part : ∀ part X, ((phi, part), X) ∈ H.splitter.parts → (∀ f, part ≠ .field f) →
    values'.get? X = some (part.value H.replaced leaf k v)
  field : ∀ f X, ((phi, .field f), X) ∈ H.splitter.parts → ∃ w, values'.get? X = some w ∧
    (Clean m.body H.merges (clobberOf m.program m.body H.graph (H.merges.desc phi) f) phi
      (m.here s) → ∀ o, v = .ref o → s.heap.HasField m.program o f w)

/-- The values of the new run tell those of the original. -/
structure Related (s : RunState σ) (values' : SideTable .inst Value) : Prop where
  agree : ∀ x op, m.body.op? x = some op → x ∉ H.dead →
    values'.get? x = s.frame.values.get? x
  carries : ∀ u ∈ H.dead, u ∉ H.gone → m.Reached s u → Carries H.ren s.frame.values values' u
  merges : ∀ phi ∈ H.gone, ∀ v, s.frame.values.get? phi = some v →
    ∃ k leaf, m.Resolved H org s values' phi v k leaf
  consts : s.rest = none ∧ s.frame.pred = none ∨
    ∀ e ∈ H.splitter.consts, values'.get? e.2 = some e.1.toValue

/-- The loads `ys` have been run, and what they read is still there. -/
def Loaded (ys : List InstId) (s : RunState σ) (values' : SideTable .inst Value) : Prop :=
  ∀ y ∈ ys, ∀ x f, H.splitter.body.op? y = some (.loadField x f) → ∃ o w,
    s.frame.values.get? x = some (.ref o) ∧ s.heap.HasField m.program o f w ∧
      values'.get? y = some w

/-- What is left to run of a block, in the original and in the new body. -/
inductive Aligned (s s' : RunState σ) : Prop
  | entering (h : s.rest = none) (h' : s'.rest = none)
      (hp : ∀ p, s.frame.pred = some p → m.Loaded H (H.extra p) s s'.frame.values)
      (hstart : s.frame.pred = none → ∀ x, s.frame.values.get? x = none)
  | main (pre : List InstId) (hpre : pre <:+ m.body.mainCode s.frame.block)
      (h : s.rest = some (pre ++ m.body.lastCall s.frame.block))
      (h' : s'.rest = some (pre.filter (· ∉ H.dead) ++
        (H.extra s.frame.block ++ m.body.lastCall s.frame.block)))
  | last (r : List InstId) (hr : r <:+ m.body.lastCall s.frame.block) (h : s.rest = some r)
      (h' : s'.rest = some r)
      (hloaded : m.Loaded H (H.extra s.frame.block) s s'.frame.values)

/-- The two runs agree but for the place in the block. -/
structure Beside (s s' : RunState σ) : Prop where
  related : m.Related H org s s'.frame.values
  framed : (m.split H).Framed s'
  block : s'.frame.block = s.frame.block
  pred : s'.frame.pred = s.frame.pred
  exception : s'.frame.exception = s.frame.exception
  heap : s'.heap = s.heap
  host : s'.host = s.host

/-- The two runs are in step. -/
structure InStep (s s' : RunState σ) : Prop extends m.Beside H org s s' where
  aligned : m.Aligned H s s'

section Related

variable {m H org} {org' : ObjRef → Option Nat} {holds : σ → ObjRef → Prop} {s s' t : RunState σ}
  {values' values'' : SideTable .inst Value} {phi x y : InstId} {v : Value} {k : Nat} {leaf : Leaf}
  {rest : List InstId} {op : Op}

theorem here_of_rest (h : s.rest = some rest) :
    m.here s = .before s.frame.block (m.body.position s.frame.block (some rest)) := by
  simp only [here, h]

/-- A merge stays resolved while nothing it was resolved by goes away. -/
theorem Resolved.move (h : m.Resolved H org s values' phi v k leaf)
    (hleads : m.body.flow.Leads (H.merges.desc phi).block (m.here t).block)
    (horg : ∀ o, v = .ref o → org' o = org o)
    (hclean : ∀ hit, Clean m.body H.merges hit phi (m.here t) →
      Clean m.body H.merges hit phi (m.here s))
    (hvalue : ∀ n x, leaf = .alloc n x →
      Clean m.body H.merges (reallocOf (H.merges.desc phi)) phi (m.here t) →
      t.frame.values.get? x = s.frame.values.get? x)
    (hparts : ∀ part X w, ((phi, part), X) ∈ H.splitter.parts → values'.get? X = some w →
      values''.get? X = some w)
    (hfield : ∀ o n x f w, leaf = .alloc n x → org o = some n →
      Clean m.body H.merges (clobberOf m.program m.body H.graph (H.merges.desc phi) f) phi
        (m.here t) → s.heap.HasField m.program o f w → t.heap.HasField m.program o f w) :
    m.Resolved H org' t values'' phi v k leaf where
  found := h.found
  leads := hleads
  null := h.null
  alloc := h.alloc
  object n x hleaf := by
    obtain ⟨o, hv, ho, hx⟩ := h.object n x hleaf
    exact ⟨o, hv, (horg o hv).trans ho, fun hc =>
      (hvalue n x hleaf hc).trans (hx (hclean _ hc))⟩
  part part X hX hne := hparts _ _ _ hX (h.part part X hX hne)
  field f X hX := by
    obtain ⟨w, hw, hf⟩ := h.field f X hX
    refine ⟨w, hparts _ _ _ hX hw, fun hc o hv => ?_⟩
    cases leaf with
    | null => simp [h.null rfl] at hv
    | alloc n x =>
      obtain ⟨o', hv', ho, -⟩ := h.object n x rfl
      obtain rfl : o' = o := by simpa [hv] using hv'.symm
      exact hfield _ n x f w rfl ho hc (hf (hclean _ hc) _ hv)

theorem Related.carries_of (h : m.Related H org s values') (hf : m.Framed s) (hy : y ∉ H.gone)
    (hr : m.Reached s y) : Carries H.ren s.frame.values values' y := by
  by_cases hd : y ∈ H.dead
  · exact h.carries y hd hy hr
  · intro v hv
    obtain ⟨inst, hinst⟩ := hf y v hv
    rw [H.reduced.ren_of_not_dead y hd, 
      h.agree y inst.op (Body.op?_eq_some_iff.2 ⟨inst, hinst, rfl⟩) hd, hv]

theorem Related.congr (h : m.Related H org s values')
    (hold : ∀ x op, m.body.op? x = some op → x ∉ H.dead → values''.get? x = values'.get? x)
    (hnew : ∀ X w, H.splitter.Names X → values'.get? X = some w → values''.get? X = some w) :
    m.Related H org s values'' where
  agree x op hop hd := (hold x op hop hd).trans (h.agree x op hop hd)
  carries u hu hgone hr v hv := by
    have hX := ((H.reduced.why u hu).resolve_left hgone).names
    exact hnew _ _ hX (h.carries u hu hgone hr v hv)
  merges phi hphi v hv := by
    obtain ⟨k, leaf, hres⟩ := h.merges phi hphi v hv
    exact ⟨k, leaf, hres.move hres.leads (fun _ _ => rfl) (fun _ => id) (fun _ _ _ _ => rfl)
      (fun part X w hX => hnew X w (.inl ⟨_, hX⟩)) fun _ _ _ _ _ _ _ _ => id⟩
  consts := h.consts.imp_right fun hc e he => hnew _ _ (.inr ⟨_, he⟩) (hc e he)

end Related

end Machine

end EscapeAnalysis
