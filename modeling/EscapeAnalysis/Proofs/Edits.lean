import EscapeAnalysis.Ir.Edit
import EscapeAnalysis.Proofs.Availability

/-!
# What edits do to a body

One equation for each edit and each table it touches. The outline of a body is what others see of
it: its signature, its control flow, the instructions that deal with the world outside the method,
and the sizes of its debug states. The inventory is what it has in allocations. An edit that shows
the same outline and the same inventory, and does not bring back what has been removed before,
leaves a body that is alike (`Body.Alike`).
-/

namespace EscapeAnalysis

open List SlotTable

variable {α : Type} {p : α → Bool}

theorem insertIdx_length (x : α) : ∀ l₁ l₂ : List α,
    (l₁ ++ l₂).insertIdx l₁.length x = l₁ ++ x :: l₂
  | [], _ => by simp
  | a :: l₁, l₂ => by simp [insertIdx_length x l₁ l₂]

theorem filter_insertIdx {x} (hx : p x = false) :
    ∀ (l : List α) (i : Nat), (l.insertIdx i x).filter p = l.filter p
  | [], 0 => by simp [hx]
  | [], _ + 1 => rfl
  | _ :: _, 0 => by simp [hx]
  | a :: l, i + 1 => by
    rw [insertIdx_succ_cons, filter_cons, filter_cons, filter_insertIdx hx l i]

theorem takeWhile_append_of_all {l₁ l₂ : List α}
    (h1 : ∀ a ∈ l₁, p a = true) (h2 : ∀ a ∈ l₂, p a = false) : (l₁ ++ l₂).takeWhile p = l₁ := by
  rw [takeWhile_append_of_pos h1]
  cases l₂ with
  | nil => simp
  | cons a l₂ => simp [h2 a (by simp)]

theorem dropWhile_append_of_all {l₁ l₂ : List α}
    (h1 : ∀ a ∈ l₁, p a = true) (h2 : ∀ a ∈ l₂, p a = false) : (l₁ ++ l₂).dropWhile p = l₂ := by
  rw [dropWhile_append_of_pos h1]
  cases l₂ with
  | nil => simp
  | cons a l₂ => simp [h2 a (by simp)]

namespace Body

variable {body body' : Body} {b d : BlockId} {x y : InstId} {op : Op} {ty : Option Ty}
  {block : Block} {l₁ l₂ : List InstId} {idx : Nat}

theorem op?_eq_some_iff : body.op? x = some op ↔
    ∃ inst, body.insts.get? x = some inst ∧ inst.op = op := by
  simp [op?, inst?]

theorem op?_congr (h : body'.insts.get? x = body.insts.get? x) :
    body'.op? x = body.op? x := by simp [op?, inst?, h]

theorem isPhi_of_op? (h : body.op? x = some op) : body.isPhi x = op.isPhi := by simp [isPhi, h]

theorem Checked.phis_code_of_filter (hc : body.Checked) (hb : b ∈ body.order)
    {keep : InstId → Bool} (hinsts : (body'.block b).insts = (body.block b).insts.filter keep)
    (hphis : ∀ x ∈ body.phis b, keep x = true)
    (hsame : ∀ x ∈ (body.block b).insts, keep x = true → body'.isPhi x = body.isPhi x) :
    body'.phis b = body.phis b ∧ body'.code b = (body.code b).filter keep := by
  rw [insts_eq body, filter_append, filter_eq_self.2 hphis] at hinsts
  have hlead : ∀ x ∈ body.phis b, body'.isPhi x = true := fun x hx =>
    (hsame x (mem_insts_of_mem_phis hx) (hphis x hx)).trans (isPhi_of_mem_phis hx)
  have hrest : ∀ x ∈ (body.code b).filter keep, body'.isPhi x = false := by
    intro x hx
    obtain ⟨hx, hkept⟩ := mem_filter.1 hx
    have hmem := mem_insts_of_mem_code hx
    obtain ⟨inst, hinst⟩ := hc.live hb hmem
    have hop := op?_eq_some_iff.2 ⟨inst, hinst, rfl⟩
    rw [hsame x hmem hkept, isPhi_of_op? hop]
    exact hc.not_isPhi_of_mem_code hb hx hop
  rw [phis, code, hinsts]
  exact ⟨takeWhile_append_of_all hlead hrest, dropWhile_append_of_all hlead hrest⟩

section ModifyBlock

variable (g : Block → Block)

theorem block_modifyBlock {block} (hb : body.blocks.get? b = some block) :
    (body.modifyBlock b g).block d = if d = b then g (body.block b) else body.block d := by
  by_cases hd : d = b
  · subst hd
    simp [modifyBlock, Body.block, get?_modify, hb]
  · simp [modifyBlock, Body.block, get?_modify, hd]

theorem WellFormed.modifyBlock (h : body.WellFormed) (b : BlockId) :
    (body.modifyBlock b g).WellFormed where
  blocks := h.blocks.modify b g
  insts := h.insts
  states := h.states
  entry := by
    obtain ⟨block, hblock⟩ := h.entry
    by_cases he : body.entry = b
    · exact ⟨g block, by simp [Body.modifyBlock, get?_modify, ← he, hblock]⟩
    · exact ⟨block, by simp [Body.modifyBlock, get?_modify, he, hblock]⟩

end ModifyBlock

section AddInst

variable (hwf : body.WellFormed) (op ty)
include hwf

theorem get?_addInst (y : InstId) : (body.addInst op ty).2.insts.get? y =
    if y = (body.addInst op ty).1 then some { op, ty } else body.insts.get? y :=
  get?_insert hwf.insts _ y

theorem get?_addInst_fst : body.insts.get? (body.addInst op ty).1 = none :=
  get?_insert_fst hwf.insts _

theorem WellFormed.addInst : (body.addInst op ty).2.WellFormed :=
  ⟨hwf.blocks, hwf.insts.insert _, hwf.states, hwf.entry⟩

end AddInst

theorem insts_place (hb : body.blocks.get? b = some block) (hl : (body.block b).insts = l₁ ++ l₂) :
    ((body.place x b l₁.length).block d).insts =
      if d = b then l₁ ++ x :: l₂ else (body.block d).insts := by
  rw [place, block_modifyBlock _ hb]
  split
  · simp [hl, insertIdx_length]
  · rfl

theorem term_place (hb : body.blocks.get? b = some block) :
    ((body.place x b idx).block d).term = (body.block d).term := by
  rw [place, block_modifyBlock _ hb]
  split
  · rename_i hd
    rw [hd]
  · rfl

theorem mem_insts_place (h : y ∈ ((body.place x b idx).block d).insts) :
    y = x ∨ y ∈ (body.block d).insts := by
  simp only [place, modifyBlock, Body.block, get?_modify] at h ⊢
  split at h
  · rcases hb : body.blocks.get? d with _ | block
    · rw [hb] at h
      exact .inr h
    · rw [hb] at h
      exact (mem_insertIdx (Nat.min_le_right _ _)).1 h
  · exact .inr h

/-- `body'` is `body` with the new instruction `x` placed in block `b`, between `l₁` and `l₂`. -/
structure Inserts (body : Body) (x : InstId) (op : Op) (b : BlockId) (l₁ l₂ : List InstId)
    (body' : Body) : Prop where
  wf : body'.WellFormed
  fresh : body.insts.get? x = none
  op : body'.op? x = some op
  old : ∀ y, y ≠ x → body'.insts.get? y = body.insts.get? y
  insts : ∀ d, (body'.block d).insts = if d = b then l₁ ++ x :: l₂ else (body.block d).insts
  term : ∀ d, (body'.block d).term = (body.block d).term
  live : ∀ d block, body.blocks.get? d = some block → ∃ block, body'.blocks.get? d = some block
  states : body'.states = body.states
  entry : body'.entry = body.entry
  params : body'.params = body.params

theorem inserts_place (hwf : body.WellFormed) {i} (op : Op) (ty : Option Ty)
    (hb : body.blocks.get? b = some block) (hl : (body.block b).insts = l₁ ++ l₂)
    (hi : i = l₁.length) :
    body.Inserts (body.addInst op ty).1 op b l₁ l₂
      ((body.addInst op ty).2.place (body.addInst op ty).1 b i) where
  wf := (hwf.addInst op ty).modifyBlock _ b
  fresh := get?_addInst_fst op ty hwf
  op := op?_eq_some_iff.2 ⟨{ op, ty }, (get?_addInst op ty hwf _).trans (if_pos rfl), rfl⟩
  old y hy := (get?_addInst op ty hwf y).trans (if_neg hy)
  insts d := by
    have hb' : (body.addInst op ty).2.blocks.get? b = some block := hb
    exact hi ▸ insts_place hb' hl
  term d := by
    have hb' : (body.addInst op ty).2.blocks.get? b = some block := hb
    exact term_place hb'
  live d block' hd := by
    by_cases h : d = b
    · exact ⟨_, (get?_modify ..).trans (by rw [if_pos h]; exact congrArg _ hd)⟩
    · exact ⟨_, (get?_modify ..).trans (by rw [if_neg h]; exact hd)⟩
  states := rfl
  entry := rfl
  params := rfl

namespace Inserts

variable {l₁ l₂ : List InstId} {body' : Body}

variable (h : body.Inserts x op b l₁ l₂ body')
include h

theorem op?_of_ne (hy : y ≠ x) :
    body'.op? y = body.op? y := op?_congr (h.old y hy)

theorem op?_of_live {op'} (hy : body.op? y = some op') : body'.op? y = some op' := by
  rw [h.op?_of_ne, hy]
  rintro rfl
  obtain ⟨inst, hinst⟩ := live_of_op? hy
  simp [h.fresh] at hinst

theorem get?_of_live {inst}
    (hy : body.insts.get? y = some inst) : body'.insts.get? y = some inst := by
  rw [h.old, hy]
  rintro rfl
  simp [h.fresh] at hy

end Inserts

section RemoveInsts

variable (dead : List InstId)

theorem get?_removeInsts (x : InstId) : (body.removeInsts dead).insts.get? x =
    if x ∈ dead ++ body.barriersOf dead then none else body.insts.get? x := by
  simp only [removeInsts, get?_filter]
  split
  · rename_i h
    cases body.insts.get? x <;> simp [Option.filter, h]
  · rename_i h
    cases body.insts.get? x <;> simp [Option.filter, h]

theorem op?_removeInsts (x : InstId) : (body.removeInsts dead).op? x =
    if x ∈ dead ++ body.barriersOf dead then none else body.op? x := by
  rw [op?, inst?, get?_removeInsts]
  split <;> rfl

theorem block_removeInsts (b : BlockId) : (body.removeInsts dead).block b =
    { body.block b with
      insts := (body.block b).insts.filter (· ∉ dead ++ body.barriersOf dead) } := by
  simp only [removeInsts, Body.block, get?_map]
  cases body.blocks.get? b <;> simp [default, instInhabitedBlock.default]

theorem WellFormed.removeInsts (h : body.WellFormed) : (body.removeInsts dead).WellFormed where
  blocks := h.blocks.map _
  insts := h.insts.filter fun x _ => x ∉ dead ++ body.barriersOf dead
  states := h.states
  entry := by
    obtain ⟨block, hblock⟩ := h.entry
    exact ⟨_, by rw [Body.removeInsts, get?_map, hblock]; rfl⟩

theorem mem_barriersOf : x ∈ body.barriersOf dead ↔
    ∃ store ∈ dead, body.op? x = some (.barrier store) := by
  simp only [barriersOf, mem_filterMap, Prod.exists, mem_toList_iff]
  constructor
  · rintro ⟨y, inst, hy, h⟩
    split at h
    · rename_i store hop
      split at h
      · rename_i hs
        cases h
        exact ⟨store, hs, op?_eq_some_iff.2 ⟨inst, hy, hop⟩⟩
      · cases h
    · cases h
  · rintro ⟨store, hs, hop⟩
    obtain ⟨inst, hx, hop⟩ := op?_eq_some_iff.1 hop
    exact ⟨x, inst, hx, by simp [hop, hs]⟩

end RemoveInsts

section MapOperands

variable (r : InstId → InstId)

theorem op?_mapOperands (x : InstId) :
    (body.mapOperands r).op? x = (body.op? x).map (Op.mapOperands r) := by
  simp only [Body.mapOperands, op?, inst?, get?_map, Option.map_map]
  rfl

theorem block_mapOperands (b : BlockId) : (body.mapOperands r).block b =
    { body.block b with term := (body.block b).term.mapOperand r } := by
  simp only [Body.mapOperands, Body.block, get?_map]
  cases body.blocks.get? b <;>
    simp [default, instInhabitedBlock.default, Terminator.mapOperand]

theorem WellFormed.mapOperands (h : body.WellFormed) : (body.mapOperands r).WellFormed where
  blocks := h.blocks.map _
  insts := h.insts.map _
  states := h.states.map _
  entry := by
    obtain ⟨block, hblock⟩ := h.entry
    exact ⟨_, by rw [Body.mapOperands, get?_map, hblock]; rfl⟩

end MapOperands

end Body

/-- What an instruction has to do with the world outside the method. -/
inductive Outward where
  | param (idx : Nat)
  | call (callee : CalleeId) (state : SafepointId)
  | loadGlobal (global : GlobalId)
  | storeGlobal (global : GlobalId)
  | safepoint (state : SafepointId)
  | exception
deriving DecidableEq

def Op.outward? : Op → Option Outward
  | param idx => some (.param idx)
  | call c => some (.call c.callee c.safepoint)
  | loadGlobal global => some (.loadGlobal global)
  | storeGlobal global _ => some (.storeGlobal global)
  | safepoint state => some (.safepoint state)
  | exception => some .exception
  | _ => none

@[simp] theorem Op.outward?_mapOperands (r : InstId → InstId) (op : Op) :
    (op.mapOperands r).outward? = op.outward? := by
  cases op <;> rfl

def Terminator.bare (t : Terminator) : Terminator := t.mapOperand fun _ => .null

@[simp] theorem Terminator.bare_mapOperand (r : InstId → InstId) (t : Terminator) :
    (t.mapOperand r).bare = t.bare := by
  cases t <;> simp [bare, mapOperand, Function.comp_def]

theorem Terminator.targets_bare (t : Terminator) : t.bare.targets = t.targets := by
  cases t <;> rfl

/-- What is seen of a block: its name, where control goes from it, and the instructions that deal
with the outside, in order. -/
structure BlockOutline where
  name : String
  term : Terminator
  insts : List InstId
deriving DecidableEq

/-- What is seen of a body. -/
@[ext]
structure Outline where
  entry : BlockId
  params : List Ty
  ret : Option Ty
  outward : InstId → Option Outward
  blocks : BlockId → Option BlockOutline
  states : SafepointId → Option (Nat × Nat)

def Block.outline (outward : InstId → Option Outward) (block : Block) : BlockOutline :=
  { name := block.name, term := block.term.bare
    insts := block.insts.filter fun x => (outward x).isSome }

def DebugState.sizes (s : DebugState) : Nat × Nat := (s.locals.length, s.monitors.length)

@[simp] theorem DebugState.sizes_mapTop (g : DebugValue → DebugValue) (s : DebugState) :
    (s.mapTop g).sizes = s.sizes := by
  simp [sizes, mapTop]

namespace Body

def outward? (body : Body) (x : InstId) : Option Outward := (body.op? x).bind Op.outward?

def outline (body : Body) : Outline where
  entry := body.entry
  params := body.params
  ret := body.ret
  outward := body.outward?
  blocks b := (body.blocks.get? b).map (Block.outline body.outward?)
  states s := (body.states.get? s).map DebugState.sizes

variable {body body' : Body} {x : InstId} {op : Op} {b : BlockId}

theorem outward?_of_outline (h : body'.outline = body.outline) (x : InstId) :
    body'.outward? x = body.outward? x := congrFun (congrArg Outline.outward h) x

theorem outward?_of_op? (h : body.op? x = some op) : body.outward? x = op.outward? := by
  rw [outward?, h, Option.bind_some]

theorem mem_order_of_outline (h : body'.outline = body.outline) (hb : b ∈ body'.order) :
    b ∈ body.order := by
  have hblocks : ∀ d block', body'.blocks.get? d = some block' →
      ∃ block, body.blocks.get? d = some block ∧ block.term.bare = block'.term.bare := by
    intro d block' hd
    have hsame := congrFun (congrArg Outline.blocks h) d
    simp only [outline, hd, Option.map_some] at hsame
    obtain ⟨block, hblock, heq⟩ := Option.map_eq_some_iff.1 hsame.symm
    exact ⟨block, hblock, congrArg BlockOutline.term heq⟩
  have hedge : ∀ p s, body'.flow.Edge p s → body.flow.Edge p s := by
    intro p s he
    rw [edge_iff, mem_flow_blocks] at he ⊢
    obtain ⟨hsucc, block', hs⟩ := he
    obtain ⟨block, hblock, -⟩ := hblocks s block' hs
    refine ⟨?_, block, hblock⟩
    obtain ⟨block', hp⟩ := mem_flow_blocks.1 (mem_flow_blocks_of_succ hsucc)
    obtain ⟨block, hblock, hbare⟩ := hblocks p block' hp
    simp only [flow, Body.block, hp, hblock, Option.getD_some] at hsucc ⊢
    rwa [← Terminator.targets_bare, hbare, Terminator.targets_bare]
  have hpath : ∀ l, body'.flow.Path l → body.flow.Path l := by
    intro l hl
    induction hl with
    | entry =>
      have hentry : body'.flow.entry = body.flow.entry := congrArg Outline.entry h
      exact hentry ▸ .entry
    | step _ he ih => exact .step ih (hedge _ _ he)
  obtain ⟨l, hl⟩ := mem_order_iff.1 hb
  exact mem_order_iff.2 ⟨l, hpath _ hl⟩

/-- Bodies with the same blocks and states have the same outline if their instructions deal alike
with the outside. -/
theorem outline_withInsts (insts : SlotTable .inst Inst)
    (h : ∀ x, { body with insts }.outward? x = body.outward? x) :
    { body with insts }.outline = body.outline := by
  have hout : { body with insts }.outward? = body.outward? := funext h
  simp only [outline, hout]

theorem outward?_addInst (hwf : body.WellFormed) (hop : op.outward? = none) (ty : Option Ty)
    (x : InstId) : (body.addInst op ty).2.outward? x = body.outward? x := by
  simp only [outward?, op?, inst?, get?_addInst op ty hwf]
  split
  · rename_i hx
    rw [hx, get?_addInst_fst op ty hwf]
    exact hop
  · rfl

theorem outline_modifyBlock {g}
    (h : ∀ block, (g block).outline body.outward? = block.outline body.outward?) :
    (body.modifyBlock b g).outline = body.outline := by
  have hblocks : ∀ d, ((body.modifyBlock b g).blocks.get? d).map (Block.outline body.outward?) =
      (body.blocks.get? d).map (Block.outline body.outward?) := by
    intro d
    simp only [modifyBlock, get?_modify]
    split
    · simp [Function.comp_def, h]
    · rfl
  exact Outline.ext rfl rfl rfl rfl (funext hblocks) rfl

theorem outline_place (hx : body.outward? x = none) (b : BlockId) (idx : Nat) :
    (body.place x b idx).outline = body.outline := by
  have hout : (body.outward? x).isSome = false := by rw [hx, Option.isSome_none]
  refine outline_modifyBlock fun block => ?_
  simp only [Block.outline, filter_insertIdx (p := fun y => (body.outward? y).isSome) hout]

theorem outline_addPlaced (hwf : body.WellFormed) (hop : op.outward? = none) (ty : Option Ty)
    (b : BlockId) (idx : Nat) :
    ((body.addInst op ty).2.place (body.addInst op ty).1 b idx).outline = body.outline := by
  refine (outline_place ?_ b idx).trans (outline_withInsts _ (outward?_addInst hwf hop ty))
  rw [outward?_addInst hwf hop, outward?, op?, inst?, get?_addInst_fst op ty hwf]
  rfl

theorem outline_setOp (hx : body.outward? x = none) (hop : op.outward? = none) :
    (body.setOp x op).outline = body.outline := by
  refine outline_withInsts _ fun y => ?_
  simp only [outward?, op?, inst?, get?_modify] at hx ⊢
  split
  · rename_i hy
    subst hy
    rw [hx]
    cases body.insts.get? y <;> simp [hop]
  · rfl

theorem outline_modifyState {s g} (h : ∀ st, body.states.get? s = some st → (g st).sizes = st.sizes)
    : (body.modifyState s g).outline = body.outline := by
  have hstates : ∀ t, ((body.modifyState s g).states.get? t).map DebugState.sizes =
      (body.states.get? t).map DebugState.sizes := by
    intro t
    simp only [modifyState, get?_modify]
    split
    · rename_i ht
      subst ht
      rcases hst : body.states.get? t with _ | st
      · rfl
      · simp [h st hst]
    · rfl
  exact Outline.ext rfl rfl rfl rfl rfl (funext hstates)

theorem outline_mapStates {g} (h : ∀ st, (g st).sizes = st.sizes) :
    { body with states := body.states.map g }.outline = body.outline := by
  have hstates : ∀ t, ((body.states.map g).get? t).map DebugState.sizes =
      (body.states.get? t).map DebugState.sizes := by
    intro t
    simp [Function.comp_def, h]
  exact Outline.ext rfl rfl rfl rfl rfl (funext hstates)

theorem outline_mapInsts {g} (h : ∀ inst, (g inst).op.outward? = inst.op.outward?) :
    { body with insts := body.insts.map g }.outline = body.outline := by
  refine outline_withInsts _ fun x => ?_
  simp only [outward?, op?, inst?, get?_map]
  cases body.insts.get? x <;> simp [h]

theorem outline_mapOperands (r : InstId → InstId) :
    (body.mapOperands r).outline = body.outline := by
  have hout : (body.mapOperands r).outward? = body.outward? := by
    funext x
    rw [outward?, outward?, op?_mapOperands]
    cases body.op? x <;> simp
  have hblocks : ∀ d, ((body.mapOperands r).blocks.get? d).map (Block.outline body.outward?) =
      (body.blocks.get? d).map (Block.outline body.outward?) := by
    intro d
    simp only [mapOperands, get?_map, Option.map_map]
    congr 1
    funext block
    simp [Block.outline]
  have hstates : ∀ t, ((body.mapOperands r).states.get? t).map DebugState.sizes =
      (body.states.get? t).map DebugState.sizes := by
    intro t
    simp only [mapOperands, get?_map, Option.map_map]
    congr 1
    funext st
    exact st.sizes_mapTop (DebugValue.mapInsts r)
  exact Outline.ext rfl rfl rfl hout (funext fun d => by simp only [outline, hout, hblocks])
    (funext hstates)

theorem outline_removeInsts {dead} (h : ∀ x ∈ dead, body.outward? x = none) :
    (body.removeInsts dead).outline = body.outline := by
  have hdead : ∀ x ∈ dead ++ body.barriersOf dead, body.outward? x = none := by
    intro x hx
    rcases mem_append.1 hx with hx | hx
    · exact h x hx
    · obtain ⟨store, -, hop⟩ := (mem_barriersOf dead).1 hx
      rw [outward?_of_op? hop]
      rfl
  have hout : (body.removeInsts dead).outward? = body.outward? := by
    funext x
    rw [outward?, op?_removeInsts]
    split
    · rename_i hx
      exact (hdead x hx).symm
    · rfl
  have hblocks : ∀ d, ((body.removeInsts dead).blocks.get? d).map (Block.outline body.outward?) =
      (body.blocks.get? d).map (Block.outline body.outward?) := by
    intro d
    simp only [removeInsts, get?_map, Option.map_map]
    congr 1
    funext block
    simp only [Function.comp, Block.outline, filter_filter]
    congr 1
    refine filter_congr fun x _ => ?_
    by_cases hx : x ∈ dead ++ body.barriersOf dead
    · simp [hdead x hx]
    · simp [hx]
  exact Outline.ext rfl rfl rfl hout (funext fun d => by simp only [outline, hout, hblocks]) rfl

end Body

@[simp] theorem Op.isAlloc_mapOperands (r : InstId → InstId) (op : Op) :
    (op.mapOperands r).isAlloc = op.isAlloc := by
  cases op <;> rfl

/-- What a body has in allocations. -/
@[ext]
structure Inventory where
  allocates : InstId → Bool
  blocks : BlockId → List InstId

/-- What is left without the given instructions. -/
def Inventory.without (v : Inventory) (gone : List InstId) : Inventory where
  allocates x := v.allocates x && decide (x ∉ gone)
  blocks b := (v.blocks b).filter (· ∉ gone)

/-- The operation has nothing to do with the outside, and allocates nothing. -/
structure Op.Tacit (op : Op) : Prop where
  outward : op.outward? = none
  isAlloc : op.isAlloc = false

namespace Body

def allocates (body : Body) (x : InstId) : Bool := (body.op? x).any Op.isAlloc

def inventory (body : Body) : Inventory where
  allocates := body.allocates
  blocks b := (body.block b).insts.filter body.allocates

variable {body body' body'' : Body} {x : InstId} {op : Op} {b : BlockId}

theorem allocates_of_op? (h : body.op? x = some op) : body.allocates x = op.isAlloc := by
  simp [allocates, h]

theorem allocates_iff : body.allocates x = true ↔ ∃ op, body.op? x = some op ∧ op.isAlloc = true :=
  Option.any_eq_true ..

theorem mem_inventory : x ∈ body.inventory.blocks b ↔
    x ∈ (body.block b).insts ∧ body.allocates x = true := mem_filter

theorem inventory_congr (hops : ∀ x, body'.allocates x = body.allocates x)
    (hinsts : ∀ b, (body'.block b).insts.filter body.allocates =
      (body.block b).insts.filter body.allocates) : body'.inventory = body.inventory := by
  have hall : body'.allocates = body.allocates := funext hops
  refine Inventory.ext hall (funext fun b => ?_)
  simp only [inventory, hall, hinsts]

theorem inventory_of_eq (hinsts : body'.insts = body.insts) (hblocks : body'.blocks = body.blocks) :
    body'.inventory = body.inventory :=
  inventory_congr (fun x => by simp only [allocates, op?, inst?, hinsts])
    fun b => by simp only [Body.block, hblocks]

theorem allocates_addInst (hwf : body.WellFormed) (hop : op.isAlloc = false) (ty : Option Ty)
    (x : InstId) : (body.addInst op ty).2.allocates x = body.allocates x := by
  simp only [allocates, op?, inst?, get?_addInst op ty hwf]
  split
  · rename_i hx
    rw [hx, get?_addInst_fst op ty hwf]
    exact hop
  · rfl

theorem inventory_addPlaced (hwf : body.WellFormed) (hop : op.isAlloc = false) (ty : Option Ty)
    (b : BlockId) (idx : Nat) :
    ((body.addInst op ty).2.place (body.addInst op ty).1 b idx).inventory = body.inventory := by
  have hnew : body.allocates (body.addInst op ty).1 = false := by
    rw [allocates, op?, inst?, get?_addInst_fst op ty hwf]
    rfl
  refine inventory_congr (allocates_addInst hwf hop ty) fun d => ?_
  simp only [place, modifyBlock, Body.block, get?_modify]
  split
  · rw [show (body.addInst op ty).2.blocks = body.blocks from rfl]
    rcases body.blocks.get? d with _ | block
    · rfl
    · exact filter_insertIdx hnew _ _
  · rfl

theorem inventory_setOp (hx : body.allocates x = false) (hop : op.isAlloc = false) :
    (body.setOp x op).inventory = body.inventory := by
  refine inventory_congr (fun y => ?_) fun b => rfl
  simp only [allocates, op?, inst?, setOp, get?_modify] at hx ⊢
  split
  · rename_i hy
    subst hy
    rw [hx]
    cases body.insts.get? y <;> simp [hop]
  · rfl

theorem inventory_mapInsts {g} (h : ∀ inst, (g inst).op.isAlloc = inst.op.isAlloc) :
    { body with insts := body.insts.map g }.inventory = body.inventory := by
  refine inventory_congr (fun x => ?_) fun b => rfl
  simp only [allocates, op?, inst?, get?_map]
  cases body.insts.get? x <;> simp [h]

theorem inventory_mapOperands (r : InstId → InstId) :
    (body.mapOperands r).inventory = body.inventory := by
  refine inventory_congr (fun x => ?_) fun b => by rw [block_mapOperands]
  rw [allocates, op?_mapOperands, allocates]
  cases body.op? x <;> simp

theorem inventory_removeInsts (dead : List InstId) :
    (body.removeInsts dead).inventory = body.inventory.without dead := by
  have hbarrier : ∀ x ∈ body.barriersOf dead, body.allocates x = false := by
    intro x hx
    obtain ⟨store, -, hop⟩ := (mem_barriersOf dead).1 hx
    rw [allocates_of_op? hop]
    rfl
  have hkept : ∀ x, body.allocates x = true → (x ∉ dead ++ body.barriersOf dead ↔ x ∉ dead) := by
    intro x hx
    rw [mem_append, not_or, and_iff_left]
    intro hmem
    rw [hbarrier x hmem] at hx
    cases hx
  have hall : ∀ x, (body.removeInsts dead).allocates x =
      (body.allocates x && decide (x ∉ dead)) := by
    intro x
    rw [allocates, op?_removeInsts]
    rcases hx : body.allocates x with _ | _
    · split
      · rfl
      · exact hx
    · by_cases hmem : x ∈ dead
      · simp [hmem]
      · rw [if_neg ((hkept x hx).2 hmem)]
        simp only [hmem, not_false_eq_true, decide_true, Bool.and_true]
        exact hx
  refine Inventory.ext (funext hall) (funext fun b => ?_)
  simp only [inventory, Inventory.without, block_removeInsts, filter_filter, hall]
  refine filter_congr fun x _ => ?_
  rcases hx : body.allocates x with _ | _
  · simp
  · simp only [Bool.true_and, decide_eq_decide.2 (hkept x hx), Bool.and_self, Bool.and_true]

theorem without_congr {gone gone'} (h : ∀ x, body.allocates x = true → (x ∈ gone ↔ x ∈ gone')) :
    body.inventory.without gone = body.inventory.without gone' := by
  refine Inventory.ext (funext fun x => ?_) (funext fun b => filter_congr fun x hx => ?_)
  · rcases hx : body.allocates x with _ | _
    · simp [Inventory.without, inventory, hx]
    · simp [Inventory.without, inventory, hx, h x hx]
  · simp [h x (mem_inventory.1 hx).2]

theorem without_nil : body.inventory.without [] = body.inventory := by
  refine Inventory.ext (funext fun x => ?_) (funext fun b => ?_)
  · simp [Inventory.without]
  · simp [Inventory.without]

/-- The body neither lists `x` nor has it in its table. -/
structure Lacks (body : Body) (x : InstId) : Prop where
  table : body.insts.get? x = none
  code : ∀ b, x ∉ (body.block b).insts

/-- Instruction `x` has been removed for good. -/
structure Departed (body : Body) (x : InstId) : Prop where
  retired : body.insts.Retired x
  code : ∀ b, x ∉ (body.block b).insts

theorem Departed.lacks (h : body.Departed x) : body.Lacks x := ⟨h.retired.gone, h.code⟩

theorem lacks_removeInsts_of_mem {dead} (hx : x ∈ dead) : (body.removeInsts dead).Lacks x where
  table := by rw [get?_removeInsts, if_pos (mem_append_left _ hx)]
  code b hmem := by simp [block_removeInsts, hx] at hmem

theorem Lacks.removeInsts (h : body.Lacks x) (dead : List InstId) :
    (body.removeInsts dead).Lacks x where
  table := by
    rw [get?_removeInsts, h.table]
    split <;> rfl
  code b hmem := by
    rw [block_removeInsts] at hmem
    exact h.code b (mem_filter.1 hmem).1

theorem Departed.removeInsts (h : body.Departed x) (dead : List InstId) :
    (body.removeInsts dead).Departed x :=
  ⟨h.retired.filter fun x _ => x ∉ dead ++ body.barriersOf dead,
    (h.lacks.removeInsts dead).code⟩

/-- `body'` shows the same outline and the same inventory, and what is gone from `body` for good
stays so. -/
structure Alike (body body' : Body) : Prop where
  outline : body'.outline = body.outline
  inventory : body'.inventory = body.inventory
  departed : ∀ x, body.Departed x → body'.Departed x

namespace Alike

theorem refl (body : Body) : body.Alike body := ⟨rfl, rfl, fun _ => id⟩

theorem trans (h : body.Alike body') (h' : body'.Alike body'') : body.Alike body'' :=
  ⟨h'.outline.trans h.outline, h'.inventory.trans h.inventory,
    fun x hx => h'.departed x (h.departed x hx)⟩

theorem allocates (h : body.Alike body') (x : InstId) : body'.allocates x = body.allocates x :=
  congrFun (congrArg Inventory.allocates h.inventory) x

theorem of_eq (ho : body'.outline = body.outline) (hinsts : body'.insts = body.insts)
    (hblocks : body'.blocks = body.blocks) : body.Alike body' where
  outline := ho
  inventory := inventory_of_eq hinsts hblocks
  departed _ hx := ⟨hinsts ▸ hx.retired, fun b => by
    rw [Body.block, hblocks]
    exact hx.code b⟩

theorem setOp {y} (hy : body.outward? y = none) (hy' : body.allocates y = false) (hop : op.Tacit) :
    body.Alike (body.setOp y op) where
  outline := outline_setOp hy hop.outward
  inventory := inventory_setOp hy' hop.isAlloc
  departed _ hx := ⟨hx.retired.modify _ _, hx.code⟩

theorem mapOperands (body : Body) (r : InstId → InstId) : body.Alike (body.mapOperands r) where
  outline := outline_mapOperands r
  inventory := inventory_mapOperands r
  departed _ hx := ⟨hx.retired.map _, fun b => by
    rw [block_mapOperands]
    exact hx.code b⟩

theorem removeInsts {dead} (hdead : ∀ x ∈ dead, ∃ op, body.op? x = some op ∧ op.Tacit) :
    body.Alike (body.removeInsts dead) where
  outline := outline_removeInsts fun x hx => by
    obtain ⟨op, hop, htacit⟩ := hdead x hx
    exact (outward?_of_op? hop).trans htacit.outward
  inventory := by
    refine (inventory_removeInsts dead).trans (Eq.trans ?_ without_nil)
    refine without_congr fun x hx => iff_of_false (fun hmem => ?_) not_mem_nil
    obtain ⟨op, hop, htacit⟩ := hdead x hmem
    rw [allocates_of_op? hop, htacit.isAlloc] at hx
    cases hx
  departed _ hx := hx.removeInsts dead

end Alike

end Body

end EscapeAnalysis
