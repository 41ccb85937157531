import EscapeAnalysis.Merge.Part
import EscapeAnalysis.Proofs.Obstacles

/-!
# The parts of merges

While parts are made, the code of every reachable block keeps its order. New phis follow the old
ones, new constants lead the code of the entry, and new loads come last, before the call if the
block ends in one. Every part is a phi whose inputs are fed as the inputs of the merge tell.
-/

namespace EscapeAnalysis

open List Body

theorem mem_of_lookup {α β : Type} [BEq α] [LawfulBEq α] {a c} {l : List (α × β)}
    (h : l.lookup a = some c) : (a, c) ∈ l := by
  obtain ⟨l1, l2, rfl, -⟩ := lookup_eq_some_iff.1 h
  simp

namespace Body

variable {body : Body} {b : BlockId}

def lastCall (body : Body) (b : BlockId) : List InstId :=
  match (body.block b).term with
  | .invoke call _ _ => [call]
  | _ => []

def mainCode (body : Body) (b : BlockId) : List InstId :=
  (body.code b).take ((body.code b).length - (body.lastCall b).length)

theorem code_eq (hc : body.Checked) (hb : b ∈ body.order) :
    body.code b = body.mainCode b ++ body.lastCall b := by
  rw [mainCode, lastCall]
  cases hterm : (body.block b).term with
  | invoke call normal handler =>
    obtain ⟨⟨c, hop⟩, hlast⟩ := hc.invoke b hb call normal handler hterm
    have hne : body.code b ≠ [] := by
      intro hnil
      rw [insts_eq, hnil, append_nil] at hlast
      have := isPhi_of_mem_phis (mem_of_getLast? hlast)
      simp [isPhi_of_op? hop, Op.isPhi] at this
    obtain ⟨l, y, hl⟩ := (eq_nil_or_concat (body.code b)).resolve_left hne
    obtain rfl : y = call := by simpa [insts_eq, hl] using hlast
    simp [hl]
  | _ => simp

theorem length_of_placeAtEnd {body' : Body} {l} (hterm : (body'.block b).term = (body.block b).term)
    (hl : (body'.block b).insts = l ++ body.lastCall b) :
    (if endsInInvoke (body'.block b) then (body'.block b).insts.length - 1
      else (body'.block b).insts.length) = l.length := by
  rw [endsInInvoke, hterm, hl, lastCall]
  cases (body.block b).term <;> simp

end Body

namespace Splitter

variable {p : Program} {body : Body} {g : Graph} {cands gone : List InstId} {m : Merges}
  {replaced : Nat → Bool} {s s' : Splitter} {extra extra' : BlockId → List InstId} {b : BlockId}
  {part : MergePart} {phi x y : InstId} {c : Const} {R : BlockId → MergeInput → Nat → InstId → Prop}
  {l : List (BlockId × MergeInput × Nat)} {ys : List (BlockId × InstId)}
  {e : BlockId × MergeInput × Nat}

/-- The parts that stand in a block, in the order they were made. -/
def newPhis (m : Merges) (s : Splitter) (b : BlockId) : List InstId :=
  (s.parts.reverse.filter fun e => (m.desc e.1.1).block = b).map Prod.snd

def newConsts (s : Splitter) (b : BlockId) : List InstId :=
  if b = s.body.entry then s.consts.map Prod.snd else []

/-- What feeds a part from an input of the merge whose first leaf has number `k`. -/
inductive Feeds (p : Program) (replaced : Nat → Bool) (s : Splitter)
    (extra : BlockId → List InstId) (part : MergePart) (b : BlockId) :
    MergeInput → Nat → InstId → Prop
  | nested {child : InstId} {k y} (h : ((child, part.numberedFrom k), y) ∈ s.parts) :
      Feeds p replaced s extra part b (.phi child) k y
  | const {i : MergeInput} {k c y} (hi : i.child? = none)
      (hs : part.source p replaced k i = .const c) (h : (c, y) ∈ s.consts) :
      Feeds p replaced s extra part b i k y
  | inst {i : MergeInput} {k x} (hi : i.child? = none) (hs : part.source p replaced k i = .inst x) :
      Feeds p replaced s extra part b i k x
  | load {i : MergeInput} {k x f y} (hi : i.child? = none)
      (hs : part.source p replaced k i = .load x f) (hy : y ∈ extra b)
      (hop : s.body.op? y = some (.loadField x f)) : Feeds p replaced s extra part b i k y

/-- The inputs of a part, one for each numbered input of the merge. -/
inductive Inputs (R : BlockId → MergeInput → Nat → InstId → Prop) :
    List (BlockId × MergeInput × Nat) → List (BlockId × InstId) → Prop
  | nil : Inputs R [] []
  | cons {b : BlockId} {i k y l ys} (h : R b i k y) (hl : Inputs R l ys) :
      Inputs R ((b, i, k) :: l) ((b, y) :: ys)

theorem Inputs.imp {R'} (hR : ∀ b i k y, R b i k y → R' b i k y) (h : Inputs R l ys) :
    Inputs R' l ys := by
  induction h with
  | nil => exact .nil
  | cons h _ ih => exact .cons (hR _ _ _ _ h) ih

theorem Inputs.cons_of_eq {y} (hy : y.1 = e.1) (h : R e.1 e.2.1 e.2.2 y.2) (hl : Inputs R l ys) :
    Inputs R (e :: l) (y :: ys) := by
  obtain ⟨b, y⟩ := y
  cases hy
  exact .cons h hl

/-- A load of a field from a leaf that flows into a merge at the end of the block. -/
structure LeafLoad (p : Program) (g : Graph) (m : Merges) (gone : List InstId) (b : BlockId)
    (x : InstId) (f : FieldId) : Prop where
  leaf : ∃ phi ∈ gone, ∃ n, (b, .alloc n x) ∈ (m.desc phi).inputs ∧
    Merges.AllHave p g (m.desc phi) f

/-- What a part may be asked for. -/
def Wanted (p : Program) (g : Graph) (m : Merges) (phi : InstId) (part : MergePart) : Prop :=
  ∀ f, part = .field f → Merges.AllHave p g (m.desc phi) f

theorem Wanted.of_child (hw : Wanted p g m phi part) (hsum : m.Summarized g phi) {child}
    (hc : (b, .phi child) ∈ (m.desc phi).inputs) (k : Nat) :
    Wanted p g m child (part.numberedFrom k) := by
  intro f hf
  cases part with
  | field f' =>
    cases hf
    exact (hw f rfl).of_child hsum hc
  | _ => cases hf

/-- The body has grown by constants, parts and loads only. -/
structure Built (p : Program) (body : Body) (g : Graph) (m : Merges) (replaced : Nat → Bool)
    (gone : List InstId) (extra : BlockId → List InstId) (s : Splitter) : Prop where
  wf : s.body.WellFormed
  old : ∀ x inst, body.insts.get? x = some inst → s.body.insts.get? x = some inst
  entry : s.body.entry = body.entry
  params : s.body.params = body.params
  live : ∀ b ∈ body.flow.order.blocks, ∃ block, s.body.blocks.get? b = some block
  term : ∀ b ∈ body.flow.order.blocks, (s.body.block b).term = (body.block b).term
  insts : ∀ b ∈ body.flow.order.blocks, (s.body.block b).insts =
    (body.phis b ++ s.newPhis m b) ++
      (s.newConsts b ++ (body.mainCode b ++ (extra b ++ body.lastCall b)))
  consts : ∀ e ∈ s.consts, body.insts.get? e.2 = none ∧ s.body.op? e.2 = some (.const e.1)
  loads : ∀ b, ∀ y ∈ extra b, body.insts.get? y = none ∧
    ∃ x f, s.body.op? y = some (.loadField x f) ∧ LeafLoad p g m gone b x f
  parts : ∀ e ∈ s.parts, body.insts.get? e.2 = none ∧ e.1.1 ∈ gone ∧ Wanted p g m e.1.1 e.1.2 ∧
    ∃ inputs, s.body.op? e.2 = some (.phi inputs) ∧
      Inputs (Feeds p replaced s extra e.1.2) (m.numbered (m.desc e.1.1).inputs e.1.2.start) inputs
  nodup : (s.parts.map Prod.snd).Nodup

/-- What is there stays there. -/
structure Grows (s : Splitter) (extra : BlockId → List InstId) (s' : Splitter)
    (extra' : BlockId → List InstId) : Prop where
  parts : s.parts ⊆ s'.parts
  consts : s.consts ⊆ s'.consts
  loads : ∀ b, extra b ⊆ extra' b
  ops : ∀ y op, s.body.op? y = some op → s'.body.op? y = some op
  states : s'.body.states = s.body.states

namespace Grows

theorem refl (s : Splitter) (extra : BlockId → List InstId) : Grows s extra s extra :=
  ⟨fun _ => id, fun _ => id, fun _ _ => id, fun _ _ => id, rfl⟩

theorem trans {s'' extra''} (h : Grows s extra s' extra') (h' : Grows s' extra' s'' extra'') :
    Grows s extra s'' extra'' :=
  ⟨fun _ he => h'.parts (h.parts he), fun _ he => h'.consts (h.consts he),
    fun b _ hy => h'.loads b (h.loads b hy), fun y op hy => h'.ops y op (h.ops y op hy),
    h'.states.trans h.states⟩

theorem feeds (h : Grows s extra s' extra') {i k} (hf : Feeds p replaced s extra part b i k y) :
    Feeds p replaced s' extra' part b i k y := by
  cases hf with
  | nested hp => exact .nested (h.parts hp)
  | const hi hs hc => exact .const hi hs (h.consts hc)
  | inst hi hs => exact .inst hi hs
  | load hi hs hy hop => exact .load hi hs (h.loads b hy) (h.ops _ _ hop)

theorem inputs (h : Grows s extra s' extra') {l ys}
    (hl : Inputs (Feeds p replaced s extra part) l ys) :
    Inputs (Feeds p replaced s' extra' part) l ys := hl.imp fun _ _ _ _ => h.feeds

end Grows

namespace Built

theorem start (p : Program) (g : Graph) (m : Merges) (replaced : Nat → Bool) (gone : List InstId)
    (hwf : body.WellFormed) (hc : body.Checked) :
    Built p body g m replaced gone (fun _ => []) { body } where
  wf := hwf
  old _ _ := id
  entry := rfl
  params := rfl
  live _ hb := mem_flow_blocks.1 (hwf.live_of_mem_order hb)
  term _ _ := rfl
  insts b hb := by simp [newPhis, newConsts, ← code_eq hc hb, insts_eq]
  consts := by simp
  loads := by simp
  parts := by simp
  nodup := by simp

variable (h : Built p body g m replaced gone extra s)

include h in
theorem op?_old {op} (hx : body.op? x = some op) : s.body.op? x = some op := by
  obtain ⟨inst, hinst, rfl⟩ := op?_eq_some_iff.1 hx
  exact op?_eq_some_iff.2 ⟨inst, h.old x inst hinst, rfl⟩

section Layout

variable (hc : body.Checked) (hb : b ∈ body.order)
include h

theorem op?_newPhis (hy : y ∈ s.newPhis m b) :
    body.insts.get? y = none ∧ ∃ inputs, s.body.op? y = some (.phi inputs) := by
  obtain ⟨e, he, rfl⟩ := mem_map.1 hy
  obtain ⟨hfresh, -, -, inputs, hop, -⟩ :=
    h.parts e (mem_reverse.1 (mem_filter.1 he).1)
  exact ⟨hfresh, inputs, hop⟩

theorem op?_newConsts (hy : y ∈ s.newConsts b) :
    body.insts.get? y = none ∧ ∃ c, s.body.op? y = some (.const c) := by
  rw [newConsts] at hy
  split at hy
  · obtain ⟨e, he, rfl⟩ := mem_map.1 hy
    exact ⟨(h.consts e he).1, e.1, (h.consts e he).2⟩
  · cases hy

theorem op?_phis (hy : y ∈ body.phis b ++ s.newPhis m b) :
    ∃ inputs, s.body.op? y = some (.phi inputs) := by
  rcases mem_append.1 hy with hy | hy
  · obtain ⟨inputs, hop⟩ := isPhi_iff.1 (isPhi_of_mem_phis hy)
    exact ⟨inputs, h.op?_old hop⟩
  · exact (h.op?_newPhis hy).2

include hc hb in
theorem op?_code (hy : y ∈ s.newConsts b ++ (body.mainCode b ++ (extra b ++ body.lastCall b))) :
    ∃ op, s.body.op? y = some op ∧ op.isPhi = false := by
  have hold : y ∈ body.code b → ∃ op, s.body.op? y = some op ∧ op.isPhi = false := by
    intro hy
    obtain ⟨inst, hinst⟩ := hc.live hb (mem_insts_of_mem_code hy)
    have hop : body.op? y = some inst.op := op?_eq_some_iff.2 ⟨inst, hinst, rfl⟩
    exact ⟨inst.op, h.op?_old hop, hc.not_isPhi_of_mem_code hb hy hop⟩
  rw [code_eq hc hb] at hold
  simp only [mem_append] at hy hold
  rcases hy with hy | hy | hy | hy
  · obtain ⟨-, c, hop⟩ := h.op?_newConsts hy
    exact ⟨_, hop, rfl⟩
  · exact hold (.inl hy)
  · obtain ⟨-, x, f, hop, -⟩ := h.loads b y hy
    exact ⟨_, hop, rfl⟩
  · exact hold (.inr hy)

include hc hb in
theorem phis_addInst (op : Op) (ty : Option Ty) :
    (s.body.addInst op ty).2.phis b = body.phis b ++ s.newPhis m b := by
  have hisPhi : ∀ y op', s.body.op? y = some op' →
      (s.body.addInst op ty).2.isPhi y = op'.isPhi := by
    intro y op' hy
    obtain ⟨inst, hinst, rfl⟩ := op?_eq_some_iff.1 hy
    refine isPhi_of_op? (op?_eq_some_iff.2 ⟨inst, ?_, rfl⟩)
    rw [get?_addInst op ty h.wf, if_neg, hinst]
    rintro rfl
    simp [get?_addInst_fst op ty h.wf] at hinst
  have hblock : (s.body.addInst op ty).2.block b = s.body.block b := rfl
  rw [Body.phis, hblock, h.insts b hb]
  refine takeWhile_append_of_all (fun y hy => ?_) fun y hy => ?_
  · obtain ⟨inputs, hop⟩ := h.op?_phis hy
    exact hisPhi y _ hop
  · obtain ⟨op', hop, hphi⟩ := h.op?_code hc hb hy
    exact (hisPhi y op' hop).trans hphi

end Layout

include h in
theorem of_inserts {op l1 l2} (hins : s.body.Inserts x op b l1 l2 s'.body)
    (hg : Grows s extra s' extra')
    (hinsts : ∀ d ∈ body.order, (s'.body.block d).insts =
      (body.phis d ++ s'.newPhis m d) ++
        (s'.newConsts d ++ (body.mainCode d ++ (extra' d ++ body.lastCall d))))
    (hconsts : ∀ e ∈ s'.consts, e ∈ s.consts ∨ e.2 = x ∧ op = .const e.1)
    (hloads : ∀ d, ∀ y ∈ extra' d, y ∈ extra d ∨
      y = x ∧ ∃ obj f, op = .loadField obj f ∧ LeafLoad p g m gone d obj f)
    (hparts : ∀ e ∈ s'.parts, e ∈ s.parts ∨ e.2 = x ∧ e.1.1 ∈ gone ∧ Wanted p g m e.1.1 e.1.2 ∧
      ∃ inputs, op = .phi inputs ∧ Inputs (Feeds p replaced s' extra' e.1.2)
        (m.numbered (m.desc e.1.1).inputs e.1.2.start) inputs)
    (hnodup : (s'.parts.map Prod.snd).Nodup) : Built p body g m replaced gone extra' s' := by
  have hfresh : body.insts.get? x = none := by
    cases hx : body.insts.get? x with
    | none => rfl
    | some inst => simpa [hins.fresh] using h.old x inst hx
  refine
    { wf := hins.wf
      old := fun y inst hy => hins.get?_of_live (h.old y inst hy)
      entry := hins.entry.trans h.entry
      params := hins.params.trans h.params
      live := fun d hd => ?live
      term := fun d hd => (hins.term d).trans (h.term d hd)
      insts := hinsts
      consts := fun e he => ?consts
      loads := fun d y hy => ?loads
      parts := fun e he => ?parts
      nodup := hnodup }
  case live =>
    obtain ⟨block, hblock⟩ := h.live d hd
    exact hins.live d block hblock
  case consts =>
    rcases hconsts e he with he | ⟨hx, hop⟩
    · exact ⟨(h.consts e he).1, hins.op?_of_live (h.consts e he).2⟩
    · exact hx ▸ ⟨hfresh, hop ▸ hins.op⟩
  case loads =>
    rcases hloads d y hy with hy | ⟨rfl, obj, f, hop, hleaf⟩
    · obtain ⟨hy, obj, f, hop, hleaf⟩ := h.loads d y hy
      exact ⟨hy, obj, f, hins.op?_of_live hop, hleaf⟩
    · exact ⟨hfresh, obj, f, hop ▸ hins.op, hleaf⟩
  case parts =>
    rcases hparts e he with he | ⟨hx, hgone, hwant, inputs, hop, hin⟩
    · obtain ⟨he, hgone, hwant, inputs, hop, hin⟩ := h.parts e he
      exact ⟨he, hgone, hwant, inputs, hins.op?_of_live hop, hg.inputs hin⟩
    · exact ⟨hx ▸ hfresh, hgone, hwant, inputs, hx ▸ hop ▸ hins.op, hin⟩

section Additions

variable (hc : body.Checked)

include h hc in
theorem constant (c : Const) :
    Built p body g m replaced gone extra (constant c s).2 ∧ Grows s extra (constant c s).2 extra ∧
      (c, (constant c s).1) ∈ (constant c s).2.consts := by
  rw [Splitter.constant]
  split
  · rename_i x hx
    exact ⟨h, .refl s extra, mem_of_lookup hx⟩
  · have hentry : s.body.entry ∈ body.order := h.entry ▸ body.entry_mem_order
    obtain ⟨block, hblock⟩ := h.live _ hentry
    have hins := inserts_place h.wf (.const c) (some c.ty) hblock (h.insts _ hentry)
      (congrArg List.length (h.phis_addInst hc hentry (.const c) (some c.ty)))
    let r : Splitter :=
      { s with body := (s.body.addConst c).2, consts := (c, (s.body.addConst c).1) :: s.consts }
    have hg : Grows s extra r extra :=
      ⟨fun _ => id, fun _ => .tail _, fun _ _ => id,
        fun _ _ => hins.op?_of_live, rfl⟩
    refine ⟨h.of_inserts hins hg (fun d hd => ?_) (fun e he => ?_) (fun d y hy => .inl hy)
      (fun e he => .inl he) h.nodup, hg, .head _⟩
    · have hphis : newPhis m r d = s.newPhis m d := rfl
      have hconsts : newConsts r d = if d = s.body.entry then
        (s.body.addInst (.const c) (some c.ty)).1 :: s.consts.map Prod.snd else [] := rfl
      refine (hins.insts d).trans ?_
      rw [hphis, hconsts]
      split
      · rename_i hd
        simp [newConsts, hd]
      · rename_i hne
        simp only [h.insts d hd, newConsts, if_neg hne]
    · rcases mem_cons.1 he with rfl | he
      · exact .inr ⟨rfl, rfl⟩
      · exact .inl he

include h in
theorem load {f : FieldId} (hb : b ∈ body.order) (hl : LeafLoad p g m gone b x f) :
    ∃ extra', Built p body g m replaced gone extra' (ofSource p b (.load x f) s).2 ∧
      Grows s extra (ofSource p b (.load x f) s).2 extra' ∧
      (ofSource p b (.load x f) s).1 ∈ extra' b ∧
      (ofSource p b (.load x f) s).2.body.op? (ofSource p b (.load x f) s).1 =
        some (.loadField x f) := by
  obtain ⟨block, hblock⟩ := h.live b hb
  have hlayout : (s.body.block b).insts = ((body.phis b ++ s.newPhis m b) ++
      (s.newConsts b ++ (body.mainCode b ++ extra b))) ++ body.lastCall b := by
    simp [h.insts b hb]
  have hins := inserts_place h.wf (.loadField x f) (some (p.fieldTy f).stack) hblock hlayout
    (length_of_placeAtEnd (h.term b hb) hlayout)
  let extra' := fun d => if d = b then extra b ++ [(ofSource p b (.load x f) s).1] else extra d
  have hg : Grows s extra (ofSource p b (.load x f) s).2 extra' := by
    refine ⟨fun _ => id, fun _ => id, fun d y hy => ?_, fun _ _ => hins.op?_of_live, rfl⟩
    by_cases hd : d = b
    · subst hd
      simp [extra', hy]
    · simpa [extra', hd] using hy
  refine ⟨extra', h.of_inserts hins hg (fun d hd => ?_) (fun e he => .inl he) (fun d y hy => ?_)
    (fun e he => .inl he) h.nodup, hg, by simp [extra'], hins.op⟩
  · have hphis : newPhis m (ofSource p b (.load x f) s).2 d = s.newPhis m d := rfl
    have hconsts : newConsts (ofSource p b (.load x f) s).2 d = s.newConsts d := rfl
    refine (hins.insts d).trans ?_
    rw [hphis, hconsts]
    split
    · rename_i hd
      subst hd
      simp [extra', ofSource]
    · rename_i hne
      simp [h.insts d hd, extra', hne]
  · by_cases hd : d = b
    · subst hd
      simp only [extra', if_true, mem_append, mem_singleton] at hy
      exact hy.imp_right fun hy => ⟨hy, x, f, rfl, hl⟩
    · exact .inl (by simpa [extra', hd] using hy)

include h hc in
theorem addPart (hphi : phi ∈ gone) (hb : (m.desc phi).block ∈ body.order)
    (hw : Wanted p g m phi part) {inputs}
    (hin : Inputs (Feeds p replaced s extra part) (m.numbered (m.desc phi).inputs part.start)
      inputs) : let r := addPart p phi (m.desc phi).block part inputs s
    Built p body g m replaced gone extra r.2 ∧ Grows s extra r.2 extra ∧
      ((phi, part), r.1) ∈ r.2.parts := by
  intro r
  obtain ⟨block, hblock⟩ := h.live _ hb
  have hins := inserts_place h.wf (.phi inputs) (some (part.ty p)) hblock (h.insts _ hb)
    (congrArg List.length (h.phis_addInst hc hb (.phi inputs) (some (part.ty p))))
  have hg : Grows s extra r.2 extra :=
    ⟨fun _ => .tail _, fun _ => id, fun _ _ => id, fun _ _ => hins.op?_of_live, rfl⟩
  refine ⟨h.of_inserts hins hg (fun d hd => ?_) (fun e he => .inl he) (fun d y hy => .inl hy)
    (fun e he => ?_) ?_, hg, .head _⟩
  · have hconsts : newConsts r.2 d = s.newConsts d := rfl
    refine (hins.insts d).trans ?_
    rw [hconsts]
    split
    · rename_i hd
      subst hd
      simp [r, newPhis, Splitter.addPart, addPhi]
    · rename_i hne
      simp [h.insts d hd, r, newPhis, Splitter.addPart, addPhi, Ne.symm hne]
  · rcases mem_cons.1 he with rfl | he
    · exact .inr ⟨rfl, hphi, hw, inputs, rfl, hg.inputs hin⟩
    · exact .inl he
  · refine nodup_cons.2 ⟨fun hmem => ?_, h.nodup⟩
    obtain ⟨e, he, hx⟩ := mem_map.1 hmem
    obtain ⟨-, -, -, ins, hop, -⟩ := h.parts e he
    obtain ⟨inst, hinst⟩ := live_of_op? hop
    rw [hx] at hinst
    exact absurd (hinst.symm.trans hins.fresh) (by simp)

end Additions

include h in
theorem setStates {states} (hst : states.WellFormed) :
    Built p body g m replaced gone extra { s with body := { s.body with states } } := by
  refine ⟨⟨h.wf.blocks, h.wf.insts, hst, h.wf.entry⟩, h.old, h.entry, h.params, h.live, h.term,
    h.insts, h.consts, h.loads, fun e he => ?_, h.nodup⟩
  obtain ⟨hx, hgone, hw, inputs, hop, hin⟩ := h.parts e he
  refine ⟨hx, hgone, hw, inputs, hop, hin.imp fun b i k y hfeeds => ?_⟩
  cases hfeeds with
  | nested hp => exact .nested hp
  | const hi hs hc => exact .const hi hs hc
  | inst hi hs => exact .inst hi hs
  | load hi hs hy hop => exact .load hi hs hy hop

end Built

theorem eq_of_source_load {i k f} (h : part.source p replaced k i = .load x f) :
    part = .field f ∧ ∃ n, i = .alloc n x := by
  cases part <;> cases i <;> simp only [MergePart.source] at h
  all_goals first
    | (cases h; exact ⟨rfl, _, rfl⟩)
    | cases h
    | (split at h <;> cases h)

theorem mem_inputs_of_numbered {l k} (h : e ∈ m.numbered l k) : (e.1, e.2.1) ∈ l := by
  induction l generalizing k with
  | nil => cases h
  | cons a l ih =>
    rcases mem_cons.1 h with rfl | h
    · exact .head _
    · exact .tail _ (ih h)

/-- What makes the part of one input, given how to make parts of nested merges. -/
def feedInput (p : Program) (replaced : Nat → Bool)
    (nested : MergePart → InstId → StateM Splitter InstId) (part : MergePart) :
    BlockId × MergeInput × Nat → StateM Splitter (BlockId × InstId) := fun (b, i, k) => do
  match i with
  | .phi child => pure (b, ← nested (part.numberedFrom k) child)
  | i => pure (b, ← ofSource p b (part.source p replaced k i))

theorem part_self (nested : List InstId) (part : MergePart) (phi : InstId) (s : Splitter) :
    Splitter.part p m replaced (phi :: nested) part phi s =
      match s.parts.lookup (phi, part) with
      | some x => (x, s)
      | none =>
        let r := (m.numbered (m.desc phi).inputs part.start).mapM
          (feedInput p replaced (Splitter.part p m replaced nested) part) s
        addPart p phi (m.desc phi).block part r.1 r.2 := by
  rw [Splitter.part, if_pos rfl]
  change (match s.parts.lookup (phi, part) with | some x => pure x | none => _ :
    StateM Splitter InstId) s = _
  cases s.parts.lookup (phi, part) <;> rfl

section Parts

variable (hc : body.Checked) (hf : m.Faithful body g cands)
  (ha : Merges.Apart p body g m gone)

/-- What making something from a splitter leads to. -/
def Makes (p : Program) (body : Body) (g : Graph) (m : Merges) (replaced : Nat → Bool)
    (gone : List InstId) {α : Type} (make : StateM Splitter α)
    (made : Splitter → (BlockId → List InstId) → α → Prop) : Prop :=
  ∀ s extra, Built p body g m replaced gone extra s → ∃ extra',
    Built p body g m replaced gone extra' (make s).2 ∧ Grows s extra (make s).2 extra' ∧
      made (make s).2 extra' (make s).1

include hc hf ha in
theorem makes_ofSource (hphi : phi ∈ gone) {i} (hin : (b, i) ∈ (m.desc phi).inputs)
    (hi : i.child? = none) (hw : Wanted p g m phi part) (k : Nat) :
    Makes p body g m replaced gone (ofSource p b (part.source p replaced k i))
      fun s extra y => Feeds p replaced s extra part b i k y := by
  intro s extra h
  cases hs : part.source p replaced k i with
  | const c =>
    obtain ⟨hb, hg, hmem⟩ := h.constant hc c
    exact ⟨extra, hb, hg, .const hi hs hmem⟩
  | inst x => exact ⟨extra, h, .refl s extra, .inst hi hs⟩
  | load x f =>
    obtain ⟨rfl, n, rfl⟩ := eq_of_source_load hs
    have hb := (hf.described phi (ha.keys phi hphi)).pred_mem_order hc hin
    obtain ⟨extra', hb, hg, hy, hop⟩ := h.load hb ⟨phi, hphi, n, hin, hw f rfl⟩
    exact ⟨extra', hb, hg, .load hi hs hy hop⟩

theorem makes_mapM {make} :
    ∀ l : List (BlockId × MergeInput × Nat),
      (∀ e ∈ l, Makes p body g m replaced gone (make e) fun s extra y =>
        y.1 = e.1 ∧ Feeds p replaced s extra part e.1 e.2.1 e.2.2 y.2) →
      Makes p body g m replaced gone (l.mapM make) fun s extra ys =>
        Inputs (Feeds p replaced s extra part) l ys
  | [], _, s, extra, h => ⟨extra, h, .refl s extra, .nil⟩
  | e :: l, hmake, s, extra, h => by
    obtain ⟨extra1, h1, hg1, hy, hfeeds⟩ := hmake e (.head _) s extra h
    obtain ⟨extra2, h2, hg2, hys⟩ :=
      makes_mapM l (fun e he => hmake e (.tail _ he)) _ _ h1
    rw [mapM_cons]
    exact ⟨extra2, h2, hg1.trans hg2, .cons_of_eq hy (hg2.feeds hfeeds) hys⟩

include hc hf ha in
/-- Every part of a merge that is to go can be made. -/
theorem makes_part : ∀ (l : List InstId), (∀ q ∈ l, q ∈ gone) →
    (∀ l1 q l2, l = l1 ++ q :: l2 → ∀ child ∈ m.children q, child ∈ l2) →
    ∀ part phi, phi ∈ l → Wanted p g m phi part →
      Makes p body g m replaced gone (Splitter.part p m replaced l part phi)
        fun s _ x => ((phi, part), x) ∈ s.parts := by
  intro l
  induction l with
  | nil => simp
  | cons q nested ih =>
    intro hgone hsorted part phi hphi hw s extra h
    have ih := ih (fun q hq => hgone q (.tail _ hq)) fun l1 q' l2 hl =>
      hsorted (q :: l1) q' l2 (by simp [hl])
    by_cases hq : q = phi
    · subst hq
      have hq := hgone q (.head _)
      rw [part_self]
      cases hlook : s.parts.lookup (q, part) with
      | some x => exact ⟨extra, h, .refl s extra, mem_of_lookup hlook⟩
      | none =>
        have hmake : ∀ e ∈ m.numbered (m.desc q).inputs part.start, Makes p body g m replaced gone
            (feedInput p replaced (Splitter.part p m replaced nested) part e) fun s extra y =>
              y.1 = e.1 ∧ Feeds p replaced s extra part e.1 e.2.1 e.2.2 y.2 := by
          rintro ⟨b, i, k⟩ he s extra h
          have hin := mem_inputs_of_numbered he
          cases i with
          | phi child =>
            have hchild := hsorted [] q nested rfl child (Merges.mem_children hin)
            have hw' := hw.of_child (ha.summarized q hq) hin k
            obtain ⟨extra', h', hg', hmem⟩ := ih (part.numberedFrom k) child hchild hw' s extra h
            exact ⟨extra', h', hg', rfl, .nested hmem⟩
          | _ =>
            obtain ⟨extra', h', hg', hfeeds⟩ :=
              makes_ofSource hc hf ha hq hin rfl hw k s extra h
            exact ⟨extra', h', hg', rfl, hfeeds⟩
        obtain ⟨extra1, h1, hg1, hin⟩ := makes_mapM _ hmake s extra h
        obtain ⟨h2, hg2, hmem⟩ := h1.addPart hc hq
          (hf.described q (ha.keys q hq)).reachable hw hin
        exact ⟨extra1, h2, hg1.trans hg2, hmem⟩
    · rw [Splitter.part, if_neg hq]
      exact ih part phi ((mem_cons.1 hphi).resolve_left (Ne.symm hq)) hw s extra h

end Parts

end Splitter

end EscapeAnalysis
