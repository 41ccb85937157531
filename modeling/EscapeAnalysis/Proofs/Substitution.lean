import EscapeAnalysis.Proofs.Rebuilding
import EscapeAnalysis.Proofs.Edits

/-!
# Uses and their substitution

`Body.uses` lists for a live instruction exactly the instructions, terminators and debug states that
read it (`Body.lists_uses_iff`), each once if none is placed twice (`Body.nodup_uses`). A later note
never takes an earlier one away, because the body names no key that its table is still to hand out.

A chain of replacements that runs in no circle comes to its end in as many steps as there are keys
(`next_chainEnd`). So a substitution renames every operand to the end of its chain, changes nothing
else, and leaves each use with the instruction that its operand now is (`Body.substitute_exact`).
-/

namespace EscapeAnalysis

open List

variable {α : Type}

namespace Uses

variable {uses : Uses} {x y : InstId} {u v : Use} {us l : List Use}

def Lists (uses : Uses) (x : InstId) (u : Use) : Prop := u ∈ (uses.get? x).getD []

/-- Adds a user to a list, unless it is the last one there. -/
def push (us : List Use) (u : Use) : List Use := if us.getLast? = some u then us else us ++ [u]

theorem push_push : push (push us u) u = push us u := by
  simp only [push]
  split <;> simp_all

theorem mem_push : v ∈ push us u ↔ v ∈ us ∨ v = u := by
  rw [push]
  split
  · rename_i h
    exact ⟨.inl, fun hv => hv.elim id fun he => he ▸ mem_of_getLast? h⟩
  · simp

theorem mem_foldl_push : v ∈ l.foldl push us ↔ v ∈ us ∨ v ∈ l := by
  induction l generalizing us with
  | nil => simp
  | cons u l ih => rw [foldl_cons, ih, mem_push, mem_cons, or_assoc]

theorem foldl_push_of_nodup (h : (us ++ l).Nodup) : l.foldl push us = us ++ l := by
  induction l generalizing us with
  | nil => simp
  | cons u l ih =>
    have hlast : us.getLast? ≠ some u := fun hu =>
      (nodup_append.1 h).2.2 u (mem_of_getLast? hu) u (by simp) rfl
    rw [foldl_cons, push, if_neg hlast, ih (by simpa using h), append_assoc]
    rfl

/-- The users of `x` are these, and `x` is still accepted as a key. -/
def Holds (uses : Uses) (x : InstId) (us : List Use) : Prop :=
  uses.outdated x = false ∧ (uses.get? x).getD [] = us

/-- Notes that the user reads the values. An instruction is entered first. -/
def read (uses : Uses) (e : Use × List InstId) : Uses :=
  e.2.foldl (fun uses y => uses.note y e.1)
    (match e.1 with | .inst x => uses.enter x | _ => uses)

namespace Holds

variable (hx : x ≠ .null)
include hx

section

variable (hy : y.index = x.index → y.version ≤ x.version) (h : uses.Holds x us)
include hy h

theorem alter (g : Option (List Use) → List Use) :
    Holds (uses.alter y g) x (if x = y then g (uses.get? x) else us) := by
  refine ⟨SideTable.outdated_insert h.1 hy _, ?_⟩
  rw [SideTable.alter, SideTable.get?_insert_of_not_newer hx h.1 hy]
  split
  · rename_i hxy
    rw [Option.getD_some, hxy]
  · exact h.2

theorem enter : (uses.enter y).Holds x us := by
  have := h.alter hx hy (·.getD [])
  rwa [h.2, ite_self] at this

theorem note (u : Use) : (uses.note y u).Holds x (if x = y then push us u else us) := by
  have hnote : uses.note y u = uses.alter y fun o => push (o.getD []) u := by
    rw [Uses.note]
    congr 1
    funext o
    cases o <;> simp [push]
  have := h.alter hx hy fun o => push (o.getD []) u
  rwa [← hnote, h.2] at this

end

theorem notes (u : Use) : ∀ {ys : List InstId} {uses : Uses} {us : List Use},
    (∀ y ∈ ys, y.index = x.index → y.version ≤ x.version) → uses.Holds x us →
    (ys.foldl (fun uses y => uses.note y u) uses).Holds x (if x ∈ ys then push us u else us)
  | [], _, _, _, h => h
  | y :: ys, uses, us, hys, h => by
    have hstep := notes u (fun y hy => hys y (.tail _ hy))
      (h.note hx (hys y (by simp)) u)
    rw [foldl_cons]
    by_cases hxy : x = y <;> by_cases hmem : x ∈ ys <;> simp_all [push_push]

theorem read {e} (h : uses.Holds x us)
    (he : ∀ y, e.1 = .inst y ∨ y ∈ e.2 → y.index = x.index → y.version ≤ x.version) :
    (uses.read e).Holds x (if x ∈ e.2 then push us e.1 else us) := by
  refine Holds.notes hx e.1 (fun y hy => he y (.inr hy)) ?_
  split
  · rename_i y hy
    exact h.enter hx (he y (.inl hy))
  · exact h

theorem reads : ∀ {l : List (Use × List InstId)} {uses : Uses} {us : List Use},
    (∀ e ∈ l, ∀ y, e.1 = .inst y ∨ y ∈ e.2 → y.index = x.index → y.version ≤ x.version) →
    uses.Holds x us →
    (l.foldl Uses.read uses).Holds x (((l.filter (x ∈ ·.2)).map Prod.fst).foldl push us)
  | [], _, _, _, h => h
  | e :: l, uses, us, hl, h => by
    have hstep := reads (fun e he => hl e (.tail _ he)) (h.read hx (hl e (by simp)))
    by_cases hmem : x ∈ e.2 <;> simpa [hmem] using hstep

end Holds

end Uses

namespace Body

variable {body : Body} {x y : InstId} {u : Use}

/-- Every user with what it reads, in the order in which the uses are noted. -/
def readers (body : Body) : List (Use × List InstId) :=
  body.blocks.toList.flatMap (fun e =>
    e.2.insts.map (fun x => (.inst x, ((body.op? x).map Op.operands).getD [])) ++
      [(.term e.1, e.2.term.operand?.toList)]) ++
  body.states.toList.map fun e => (.debug e.1, e.2.insts)

theorem uses_eq (body : Body) : body.uses = body.readers.foldl Uses.read .empty := by
  simp only [readers, foldl_append, foldl_flatMap, foldl_map, foldl_cons,
    foldl_nil]
  rfl

/-- The user is placed and has `x` among its operands. -/
def Reads (body : Body) (x : InstId) : Use → Prop
  | .inst y => (∃ b, y ∈ (body.block b).insts) ∧ ∃ op, body.op? y = some op ∧ x ∈ op.operands
  | .term b => (body.block b).term.operand? = some x
  | .debug s => ∃ state, body.states.get? s = some state ∧ x ∈ state.insts

theorem mem_placed : x ∈ body.placed ↔ ∃ b, x ∈ (body.block b).insts := by
  simp only [placed, mem_flatMap, Prod.exists, SlotTable.mem_toList_iff]
  refine exists_congr fun b => ⟨?_, fun hx => ⟨_, get?_of_mem_insts hx, hx⟩⟩
  rintro ⟨block, hb, hx⟩
  simpa [Body.block, hb] using hx

theorem mem_readers {ys} : (u, ys) ∈ body.readers ↔ match u with
    | .inst y => y ∈ body.placed ∧ ((body.op? y).map Op.operands).getD [] = ys
    | .term b => ∃ block, body.blocks.get? b = some block ∧ block.term.operand?.toList = ys
    | .debug s => ∃ state, body.states.get? s = some state ∧ state.insts = ys := by
  simp only [readers, placed, mem_append, mem_flatMap, mem_map, mem_singleton,
    Prod.exists, SlotTable.mem_toList_iff, Prod.mk.injEq]
  cases u <;> simp only [reduceCtorEq, Use.inst.injEq, Use.term.injEq, Use.debug.injEq] <;> grind

theorem reads_iff : body.Reads x u ↔ ∃ ys, (u, ys) ∈ body.readers ∧ x ∈ ys := by
  simp only [mem_readers]
  cases u with
  | inst y => cases hop : body.op? y <;> simp [Reads, hop, mem_placed]
  | term b =>
    cases hb : body.blocks.get? b with
    | none => simpa [Reads, Body.block, hb] using fun h => by cases h
    | some block => simp [Reads, Body.block, hb]
  | debug s => cases hs : body.states.get? s <;> simp [Reads, hs]

theorem mem_named : y ∈ body.named ↔ ∃ e ∈ body.readers, e.1 = .inst y ∨ y ∈ e.2 := by
  simp only [readers, named, SlotTable.values, mem_append, mem_flatMap, mem_map,
    mem_singleton, Prod.exists]
  constructor
  · rintro (⟨_, ⟨b, block, hb, rfl⟩, (h | ⟨x, hx, h⟩) | h⟩ | ⟨_, ⟨s, state, hs, rfl⟩, h⟩)
    · exact ⟨_, _, .inl ⟨b, block, hb, .inl ⟨y, h, rfl⟩⟩, .inl rfl⟩
    · exact ⟨_, _, .inl ⟨b, block, hb, .inl ⟨x, hx, rfl⟩⟩, .inr h⟩
    · exact ⟨_, _, .inl ⟨b, block, hb, .inr rfl⟩, .inr h⟩
    · exact ⟨_, _, .inr ⟨s, state, hs, rfl⟩, .inr h⟩
  · grind

theorem nodup_readers (h : body.placed.Nodup) : (body.readers.map Prod.fst).Nodup := by
  obtain ⟨hblock, hdisj⟩ := nodup_flatMap.1 h
  have hstates := (SlotTable.nodup_keys body.states).map (fun _ _ => Use.debug.inj)
  rw [SlotTable.keys, map_map] at hstates
  simp only [readers, map_append, map_flatMap, map_map, map_cons, map_nil]
  refine nodup_append.2 ⟨nodup_flatMap.2 ⟨fun e he => ?_, ?_⟩, hstates, ?_⟩
  · refine nodup_append.2 ⟨(hblock e he).map fun _ _ => Use.inst.inj, by simp, ?_⟩
    simp
  · refine (hdisj.and (pairwise_map.1 (SlotTable.nodup_keys body.blocks))).imp fun h => ?_
    simp only [Function.onFun, disjoint_left, mem_append, mem_map,
      mem_singleton, Function.comp_apply] at h ⊢
    grind
  · simp only [mem_flatMap, mem_append, mem_map, mem_singleton,
      Function.comp_apply]
    grind

section Live

variable {inst : Inst} (hwf : body.WellFormed) (hi : body.Issued)
variable (hx : body.insts.get? x = some inst)
include hwf hi hx

theorem get?_uses : (body.uses.get? x).getD [] =
    ((body.readers.filter (x ∈ ·.2)).map Prod.fst).foldl Uses.push [] := by
  rw [uses_eq]
  refine (Uses.Holds.reads (hwf.insts.ne_null hx) (fun e he y hy => ?_) ⟨rfl, rfl⟩).2
  exact hi y (mem_named.2 ⟨e, he, hy⟩) x inst hx

theorem lists_uses_iff : body.uses.Lists x u ↔ body.Reads x u := by
  rw [Uses.Lists, get?_uses hwf hi hx, Uses.mem_foldl_push, reads_iff]
  simp

/-- No user is listed twice where none is placed twice. -/
theorem nodup_uses (hnd : body.placed.Nodup) : ((body.uses.get? x).getD []).Nodup := by
  have hkeys := (nodup_readers hnd).sublist ((filter_sublist (p := (x ∈ ·.2))).map Prod.fst)
  rw [get?_uses hwf hi hx, Uses.foldl_push_of_nodup (by simpa using hkeys)]
  simpa using hkeys

end Live

end Body

open Relation (ReflTransGen TransGen)

/-- Each step of a chain without circles uses up one of the keys that it can meet. -/
theorem next_chainEnd [DecidableEq α] {next : α → Option α} {n} {keys : List α} {a}
    (hlen : keys.length ≤ n) (hkeys : ∀ b c, ReflTransGen (fun a b => next a = some b) a b → next b
      = some c → b ∈ keys)
    (hacyclic : ∀ b, ReflTransGen (fun a b => next a = some b) a b → ¬ TransGen (fun a b => next a =
      some b) b b) : next (chainEnd next n a) = none := by
  induction n generalizing keys a with
  | zero =>
    obtain rfl := eq_nil_of_length_eq_zero (Nat.le_zero.1 hlen)
    cases ha : next a with
    | none => exact ha
    | some b => cases hkeys a b .refl ha
  | succ n ih =>
    cases ha : next a with
    | none => rw [chainEnd_of_none ha, ha]
    | some b =>
      rw [chainEnd_of_some ha]
      have hlen' : (keys.erase a).length ≤ n := by
        rw [length_erase_of_mem (hkeys a b .refl ha)]
        omega
      refine ih hlen' ?_ fun c hc => hacyclic c (.head ha hc)
      intro c d hc hd
      -- the chain does not come back to `a`
      have hne : c ≠ a := by
        rintro rfl
        exact hacyclic c .refl (.head' ha hc)
      exact (mem_erase_of_ne hne).2 (hkeys c d (.head ha hc) hd)

/-- A chain each step of which goes up, or to an end, runs in no circle. -/
theorem not_transGen_of_step {next : α → Option α} {P : α → Prop} {R : α → α → Prop}
    (trans : ∀ a b c, R a b → R b c → R a c) (irrefl : ∀ a, ¬ R a a)
    (step : ∀ a b, P a → next a = some b → R b a ∧ P b ∨ next b = none) {a b} (ha : P a)
    (h : ReflTransGen (fun a b => next a = some b) a b) :
    ¬ TransGen (fun a b => next a = some b) b b := by
  have hclimb : ∀ {a b}, P a → TransGen (fun a b => next a = some b) a b →
      R b a ∧ P b ∨ next b = none := by
    intro a b ha h
    induction h with
    | single h => exact step _ _ ha h
    | @tail b c _ h ih =>
      rcases ih with ⟨hup, hb⟩ | hb
      · exact (step b c hb h).imp_left fun hc => ⟨trans _ _ _ hc.1 hup, hc.2⟩
      · rw [hb] at h
        cases h
  have hb : P b ∨ next b = none := by
    rcases Relation.reflTransGen_iff_eq_or_transGen.1 h with rfl | h
    · exact .inl ha
    · exact (hclimb ha h).imp_left And.right
  intro hcircle
  obtain ⟨c, hc, -⟩ := Relation.TransGen.head'_iff.1 hcircle
  have hnext : next b ≠ none := by simp [hc]
  obtain ⟨hup, -⟩ := (hclimb (hb.resolve_right hnext) hcircle).resolve_right hnext
  exact irrefl b hup

theorem reflTransGen_chainEnd (next : α → Option α) (n : Nat) (a : α) :
    ReflTransGen (fun a b => next a = some b) a (chainEnd next n a) :=
  chainEnd_induction (fun _ _ h hb => h.tail hb) n a .refl

/-- A chain that comes to an end has run into no circle. -/
theorem not_transGen_of_end {next : α → Option α} {a b e}
    (h : ReflTransGen (fun a b => next a = some b) a e) (he : next e = none)
    (hb : ReflTransGen (fun a b => next a = some b) a b) :
    ¬ TransGen (fun a b => next a = some b) b b := by
  induction h using ReflTransGen.head_induction_on generalizing b with
  | refl =>
    intro hcircle
    obtain ⟨c, hc, -⟩ := Relation.TransGen.head'_iff.1 (.trans_right hb hcircle)
    rw [he] at hc
    cases hc
  | @head a c hac _ ih =>
    intro hcircle
    rcases hb.cases_head with rfl | ⟨d, hd, hb⟩
    · -- the circle goes through `c` as well
      obtain ⟨d, hd, hback⟩ := Relation.TransGen.head'_iff.1 hcircle
      obtain rfl := Option.mem_unique hac hd
      exact ih .refl (.tail' hback hac)
    · obtain rfl := Option.mem_unique hac hd
      exact ih hb hcircle

/-- A path is one of `r`, or comes to where something else than a step of `r` may be made. -/
theorem transGen_cases {r r' : α → α → Prop} {P : α → Prop} (hr : ∀ a b, r' a b → r a b ∨ P a)
    {a b} (h : TransGen r' a b) :
    TransGen r a b ∨ ∃ c, P c ∧ ReflTransGen r' a c ∧ TransGen r' c b := by
  induction h with
  | single hab => exact (hr _ _ hab).imp .single fun ha => ⟨a, ha, .refl, .single hab⟩
  | tail hab hbc ih =>
    rcases ih with ih | ⟨d, hd, had, hdb⟩
    · exact (hr _ _ hbc).imp ih.tail fun hb => ⟨_, hb, hab.to_reflTransGen, .single hbc⟩
    · exact .inr ⟨d, hd, had, hdb.tail hbc⟩

namespace Op

theorem mapOperands_mapOperands (r s : InstId → InstId) (op : Op) :
    (op.mapOperands r).mapOperands s = op.mapOperands (s ∘ r) := by
  cases op <;> simp [mapOperands]

end Op

namespace Terminator

theorem operand?_mapOperand (r : InstId → InstId) (t : Terminator) :
    (t.mapOperand r).operand? = t.operand?.map r := by
  cases t <;> rfl

theorem mapOperand_mapOperand (r s : InstId → InstId) (t : Terminator) :
    (t.mapOperand r).mapOperand s = t.mapOperand (s ∘ r) := by
  cases t <;> simp [mapOperand]

end Terminator

theorem DebugValue.mapInsts_mapInsts (r s : InstId → InstId) (v : DebugValue) :
    (v.mapInsts r).mapInsts s = v.mapInsts (s ∘ r) := by
  induction v using DebugValue.induct with
  | value x => rfl
  | const c => rfl
  | object idx => rfl
  | merge selector other candidates ih =>
    simpa [mapInsts, mapInstsAll_eq_map] using ih

namespace DebugState

theorem insts_mapInsts (r : InstId → InstId) (state : DebugState) :
    (state.mapInsts r).insts = state.insts.map r := by
  simp [insts, debugValues, mapInsts, mapTop, map_flatMap, flatMap_map, flatMap_assoc,
    DebugValue.insts_mapInsts]

theorem mapInsts_mapInsts (r s : InstId → InstId) (state : DebugState) :
    (state.mapInsts r).mapInsts s = state.mapInsts (s ∘ r) := by
  simp [mapInsts, mapTop, DebugValue.mapInsts_mapInsts]

end DebugState

namespace Body

variable {body : Body} {x : InstId} {u : Use}

section Rename

variable (body) (r s : InstId → InstId)

theorem mapOperands_mapOperands :
    (body.mapOperands r).mapOperands s = body.mapOperands (s ∘ r) := by
  simp [mapOperands, SlotTable.map_map, Function.comp_def, Op.mapOperands_mapOperands,
    Terminator.mapOperand_mapOperand, DebugState.mapInsts_mapInsts]

theorem placed_mapOperands : (body.mapOperands r).placed = body.placed := by
  simp [placed, mapOperands, SlotTable.toList_map, flatMap_map]

theorem readers_mapOperands :
    (body.mapOperands r).readers = body.readers.map fun e => (e.1, e.2.map r) := by
  have hops : ∀ x, (((body.mapOperands r).op? x).map Op.operands).getD [] =
      (((body.op? x).map Op.operands).getD []).map r := by
    intro x
    rw [op?_mapOperands]
    cases body.op? x <;> simp [Op.operands_mapOperands]
  simp only [readers, hops]
  simp [mapOperands, SlotTable.toList_map, flatMap_map, map_flatMap,
    Terminator.operand?_mapOperand, DebugState.insts_mapInsts, Function.comp_def, Option.toList_map]

theorem reads_mapOperands : (body.mapOperands r).Reads x u ↔ ∃ i, r i = x ∧ body.Reads i u := by
  simp only [reads_iff, readers_mapOperands, mem_map]
  grind

theorem mem_named_mapOperands (h : x ∈ (body.mapOperands r).named) :
    x ∈ body.named ∨ ∃ i ∈ body.named, r i = x := by
  simp only [mem_named, readers_mapOperands, mem_map] at h ⊢
  grind

end Rename

/-- The operands of `body'` are those of `body` renamed by `r`. All else is the same, which shows
when the operands are blanked out. -/
structure Renamed (r : InstId → InstId) (body body' : Body) : Prop where
  inst : ∀ x, (body'.inst? x).map (fun inst =>
      (inst.ty, inst.op.operands, inst.op.mapOperands fun _ => .null)) =
    (body.inst? x).map fun inst =>
      (inst.ty, inst.op.operands.map r, inst.op.mapOperands fun _ => .null)
  block : ∀ b, (body'.blocks.get? b).map (fun block =>
      (block.name, block.insts, block.term.operand?, block.term.mapOperand fun _ => .null)) =
    (body.blocks.get? b).map fun block =>
      (block.name, block.insts, block.term.operand?.map r, block.term.mapOperand fun _ => .null)
  state : ∀ s, (body'.states.get? s).map (fun state =>
      (state.insts, state.mapInsts fun _ => .null)) =
    (body.states.get? s).map fun state => (state.insts.map r, state.mapInsts fun _ => .null)
  rest : body'.entry = body.entry ∧ body'.params = body.params ∧ body'.ret = body.ret

theorem renamed_mapOperands (body : Body) (r : InstId → InstId) :
    Renamed r body (body.mapOperands r) where
  inst x := by
    simp [inst?, mapOperands, Function.comp_def, Op.operands_mapOperands,
      Op.mapOperands_mapOperands]
  block b := by
    simp [mapOperands, Function.comp_def, Terminator.operand?_mapOperand,
      Terminator.mapOperand_mapOperand]
  state s := by
    simp [mapOperands, Function.comp_def, DebugState.insts_mapInsts, DebugState.mapInsts_mapInsts]
  rest := ⟨rfl, rfl, rfl⟩

section Acyclic

variable {pairs : List (InstId × InstId)} {m : KeyMap .inst InstId} (hm : KeyMap.ofList pairs = m)
include hm

theorem get?_resolve (x : InstId) (hacyclic : ∀ y, ReflTransGen (fun a b => m.get? a = some b) x y →
    ¬ TransGen (fun a b => m.get? a = some b) y y) : m.get? (resolve m x) = none := by
  have hlen : (pairs.map Prod.fst).length ≤ m.size := by simp [← hm, KeyMap.size_ofList]
  refine next_chainEnd hlen (fun b c _ hb => ?_) hacyclic
  exact mem_map.2 ⟨(b, c), KeyMap.mem_of_get?_ofList (hm ▸ hb), rfl⟩

theorem issued_resolve (hpairs : ∀ e ∈ pairs, body.insts.Issued e.2) (hx : body.insts.Issued x) :
    body.insts.Issued (resolve m x) :=
  chainEnd_induction (fun a b _ hb => hpairs (a, b) (KeyMap.mem_of_get?_ofList (hm ▸ hb))) _ x hx

theorem Issued.substitute (hi : body.Issued) (hpairs : ∀ e ∈ pairs, body.insts.Issued e.2) :
    (body.substitute m).Issued := by
  intro x hx j inst hj
  have hissued : body.insts.Issued x := by
    rcases mem_named_mapOperands body _ hx with hx | ⟨i, hmem, rfl⟩
    · exact hi x hx
    · exact issued_resolve hm hpairs (hi i hmem)
  obtain ⟨inst, hj, -⟩ := Option.map_eq_some_iff.1 ((SlotTable.get?_map ..).symm.trans hj)
  exact hissued j inst hj

theorem substitute_exact (hwf : body.WellFormed) (hi : body.Issued) (hnd : body.placed.Nodup)
    (hpairs : ∀ e ∈ pairs, body.insts.Issued e.2)
    (hacyclic : ∀ x, ¬ TransGen (fun a b => m.get? a = some b) x x) :
    (∀ x, ReflTransGen (fun a b => m.get? a = some b) x (resolve m x) ∧
      m.get? (resolve m x) = none) ∧
    Renamed (resolve m) body (body.substitute m) ∧
    (∀ x op, (body.substitute m).op? x = some op → ∀ y ∈ op.operands, m.get? y = none) ∧
    (∀ b y, ((body.substitute m).block b).term.operand? = some y → m.get? y = none) ∧
    (∀ s state, (body.substitute m).states.get? s = some state →
      ∀ y ∈ state.insts, m.get? y = none) ∧
    (body.substitute m).substitute m = body.substitute m ∧
    ∀ d inst, body.insts.get? d = some inst →
      ((body.uses.get? d).getD []).Nodup ∧ (((body.substitute m).uses.get? d).getD []).Nodup ∧
      (∀ u, body.uses.Lists d u ↔ body.Reads d u) ∧
      (∀ u, (body.substitute m).uses.Lists d u ↔ (body.substitute m).Reads d u) ∧
      ∀ u, (body.substitute m).uses.Lists d u ↔ ∃ i, resolve m i = d ∧ body.Reads i u := by
  have hend : ∀ x, m.get? (resolve m x) = none := fun x => get?_resolve hm x fun y _ => hacyclic y
  have hmap : ∀ (ys : List InstId), ∀ y ∈ ys.map (resolve m), m.get? y = none := by
    intro ys y hy
    obtain ⟨x, -, rfl⟩ := mem_map.1 hy
    exact hend x
  have hidem : resolve m ∘ resolve m = resolve m := funext fun x => chainEnd_of_none (hend x)
  refine ⟨fun x => ⟨reflTransGen_chainEnd .., hend x⟩, renamed_mapOperands .., fun x op hop => ?_,
    fun b y hy => ?_, fun s state hs => ?_, ?_, fun d inst hd => ?_⟩
  · obtain ⟨op, -, rfl⟩ := Option.map_eq_some_iff.1 ((op?_mapOperands ..).symm.trans hop)
    exact Op.operands_mapOperands .. ▸ hmap _
  · rw [substitute, block_mapOperands, Terminator.operand?_mapOperand] at hy
    obtain ⟨x, -, rfl⟩ := Option.map_eq_some_iff.1 hy
    exact hend x
  · obtain ⟨state, -, rfl⟩ := Option.map_eq_some_iff.1 ((SlotTable.get?_map ..).symm.trans hs)
    exact DebugState.insts_mapInsts .. ▸ hmap _
  · rw [substitute, substitute, mapOperands_mapOperands, hidem]
  · have hd' : (body.substitute m).insts.get? d = some _ :=
      (SlotTable.get?_map ..).trans (congrArg _ hd)
    have hwf' : (body.substitute m).WellFormed := hwf.mapOperands _
    have hi' := hi.substitute hm hpairs
    have hnd' : (body.substitute m).placed.Nodup := (placed_mapOperands ..).symm ▸ hnd
    refine ⟨nodup_uses hwf hi hd hnd, nodup_uses hwf' hi' hd' hnd',
      fun u => lists_uses_iff hwf hi hd, fun u => lists_uses_iff hwf' hi' hd', fun u => ?_⟩
    rw [lists_uses_iff hwf' hi' hd', substitute, reads_mapOperands]

end Acyclic

/-- Returns its parameter after two casts. -/
def castTwice : Body where
  blocks := .ofEntries [{ insts := [⟨0, 1⟩, ⟨1, 1⟩, ⟨2, 1⟩], term := .ret (some ⟨2, 1⟩) }]
  insts := .ofEntries [⟨.param 0, some .ref⟩, ⟨.checkCast ⟨0, 1⟩ ⟨0, 1⟩, some .ref⟩,
    ⟨.checkCast ⟨1, 1⟩ ⟨0, 1⟩, some .ref⟩]
  states := .ofEntries []
  entry := ⟨0, 1⟩
  params := [.ref]
  ret := some .ref

theorem wellFormed_castTwice : castTwice.WellFormed := .ofEntries rfl

def uncast : List (InstId × InstId) := [(⟨2, 1⟩, ⟨1, 1⟩), (⟨1, 1⟩, ⟨0, 1⟩)]

theorem index_lt_of_uncast {a b}
    (h : TransGen (fun a b => (KeyMap.ofList uncast).get? a = some b) a b) : b.index < a.index := by
  have hlt : ∀ e ∈ uncast, e.2.index < e.1.index := by decide
  induction h with
  | single h => exact hlt _ (KeyMap.mem_of_get?_ofList h)
  | tail _ h ih => exact Nat.lt_trans (hlt _ (KeyMap.mem_of_get?_ofList h)) ih

theorem substitute_exact_castTwice : resolve (.ofList uncast) ⟨2, 1⟩ = ⟨0, 1⟩ ∧
    (castTwice.substitute (.ofList uncast)).uses.Lists ⟨0, 1⟩ (.term ⟨0, 1⟩) := by
  have hlive : ∀ e ∈ uncast, (castTwice.insts.get? e.2).isSome = true := by decide
  obtain ⟨-, -, -, -, -, -, huses⟩ := substitute_exact rfl wellFormed_castTwice
    (issued_of_live (by decide)) (by decide)
    (fun e he => SlotTable.issued_of_get? (Option.eq_some_of_isSome (hlive e he)))
    fun x h => Nat.lt_irrefl _ (index_lt_of_uncast h)
  exact ⟨by decide, ((huses ⟨0, 1⟩ _ rfl).2.2.2.2 _).2 ⟨⟨2, 1⟩, by decide, rfl⟩⟩

end Body

end EscapeAnalysis
