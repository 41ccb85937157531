import EscapeAnalysis.Ir.Body

/-!
# Uses

Who reads the value of an instruction: another instruction, the terminator of a block, or a debug
state.
-/

namespace EscapeAnalysis

inductive Use where
  | inst (x : InstId)
  | term (b : BlockId)
  | debug (s : SafepointId)
deriving DecidableEq

def Use.text : Use → String
  | inst x => s!"Inst({x.text})"
  | term b => s!"Term({b.text})"
  | debug s => s!"Debug({s.text})"

abbrev Uses := SideTable .inst (List Use)

namespace Uses

/-- Notes one more use of `x`, unless it is the one noted last. -/
def note (uses : Uses) (x : InstId) (user : Use) : Uses :=
  uses.alter x fun
    | none => [user]
    | some users => if users.getLast? = some user then users else users ++ [user]

def enter (uses : Uses) (x : InstId) : Uses := uses.alter x (·.getD [])

end Uses

namespace Body

/-- Lists the users of every instruction that is placed or read. A user that reads a value several
times in a row is listed once. -/
def uses (body : Body) : Uses :=
  let ofInst (uses : Uses) (x : InstId) : Uses :=
    (((body.op? x).map Op.operands).getD []).foldl (fun uses y => uses.note y (.inst x))
      (uses.enter x)
  let ofBlock (uses : Uses) : BlockId × Block → Uses := fun (b, block) =>
    block.term.operand?.toList.foldl (fun uses y => uses.note y (.term b))
      (block.insts.foldl ofInst uses)
  let ofState (uses : Uses) : SafepointId × DebugState → Uses := fun (s, state) =>
    state.insts.foldl (fun uses y => uses.note y (.debug s)) uses
  body.states.toList.foldl ofState (body.blocks.toList.foldl ofBlock .empty)

end Body

end EscapeAnalysis
