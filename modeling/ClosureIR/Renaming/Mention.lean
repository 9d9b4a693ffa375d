import ClosureIR.Graph.Basic

/-!
# Mentions

The labels and temporaries that instructions and graphs mention, in the order
in which a reader meets them.
-/

namespace ClosureIR

inductive Mention where
  | label (l : Label)
  | temp (t : Temporary)
  deriving DecidableEq, Repr

namespace Mention

def ofVariable? : Variable → Option Mention
  | .ofLocal _ => none
  | .ofTemp t => some (.temp t)

def ofOperand? : Operand → Option Mention
  | .label l => some (.label l)
  | .var v => ofVariable? v
  | _ => none

end Mention

def Operand.mentions (o : Operand) : List Mention := o.visited.filterMap Mention.ofOperand?

/-- What an instruction mentions: its labels, then what it writes, then what it reads. -/
def Instr.mentions (i : Instr) : List Mention :=
  i.labels.map .label ++ i.result?.toList.filterMap Mention.ofVariable? ++
    i.operands.flatMap (·.mentions)

def Block.mentions (b : Block) : List Mention := .label b.label :: b.instrs.flatMap (·.mentions)

def Graph.mentions (g : Graph) : List Mention := g.blocks.flatMap (·.mentions)

end ClosureIR
