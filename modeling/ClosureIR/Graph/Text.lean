import ClosureIR.Graph.Basic
import ClosureIR.Instr.Text

/-!
# The written form of graphs

A graph is written once by its edges and once by its instructions.
-/

namespace ClosureIR

namespace Block

def heading (b : Block) : String := "BB [" ++ b.id.text ++ ":" ++ b.label.text ++ "]"

def listing (b : Block) : String :=
  b.heading ++ "\n" ++ String.join (b.instrs.map fun i => "\t" ++ i.text ++ "\n")

end Block

namespace Graph

private def arrows (edges : FlowEdges) : String :=
  if edges.isEmpty then ""
  else " -> " ++ ", ".intercalate
    (edges.map fun e => e.destination.text ++ " (" ++ e.kind.text ++ ")")

def text (g : Graph) : String :=
  String.join (g.blocks.map fun b => b.heading ++ arrows (g.outgoingOf b.id) ++ "\n")

def listing (g : Graph) : String := String.join (g.blocks.map (·.listing))

end Graph

end ClosureIR
