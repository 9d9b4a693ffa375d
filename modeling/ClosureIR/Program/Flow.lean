import ClosureIR.Graph.Build
import ClosureIR.Graph.Text
import ClosureIR.Program.Names

/-!
# Instructions and graphs of scopes

Instructions are appended; a graph is made of what is there at the time and
kept until the next one is made.
-/

namespace ClosureIR

namespace Program

open BuildM

def addInstr (id : ScopeId) (i : Instr) : BuildM Unit := do
  let s ← requireLive id
  store id (s.append i)

/--
Make the graph of a scope and keep it.  The labels of its blocks come from the
scope, and are used up also when some instruction has no place to jump to.
-/
def buildGraph (id : ScopeId) : BuildM Graph := do
  let s ← requireLive id
  let labels ← newLabels id (Graph.labelsNeeded s.instrs)
  let g ← ofRefusal (Graph.build id s.name s.instrs fun n => labels.getD n default)
  adjust id fun s => { s with graph := some g }
  return g

end Program

namespace Scope

private def column (n : Nat) : String :=
  let digits := toString n
  String.ofList (List.replicate (4 - digits.length) ' ') ++ digits

def listing (s : Scope) : String :=
  String.join (s.instrs.zipIdx.map fun (i, n) => column n ++ "\t" ++ i.text ++ "\n")

def bodyText (s : Scope) : String :=
  let inside := match s.graph with
    | some g => "\nCFG:\n" ++ g.text ++ "\nInstructions:\n" ++ g.listing
    | none => s.listing
  s.name ++ " = \x7b \n" ++ inside ++ "\n\x7d\n\n"

end Scope

end ClosureIR
