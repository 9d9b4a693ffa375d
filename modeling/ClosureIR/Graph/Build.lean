import ClosureIR.Fault
import ClosureIR.Graph.Basic
import ClosureIR.Graph.Stretch

/-!
# Building graphs

The blocks of a graph are an entry, one block for every stretch of the
instructions, and an exit.  Blocks without a label of their own take fresh
ones, in the order in which they stand.  A graph exists unless some
instruction targets a label that no block bears.
-/

namespace ClosureIR

namespace Graph

/-- The blocks of the stretches, from block number `id` and fresh label number `used` on. -/
def bodyBlocks (fresh : Nat → Label) : Nat → Nat → List Stretch → List Block
  | _, _, [] => []
  | id, used, ⟨some l, instrs⟩ :: rest => ⟨⟨id⟩, l, instrs⟩ :: bodyBlocks fresh (id + 1) used rest
  | id, used, ⟨none, instrs⟩ :: rest =>
    ⟨⟨id⟩, fresh used, instrs⟩ :: bodyBlocks fresh (id + 1) (used + 1) rest

def labelsNeeded (is : List Instr) : Nat := Stretch.anonymous (Stretch.split is) + 2

def layout (fresh : Nat → Label) (is : List Instr) : List Block :=
  let stretches := Stretch.split is
  let body := bodyBlocks fresh 1 1 stretches
  ⟨⟨0⟩, fresh 0, []⟩ ::
    (body ++ [⟨⟨body.length + 1⟩, fresh (Stretch.anonymous stretches + 1), []⟩])

/-- The block that a jump to `l` reaches: the last one that bears the label. -/
def jumpTarget? (blocks : List Block) (l : Label) : Option BlockId :=
  ((blocks.filter fun b => decide (b.label = l)).getLast?).map (·.id)

def resolve (blocks : List Block) (scopeName : String) (l : Label) : Except Refusal BlockId :=
  match jumpTarget? blocks l with
  | some id => .ok id
  | none => .error (.unknownLabel l scopeName)

def onward (exit id : BlockId) : FlowEdge :=
  let next : BlockId := ⟨id.index + 1⟩
  ⟨id, next, if next = exit then .exit else .fallThrough⟩

def leaving (resolve : Label → Except Refusal BlockId) (exit : BlockId) (b : Block) :
    Except Refusal (List FlowEdge) :=
  match b.instrs.getLast? with
  | some (.ret _) => .ok [⟨b.id, exit, .exit⟩]
  | some (.jump target) => do
    let there ← resolve target
    return [⟨b.id, there, .regular⟩]
  | some (.branchFalse _ target) => do
    let there ← resolve target
    return [⟨b.id, there, .regular⟩, onward exit b.id]
  | some (.guard g) => do
    let there ← resolve g.failure
    return [⟨b.id, there, .regular⟩, onward exit b.id]
  | _ => .ok [onward exit b.id]

/--
The graph of the instructions of a scope.  Its fresh labels are `fresh 0` for
the entry, the following ones for blocks without a label, the last for the exit.
-/
def build (scope : ScopeId) (scopeName : String) (is : List Instr) (fresh : Nat → Label) :
    Except Refusal Graph := do
  let g := unconnected scope (layout fresh is)
  let edges ← g.blocks.dropLast.mapM (leaving (resolve g.blocks scopeName) g.exit)
  return g.addEdges edges.flatten

end Graph

end ClosureIR
