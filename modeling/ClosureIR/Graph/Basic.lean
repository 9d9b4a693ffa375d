import ClosureIR.Edge.OrderedSet
import ClosureIR.Edge.View
import ClosureIR.Instr.Basic

/-!
# Control-flow graphs

A graph has basic blocks, an entry, an exit, and for every block the set of
edges that leave it and the set of edges that reach it.
-/

namespace ClosureIR

structure BlockId where
  index : Nat
  deriving DecidableEq, Repr, Inhabited

namespace BlockId

def text (id : BlockId) : String := toString id.index

instance : Ord BlockId where
  compare a b := compare a.index b.index

end BlockId

inductive EdgeKind where
  /-- A jump, a branch that is taken, or the failure of a guard. -/
  | regular
  | fallThrough
  /-- A return, or the end of the scope. -/
  | exit
  deriving DecidableEq, Repr, Inhabited

namespace EdgeKind

def all : List EdgeKind := [.regular, .fallThrough, .exit]

def text : EdgeKind → String
  | .regular => "Regular"
  | .fallThrough => "FallThrough"
  | .exit => "Exit"

def rank : EdgeKind → Nat
  | .regular => 0
  | .fallThrough => 1
  | .exit => 2

instance : Ord EdgeKind where
  compare a b := compare a.rank b.rank

theorem rank_injective {a b : EdgeKind} (equal : a.rank = b.rank) : a = b := by
  cases a <;> cases b <;> simp_all [rank]

end EdgeKind

abbrev FlowEdge := Edge BlockId EdgeKind

abbrev FlowEdges := EdgeSet BlockId EdgeKind

/-- A stretch of instructions that control enters at the top and leaves at the bottom. -/
structure Block where
  id : BlockId
  label : Label
  instrs : List Instr
  deriving DecidableEq, Repr, Inhabited

/-- The control-flow graph of a scope; blocks are numbered by position. -/
structure Graph where
  scope : ScopeId
  blocks : List Block
  entry : BlockId
  exit : BlockId
  outgoing : List FlowEdges
  incoming : List FlowEdges
  deriving DecidableEq, Repr

namespace Graph

def instrs (g : Graph) : List Instr := g.blocks.flatMap (·.instrs)

/-- The first block that bears the label. -/
def blockForLabel? (g : Graph) (l : Label) : Option BlockId :=
  (g.blocks.find? fun b => decide (b.label = l)).map (·.id)

def outgoingOf (g : Graph) (id : BlockId) : FlowEdges := g.outgoing.getD id.index []

def incomingOf (g : Graph) (id : BlockId) : FlowEdges := g.incoming.getD id.index []

def successors (g : Graph) (id : BlockId) : List BlockId :=
  (g.outgoingOf id).map (·.destination)

def predecessors (g : Graph) (id : BlockId) : List BlockId :=
  (g.incomingOf id).map (·.source)

def successorsOf (g : Graph) (id : BlockId) (kind : EdgeKind) : EdgeView BlockId EdgeKind :=
  { edges := g.outgoingOf id, kind }

def successorsNotOf (g : Graph) (id : BlockId) (kind : EdgeKind) : EdgeView BlockId EdgeKind :=
  { edges := g.outgoingOf id, kind, negate := true }

def predecessorsOf (g : Graph) (id : BlockId) (kind : EdgeKind) : EdgeView BlockId EdgeKind :=
  ({ edges := g.incomingOf id, kind } : EdgeView BlockId EdgeKind).fromSources

/-- A graph of blocks without any edge; the entry is the first block, the exit the last. -/
def unconnected (scope : ScopeId) (blocks : List Block) : Graph where
  scope := scope
  blocks := blocks
  entry := ⟨0⟩
  exit := ⟨blocks.length - 1⟩
  outgoing := blocks.map fun _ => []
  incoming := blocks.map fun _ => []

def addEdge (g : Graph) (edge : FlowEdge) : Graph :=
  { g with
    outgoing := g.outgoing.modify edge.source.index (EdgeSet.insert edge)
    incoming := g.incoming.modify edge.destination.index (EdgeSet.insert edge) }

def addEdges (g : Graph) (edges : List FlowEdge) : Graph := edges.foldl addEdge g

@[simp] theorem addEdge_scope (g : Graph) (e : FlowEdge) : (g.addEdge e).scope = g.scope := rfl

@[simp] theorem addEdge_blocks (g : Graph) (e : FlowEdge) : (g.addEdge e).blocks = g.blocks := rfl

@[simp] theorem addEdge_entry (g : Graph) (e : FlowEdge) : (g.addEdge e).entry = g.entry := rfl

@[simp] theorem addEdge_exit (g : Graph) (e : FlowEdge) : (g.addEdge e).exit = g.exit := rfl

theorem addEdges_blocks (g : Graph) (edges : List FlowEdge) :
    (g.addEdges edges).blocks = g.blocks := by
  induction edges generalizing g with
  | nil => rfl
  | cons e rest ih => exact ih (g.addEdge e)

end Graph

end ClosureIR
