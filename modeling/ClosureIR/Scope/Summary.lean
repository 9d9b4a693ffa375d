import ClosureIR.Instr.Text
import ClosureIR.Scope.Basic
import ClosureIR.Text.Json

/-!
# Summaries of scopes

All that is worth comparing about a scope, as a document.  What a scope does
not have is left out, its parent apart.
-/

namespace ClosureIR

namespace LocalKind

def text : LocalKind → String
  | .plain => "Plain"
  | .closure => "Closure"

end LocalKind

namespace LocalVar

def summary (v : LocalVar) : Json :=
  .object
    [("name", .string v.name), ("depth", .number v.depth), ("slot", .number v.slot),
      ("owner", .number v.owner.index), ("kind", .string v.kind.text)]

end LocalVar

namespace Graph

def edgeSummary (e : FlowEdge) : Json :=
  .object
    [("source", .number e.source.index), ("destination", .number e.destination.index),
      ("kind", .string e.kind.text)]

def blockSummary (g : Graph) (b : Block) : Json :=
  .object
    [("id", .number b.id.index), ("label", .string b.label.text),
      ("instrs", .array (b.instrs.map fun i => .string i.text)),
      ("successors", .array ((g.outgoingOf b.id).map edgeSummary))]

end Graph

namespace Scope

def optionalField (key : String) : Option Json → List (String × Json)
  | some value => [(key, value)]
  | none => []

def summary (s : Scope) : Json :=
  .object
    ([("id", .number s.id.index), ("name", .string s.name), ("kind", .string s.kind.text),
        ("lexical_parent", match s.parent with
          | some parent => .number parent.index
          | none => .null)] ++
      optionalField "closure_id" (s.closure.map fun data => .number data.number) ++
      optionalField "nesting_depth" (s.closure.map fun data => .number data.nestingDepth) ++
      [("locals", .array (s.locals.sorted.map (·.summary))),
        ("instrs", .array (s.instrs.map fun i => .string i.text))] ++
      optionalField "blocks"
        (s.graph.map fun g => .array (g.blocks.map (g.blockSummary ·))))

end Scope

end ClosureIR
