import ClosureIR.Program.Creation
import ClosureIR.Renaming.Apply
import ClosureIR.Renaming.Prepare

/-!
# Cloning closures

A clone is a new closure that does what its source does.  It takes a number,
a name and labels of its own; its locals are those of the source, its graph is
the source's under a renaming, and the closures nested in it are cloned with
it.  A clone that fails half way stays in the arena.
-/

namespace ClosureIR

namespace Scope

def cloneShell (s : Scope) (data : ClosureData) (parent : ScopeId) (number : Nat) (id : ScopeId) :
    Scope :=
  let name := "_CLOSURE_CLONE_" ++ toString number
  { id
    kind := s.kind
    name
    fileName := s.fileName
    line := s.line
    parent := some parent
    staticScope := s.staticScope
    locals := s.locals.reowned id
    names := ClosureData.firstNames (name ++ "_")
    closure := some
      { ClosureData.fresh (name ++ "_") number data.nestingDepth
          (data.body.map (·.rebind id)) with
        parameters := data.parameters } }

/--
Fill in the copied body.  A first or last label that the body of the source
mentions follows the renaming of the body.
-/
def withBody (s : Scope) (source : ClosureData) (r : Renaming) (g : Graph)
    (blockArgs : List Operand) : Scope :=
  { s.withClosure fun data =>
      { data with
        blockArgs
        startLabel := (r.label? source.startLabel).getD data.startLabel
        endLabel := (r.label? source.endLabel).getD data.endLabel } with
    instrs := g.instrs
    graph := some g }

end Scope

namespace Program

open BuildM

def cloneStep (nested : Renaming → ScopeId → BuildM ScopeId) (r : Renaming) (source : ScopeId) :
    BuildM ScopeId := do
  let s ← requireLive source
  let data ← requireClosure source
  let g ← requireGraph source
  let number ← newClosureNumber r.host
  let id ← addScope (s.cloneShell data r.host number)
  let child ← (r.derive source id).prepare g
  let body ← g.renamed (nested child) child id
  let blockArgs ← Operand.renamedAll (nested child) child data.blockArgs
  adjust id (·.withBody data child body blockArgs)
  return id

/-- Clone a closure in which closures are nested less than `fuel` deep. -/
def cloneWithin : Nat → Renaming → ScopeId → BuildM ScopeId
  | 0, _, source => misuse (.selfNested source)
  | fuel + 1, r, source => cloneStep (cloneWithin fuel) r source

/--
Clone a closure under a renaming.  Closures that do not contain themselves are
nested no deeper than there are scopes.
-/
def cloneUnder (r : Renaming) (source : ScopeId) : BuildM ScopeId := do
  cloneWithin ((← get).scopes.size + 1) r source

def cloneClosure (source parent : ScopeId) : BuildM ScopeId := cloneUnder (.under parent) source

def cloneOperand (r : Renaming) (o : Operand) : BuildM Operand := o.renamed (cloneUnder r) r

def cloneInstr (r : Renaming) (i : Instr) : BuildM Instr := i.renamed (cloneUnder r) r

def cloneGraph (r : Renaming) (owner : ScopeId) (g : Graph) : BuildM Graph :=
  g.renamed (cloneUnder r) r owner

end Program

end ClosureIR
