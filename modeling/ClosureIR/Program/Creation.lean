import ClosureIR.Program.Locals

/-!
# Making scopes

Scripts stand alone; every other scope has a parent.  A closure takes the next
number of its method or script, and its name and first labels follow from that.
-/

namespace ClosureIR

namespace Scope

def ofScript (fileName : String) (id : ScopeId) : Scope :=
  { id, kind := .script, name := fileName, fileName, line := 0, parent := none, staticScope := none }

def ofMethod (parent : ScopeId) (fileName name : String) (line : Nat) (static : Option StaticScope)
    (id : ScopeId) : Scope :=
  { id, kind := .method, name, fileName, line, parent := some parent, staticScope := static }

def closureStem (forLoop : Bool) : String := if forLoop then "_FOR_LOOP_" else "_CLOSURE_"

def ofBlock (options : Options) (parent : ScopeId) (fileName : String) (forLoop : Bool) (line : Nat)
    (static : Option StaticScope) (signature : BlockSignature) (number depth : Nat)
    (id : ScopeId) : Scope :=
  let stem := closureStem forLoop
  { id
    kind := if forLoop then .forLoopBody else .closure
    name := stem ++ toString number
    fileName
    line
    parent := some parent
    staticScope := if options.irOnly || forLoop then static else static.map (·.bindTo id)
    names := ClosureData.firstNames stem
    closure := some (.fresh stem number depth
      (if options.irOnly then none
        else some (.ofSignature id signature options.defaultBinding))) }

def ofEvalUnit (parent : ScopeId) (fileName : String) (line : Nat) (static : Option StaticScope)
    (stem : String) (number depth : Nat) (id : ScopeId) : Scope :=
  { id
    kind := .evalUnit
    name := stem ++ toString number
    fileName
    line
    parent := some parent
    staticScope := static
    names := ClosureData.firstNames stem
    closure := some (.fresh stem number depth none) }

end Scope

namespace Program

open BuildM

def newScript (fileName : String) : BuildM ScopeId := addScope (.ofScript fileName)

def newMethod (parent : ScopeId) (name : String) (line : Nat) (static : Option StaticScope) :
    BuildM ScopeId := do
  let around ← ask (·.scope parent)
  addScope (.ofMethod parent around.fileName name line static)

/--
A block or the body of a `for` loop.  Unless only instructions are generated, it
has a block body, and a block binds its descriptor to itself.
-/
def newClosure (parent : ScopeId) (forLoop : Bool) (line : Nat) (static : Option StaticScope)
    (signature : BlockSignature) : BuildM ScopeId := do
  let around ← ask (·.scope parent)
  let number ← newClosureNumber parent
  let depth ← ask (·.depthUnder parent)
  let options := (← get).options
  addScope (.ofBlock options parent around.fileName forLoop line static signature number depth)

/-- Code evaluated in the context of `parent`; it comes from a file of its own. -/
def newEvalUnit (parent : ScopeId) (fileName : String) (line : Nat) (static : Option StaticScope)
    (stem : String) : BuildM ScopeId := do
  let number ← newClosureNumber parent
  let depth ← ask (·.depthUnder parent)
  addScope (.ofEvalUnit parent fileName line static stem number depth)

/-- End the life of a closure as a scope of its own. -/
def markInlined (id : ScopeId) : BuildM Unit := do
  let _ ← requireClosure id
  adjust id (·.withClosure fun data => { data with isInlined := true })

def setParameters (id : ScopeId) (names : List String) : BuildM Unit := do
  let _ ← requireClosure id
  adjust id (·.withClosure fun data => { data with parameters := names })

end Program

end ClosureIR
