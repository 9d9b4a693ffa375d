import ClosureIR.Program.Names

/-!
# Finding and declaring locals

A local is looked up along the lexical walk and declared, when it is not
there, at the end of that walk.  A closure gets a view with the depth that it
asked for; the table keeps the declaration as it was made.
-/

namespace ClosureIR.Program

open BuildM

def declare (id : ScopeId) (name : String) (kind : LocalKind) : BuildM LocalVar := do
  let s ← ask (·.scope id)
  let v : LocalVar := ⟨name, 0, s.locals.nextSlot, id, kind⟩
  let stored := s.locals.store v
  store id { s with locals := stored }
  match stored.advance? with
  | some table => do
    store id { s with locals := table }
    return v
  | none => misuse .wordOverflow

def newLocal (id : ScopeId) (name : String) (depth : Nat) : BuildM LocalVar := do
  let _ ← requireLive id
  let (site, kind) ← ask (·.declarationSite id depth)
  declare site name kind

def findOrDeclare (id : ScopeId) (name : String) (depth : Nat) : BuildM LocalVar := do
  match ← ask (·.findLocal id name depth) with
  | some v => return v
  | none => newLocal id name depth

/--
A variable of the given name, seen from a scope.  Loop bodies ask the scope
around them; methods and scripts have their locals at depth 0.
-/
def getLocal (id : ScopeId) (name : String) (depth : Nat) : BuildM LocalVar := do
  let site ← ask (·.lookupSite id)
  let s ← ask (·.scope site)
  let v ← findOrDeclare site name depth
  return if s.isClosure then v.atDepth depth else v

def newFlip (id : ScopeId) : BuildM LocalVar := do
  let s ← ask (·.scope id)
  if s.holdsFlips then
    let name ← mint id (·.mintName? "%flip")
    newLocal id name 0
  else misuse .flipInClosure

/--
The local that holds the block passed to the method around a closure.  An
existing one is reused wherever it is on the way up.  Otherwise the method
declares it, or, where no method is around, the closure itself.
-/
def implicitBlock (id : ScopeId) : BuildM LocalVar := do
  let data ← requireClosure id
  match ← ask (·.findLocal id blockName data.nestingDepth) with
  | some v => return v.atDepth data.nestingDepth
  | none =>
    let flat ← ask (·.nearestFlat id)
    let s ← ask (·.scope flat)
    if s.kind = .method then
      let v ← newLocal flat blockName 0
      return v.atDepth data.nestingDepth
    else newLocal id blockName 0

end ClosureIR.Program
