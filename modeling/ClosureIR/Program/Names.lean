import ClosureIR.Program.Lexical

/-!
# Labels, temporaries and closure numbers

What a scope hands out never comes twice.  A scope that was inlined hands out
nothing.
-/

namespace ClosureIR.Program

open BuildM

def newLabelWith (id : ScopeId) (stem : String) : BuildM Label := do
  let _ ← requireLive id
  let name ← mint id (·.mintName? stem)
  return ⟨name⟩

def newLabel (id : ScopeId) : BuildM Label := do
  let s ← ask (·.scope id)
  newLabelWith id s.labelStem

def newLabels (id : ScopeId) : Nat → BuildM (List Label)
  | 0 => return []
  | n + 1 => do
    let first ← newLabel id
    let rest ← newLabels id n
    return first :: rest

def newTemp (id : ScopeId) : BuildM Temporary := do
  let s ← requireLive id
  let index ← mint id (·.mintTempIndex?)
  return ⟨id, index, s.tempTag⟩

/-- A new temporary with a name of the caller's choice; it is numbered with the others. -/
def newNamedTemp (id : ScopeId) (name : String) : BuildM Temporary := do
  let _ ← requireLive id
  let index ← mint id (·.mintTempIndex?)
  return ⟨id, index, .named name⟩

def newClosureNumber (id : ScopeId) : BuildM Nat := do
  let flat ← ask (·.nearestFlat id)
  mint flat (·.mintClosureNumber?)

end ClosureIR.Program
