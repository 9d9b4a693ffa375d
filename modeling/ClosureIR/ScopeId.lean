/-!
# Scope identities

A scope is named by its place in the program's arena.
-/

namespace ClosureIR

structure ScopeId where
  index : Nat
  deriving DecidableEq, Repr, Inhabited

namespace ScopeId

def text (id : ScopeId) : String := toString id.index

@[simp] theorem eta (id : ScopeId) : (⟨id.index⟩ : ScopeId) = id := rfl

end ScopeId

end ClosureIR
