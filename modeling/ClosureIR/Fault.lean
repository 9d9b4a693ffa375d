import ClosureIR.Operand.Basic

/-!
# Faults

An operation may refuse a request that a correct caller can make, or find
itself misused.  Either way it says why; what it had done before stays done.
-/

namespace ClosureIR

/-- Why a well-formed request was refused. -/
inductive Refusal where
  | graphMissing (scope : String)
  | unknownLabel (label : Label) (scope : String)
  | notClosure (scope : String)
  | unbound (v : Variable)
  | notRetrievable (o : Operand)
  deriving DecidableEq, Repr

/-- How an operation was misused. -/
inductive Misuse where
  /-- The arena has `size` scopes, and `index` is not among them. -/
  | noSuchScope (size : Nat) (index : Nat)
  | flipInClosure
  | inlined (name : String)
  | labelNotPrepared (l : Label)
  | temporaryNotPrepared (t : Temporary)
  /-- A closure without a parent that was made before it. -/
  | orphan (name : String)
  /-- A counter at its last value was asked to move on. -/
  | wordOverflow
  /-- A closure that contains itself was to be cloned. -/
  | selfNested (id : ScopeId)
  deriving DecidableEq, Repr

inductive Fault where
  | refused (r : Refusal)
  | misused (m : Misuse)
  deriving DecidableEq, Repr

instance decidableEqOutcome {ε α : Type} [DecidableEq ε] [DecidableEq α] :
    DecidableEq (Except ε α)
  | .ok a, .ok b => decidable_of_iff (a = b) (by simp)
  | .error a, .error b => decidable_of_iff (a = b) (by simp)
  | .ok _, .error _ => isFalse (by simp)
  | .error _, .ok _ => isFalse (by simp)

namespace Refusal

def message : Refusal → String
  | .graphMissing scope => "scope " ++ scope ++ " has no control-flow graph"
  | .unknownLabel label scope => "unknown label " ++ label.text ++ " in scope " ++ scope
  | .notClosure scope => "scope " ++ scope ++ " is not a closure"
  | .unbound v => "variable " ++ v.text ++ " is not bound in this frame"
  | .notRetrievable o => "operand " ++ o.text ++ " has no runtime value"

end Refusal

namespace Misuse

def message : Misuse → String
  | .noSuchScope size index =>
    "index out of bounds: the len is " ++ toString size ++ " but the index is " ++ toString index
  | .flipInClosure => "Cannot get flip variables from closures."
  | .inlined name => "closure " ++ name ++ " was inlined and is no longer an independent scope"
  | .labelNotPrepared l => "label " ++ l.text ++ " was not prepared for cloning"
  | .temporaryNotPrepared t => "temporary " ++ t.text ++ " was not prepared for cloning"
  | .orphan name => "closure " ++ name ++ " has no lexical parent"
  | .wordOverflow => "attempt to add with overflow"
  | .selfNested id => "closure " ++ id.text ++ " contains itself"

end Misuse

namespace Fault

def message : Fault → String
  | .refused r => r.message
  | .misused m => m.message

end Fault

end ClosureIR
