import ClosureIR.Fault

/-!
# Block bodies

What the call mechanism needs to know to run the body of a closure: how many
arguments it takes, how they are spread over its parameters, and which rules
of parameter binding it follows.
-/

namespace ClosureIR

structure Arity where
  required : UInt32 := 0
  optional : UInt32 := 0
  rest : Bool := false
  deriving DecidableEq, Repr, Inhabited

namespace Arity

def fixed (required : UInt32) : Arity := { required }

def isOpen (a : Arity) : Bool := decide (0 < a.optional) || a.rest

def maxSigned : Int := 2147483647

/--
The arity as one signed word: the number of required parameters when it is
fixed, and the negative of one more than that when it is open.  The number of
required parameters is read as a signed word, and the one more must fit.
-/
def value (a : Arity) : Except Misuse Int :=
  let required := a.required.toInt32.toInt
  if a.isOpen then
    if required < maxSigned then .ok (-(required + 1)) else .error .wordOverflow
  else .ok required

end Arity

inductive ArgumentType where
  | zeroArgs
  | multipleAssignment
  | array
  | singleRestArg
  deriving DecidableEq, Repr, Inhabited

/--
The rules of parameter binding.  Under the classic ones a lone array argument
is never spread over optional parameters.
-/
inductive Binding where
  | classic
  | modern
  deriving DecidableEq, Repr, Inhabited

namespace Binding

def text : Binding → String
  | .classic => "Classic"
  | .modern => "Modern"

end Binding

structure BlockSignature where
  arity : Arity := {}
  argumentType : ArgumentType := .zeroArgs
  binding : Option Binding := none
  deriving DecidableEq, Repr, Inhabited

/-- The descriptor through which a closure is called. -/
structure BlockBody where
  closure : ScopeId
  arity : Arity
  argumentType : ArgumentType
  binding : Binding
  deriving DecidableEq, Repr, Inhabited

namespace BlockBody

def ofSignature (id : ScopeId) (signature : BlockSignature) (fallback : Binding) : BlockBody where
  closure := id
  arity := signature.arity
  argumentType := signature.argumentType
  binding := signature.binding.getD fallback

def rebind (body : BlockBody) (closure : ScopeId) : BlockBody := { body with closure }

@[simp] theorem rebind_closure (body : BlockBody) (id : ScopeId) :
    (body.rebind id).closure = id := rfl

end BlockBody

end ClosureIR
