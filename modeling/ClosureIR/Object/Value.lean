/-!
# Run-time values

A value is an immediate or a reference to a heap object.  Modules and objects
are known by identity: two modules of one name are different modules.
-/

namespace ClosureIR

structure ModuleRef where
  id : Nat
  name : String
  deriving DecidableEq, Repr, Inhabited

/-- A heap object; the methods it responds to are those of its metaclass. -/
structure ObjectRef where
  id : Nat
  metaclass : ModuleRef
  deriving DecidableEq, Repr, Inhabited

inductive Value where
  | nil
  | bool (b : Bool)
  | fixnum (n : Int64)
  | str (s : String)
  | symbol (s : String)
  | object (o : ObjectRef)
  deriving DecidableEq, Repr, Inhabited

namespace Value

def metaclass? : Value → Option ModuleRef
  | .object o => some o.metaclass
  | _ => none

def isNil : Value → Bool
  | .nil => true
  | _ => false

def text : Value → String
  | .nil => "nil"
  | .bool b => toString b
  | .fixnum n => toString n.toInt
  | .str s => "\"" ++ s ++ "\""
  | .symbol s => ":" ++ s
  | .object o => "#<" ++ o.metaclass.name ++ ">"

@[simp] theorem metaclass?_object (o : ObjectRef) : (object o).metaclass? = some o.metaclass := rfl

end Value

end ClosureIR
