import ClosureIR.BlockBody
import ClosureIR.Graph.Basic
import ClosureIR.Scope.LocalTable

/-!
# Scopes

A scope is a script, a method, or a closure of one of three kinds.  What only
closures have stands apart in `ClosureData`.
-/

namespace ClosureIR

inductive ScopeKind where
  | script
  | method
  | closure
  /-- The body of a `for` loop: a closure that declares no locals of its own. -/
  | forLoopBody
  /-- Code evaluated in the context of another scope. -/
  | evalUnit
  deriving DecidableEq, Repr, Inhabited

namespace ScopeKind

def all : List ScopeKind := [.script, .method, .closure, .forLoopBody, .evalUnit]

def isClosure : ScopeKind → Bool
  | .closure | .forLoopBody | .evalUnit => true
  | .script | .method => false

def text : ScopeKind → String
  | .script => "Script"
  | .method => "Method"
  | .closure => "Closure"
  | .forLoopBody => "ForLoopBody"
  | .evalUnit => "EvalUnit"

/-- The name by which users of the language know the kind. -/
def scopeName : ScopeKind → String
  | .script => "Script"
  | .method => "Method"
  | .closure | .forLoopBody => "Closure"
  | .evalUnit => "EvalScript"

end ScopeKind

/-- What the reader of the source knows of a scope. -/
structure StaticScope where
  variableNames : List String
  /-- The scope made from this descriptor, once it is bound. -/
  boundTo : Option ScopeId := none
  deriving DecidableEq, Repr, Inhabited

namespace StaticScope

def bindTo (static : StaticScope) (id : ScopeId) : StaticScope := { static with boundTo := some id }

end StaticScope

structure ClosureData where
  /-- The number of the closure within the nearest method or script. -/
  number : Nat
  /-- Where the body begins anew. -/
  startLabel : Label
  /-- Where the body is left for another attempt. -/
  endLabel : Label
  /-- How many scopes, loop bodies apart, lie around the closure up to its method or script. -/
  nestingDepth : Nat
  isInlined : Bool := false
  /-- The parameters received so far; a splat marks the one that takes the rest. -/
  blockArgs : List Operand := []
  body : Option BlockBody := none
  parameters : List String := []
  deriving DecidableEq, Repr, Inhabited

namespace ClosureData

def fresh (stem : String) (number depth : Nat) (body : Option BlockBody) : ClosureData where
  number := number
  startLabel := ⟨numbered (stem ++ "START") 0⟩
  endLabel := ⟨numbered (stem ++ "END") 0⟩
  nestingDepth := depth
  body := body

/-- The names that a new closure has handed out: those of its first and its last label. -/
def firstNames (stem : String) : Dict String Nat :=
  (Dict.empty.insert (stem ++ "START") 1).insert (stem ++ "END") 1

end ClosureData

structure Scope where
  id : ScopeId
  kind : ScopeKind
  name : String
  fileName : String
  line : Nat
  parent : Option ScopeId
  staticScope : Option StaticScope
  instrs : List Instr := []
  locals : LocalTable := {}
  /-- Index of the next temporary. -/
  temporaries : Nat := 0
  /-- Number of the closure made last under this method or script. -/
  closures : Nat := 0
  /-- Number of the next name with a given stem. -/
  names : Dict String Nat := ∅
  graph : Option Graph := none
  closure : Option ClosureData := none
  deriving DecidableEq

namespace Scope

def isClosure (s : Scope) : Bool := s.kind.isClosure

def isForLoopBody (s : Scope) : Bool := decide (s.kind = .forLoopBody)

/-- Methods and scripts keep the state of flip-flops; closures do not. -/
def holdsFlips (s : Scope) : Bool := !s.isClosure

def isInlined (s : Scope) : Bool :=
  match s.closure with
  | some data => data.isInlined
  | none => false

def blockArgs (s : Scope) : List Operand :=
  match s.closure with
  | some data => data.blockArgs
  | none => []

def blockBody (s : Scope) : Option BlockBody := s.closure.bind (·.body)

def parameters (s : Scope) : List String :=
  match s.closure with
  | some data => data.parameters
  | none => []

def labelStem (s : Scope) : String :=
  match s.closure with
  | some data => "CL" ++ toString data.number ++ "_LBL"
  | none => "LBL"

def tempTag (s : Scope) : TempTag :=
  match s.closure with
  | some data => .closure data.number
  | none => .scope

def mintName? (s : Scope) (stem : String) : Option (String × Scope) :=
  let n := s.names.getD stem 0
  (Counter.next? n).map fun next =>
    (numbered stem n, { s with names := s.names.insert stem next })

def mintTempIndex? (s : Scope) : Option (Nat × Scope) :=
  (Counter.next? s.temporaries).map fun next =>
    (s.temporaries, { s with temporaries := next })

def mintClosureNumber? (s : Scope) : Option (Nat × Scope) :=
  (Counter.next? s.closures).map fun next => (next, { s with closures := next })

theorem mintName?_eq_some_iff {s after : Scope} {stem name : String} :
    s.mintName? stem = some (name, after) ↔
      s.names.getD stem 0 + 1 < Counter.bound ∧ name = numbered stem (s.names.getD stem 0) ∧
        after = { s with names := s.names.insert stem (s.names.getD stem 0 + 1) } := by
  simp only [mintName?, Option.map_eq_some_iff, Counter.next?_eq_some_iff, Prod.mk.injEq]
  constructor
  · rintro ⟨next, ⟨rfl, small⟩, rfl, rfl⟩
    exact ⟨small, rfl, rfl⟩
  · rintro ⟨small, rfl, rfl⟩
    exact ⟨_, ⟨rfl, small⟩, rfl, rfl⟩

theorem mintTempIndex?_eq_some_iff {s after : Scope} {index : Nat} :
    s.mintTempIndex? = some (index, after) ↔
      s.temporaries + 1 < Counter.bound ∧ index = s.temporaries ∧
        after = { s with temporaries := s.temporaries + 1 } := by
  simp only [mintTempIndex?, Option.map_eq_some_iff, Counter.next?_eq_some_iff, Prod.mk.injEq]
  constructor
  · rintro ⟨next, ⟨rfl, small⟩, rfl, rfl⟩
    exact ⟨small, rfl, rfl⟩
  · rintro ⟨small, rfl, rfl⟩
    exact ⟨_, ⟨rfl, small⟩, rfl, rfl⟩

theorem mintClosureNumber?_eq_some_iff {s after : Scope} {n : Nat} :
    s.mintClosureNumber? = some (n, after) ↔
      s.closures + 1 < Counter.bound ∧ n = s.closures + 1 ∧
        after = { s with closures := s.closures + 1 } := by
  simp only [mintClosureNumber?, Option.map_eq_some_iff, Counter.next?_eq_some_iff, Prod.mk.injEq]
  constructor
  · rintro ⟨next, ⟨rfl, small⟩, rfl, rfl⟩
    exact ⟨small, rfl, rfl⟩
  · rintro ⟨small, rfl, rfl⟩
    exact ⟨_, ⟨rfl, small⟩, rfl, rfl⟩

def withClosure (s : Scope) (f : ClosureData → ClosureData) : Scope :=
  { s with closure := s.closure.map f }

/-- Append an instruction; a closure also records the parameter that it receives. -/
def append (s : Scope) (i : Instr) : Scope :=
  { s.withClosure fun data => { data with blockArgs := data.blockArgs ++ i.parameter?.toList } with
    instrs := s.instrs ++ [i] }

@[simp] theorem append_instrs (s : Scope) (i : Instr) : (s.append i).instrs = s.instrs ++ [i] := rfl

@[simp] theorem append_locals (s : Scope) (i : Instr) : (s.append i).locals = s.locals := rfl

@[simp] theorem append_graph (s : Scope) (i : Instr) : (s.append i).graph = s.graph := rfl

theorem append_blockArgs {s : Scope} {data : ClosureData} (i : Instr)
    (closed : s.closure = some data) :
    (s.append i).blockArgs = s.blockArgs ++ i.parameter?.toList := by
  simp [append, withClosure, blockArgs, closed]

end Scope

end ClosureIR
