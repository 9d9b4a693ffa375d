import ClosureIR.Fault
import ClosureIR.Scope.Basic

/-!
# Programs

A program is an arena of scopes that only grows.  Operations on it may fail;
what they have changed before they fail stays changed.
-/

namespace ClosureIR

structure Options where
  /-- Closures get no block body, and descriptors are not bound to their scopes. -/
  irOnly : Bool := false
  /-- The binding of blocks that do not ask for one. -/
  defaultBinding : Binding := .modern
  deriving DecidableEq, Repr, Inhabited

/-- The scopes made so far; a scope is known by its place among them. -/
structure Program where
  options : Options := {}
  scopes : Array Scope := #[]
  deriving DecidableEq

abbrev BuildM := ExceptT Fault (StateM Program)

namespace Program

instance : Inhabited Program := ⟨{}⟩

def scope? (p : Program) (id : ScopeId) : Option Scope := p.scopes[id.index]?

def scope (p : Program) (id : ScopeId) : Except Misuse Scope :=
  match p.scope? id with
  | some s => .ok s
  | none => .error (.noSuchScope p.scopes.size id.index)

/-- The scope with the given id, unless it was inlined. -/
def liveScope (p : Program) (id : ScopeId) : Except Misuse Scope :=
  match p.scope id with
  | .ok s => if s.isInlined then .error (.inlined s.name) else .ok s
  | .error m => .error m

def nextId (p : Program) : ScopeId := ⟨p.scopes.size⟩

def replace (p : Program) (id : ScopeId) (s : Scope) : Program :=
  { p with scopes := p.scopes.setIfInBounds id.index s }

def push (p : Program) (s : Scope) : Program := { p with scopes := p.scopes.push s }

@[simp] theorem scope?_push_nextId (p : Program) (s : Scope) : (p.push s).scope? p.nextId = some s := by
  simp [scope?, push, nextId]

theorem scope?_push_of_ne (p : Program) (s : Scope) {id : ScopeId} (old : id ≠ p.nextId) :
    (p.push s).scope? id = p.scope? id := by
  have different : id.index ≠ p.scopes.size := fun equal => old (by rw [nextId, ← equal])
  simp [scope?, push, Array.getElem?_push, different]

theorem scope?_replace (p : Program) (id other : ScopeId) (s : Scope) :
    (p.replace id s).scope? other =
      if other = id then (p.scope? id).map fun _ => s else p.scope? other := by
  simp only [scope?, replace, Array.getElem?_setIfInBounds]
  by_cases same : other = id
  · subst same
    by_cases bound : other.index < p.scopes.size
    · simp [bound]
    · simp [bound]
  · have different : id.index ≠ other.index := fun equal =>
      same (by cases id; cases other; simp_all)
    simp [same, different]

end Program

namespace BuildM

variable {α β : Type}

def runOn (op : BuildM α) (p : Program) : Except Fault α × Program := op.run.run p

def misuse (m : Misuse) : BuildM α := throw (.misused m)

def refuse (r : Refusal) : BuildM α := throw (.refused r)

def ofMisuse : Except Misuse α → BuildM α
  | .ok a => pure a
  | .error m => misuse m

def ofRefusal : Except Refusal α → BuildM α
  | .ok a => pure a
  | .error r => refuse r

def ask (f : Program → Except Misuse α) : BuildM α := do ofMisuse (f (← get))

def store (id : ScopeId) (s : Scope) : BuildM Unit := modify (·.replace id s)

def adjust (id : ScopeId) (f : Scope → Scope) : BuildM Unit := do
  let s ← ask (·.scope id)
  store id (f s)

/-- Let a scope hand something out, as long as its counter can move on. -/
def mint (id : ScopeId) (f : Scope → Option (α × Scope)) : BuildM α := do
  let s ← ask (·.scope id)
  match f s with
  | some (a, after) => do
    store id after
    return a
  | none => misuse .wordOverflow

def addScope (make : ScopeId → Scope) : BuildM ScopeId := do
  let id := (← get).nextId
  modify (·.push (make id))
  return id

/-! What each of these operations does to a program. -/

@[simp] theorem runOn_pure (a : α) (p : Program) : (pure a : BuildM α).runOn p = (.ok a, p) := rfl

theorem runOn_bind (op : BuildM α) (next : α → BuildM β) (p : Program) :
    (op >>= next).runOn p =
      match op.runOn p with
      | (.ok a, after) => (next a).runOn after
      | (.error fault, after) => (.error fault, after) := by
  unfold runOn ExceptT.run StateT.run
  simp only [bind, ExceptT.bind, ExceptT.mk, StateT.bind, ExceptT.bindCont]
  rcases op p with ⟨outcome, after⟩
  cases outcome with
  | ok a => rfl
  | error fault => rfl

@[simp] theorem runOn_get (p : Program) : (get : BuildM Program).runOn p = (.ok p, p) := rfl

@[simp] theorem runOn_modify (f : Program → Program) (p : Program) :
    (modify f : BuildM Unit).runOn p = (.ok (), f p) := rfl

@[simp] theorem runOn_misuse (m : Misuse) (p : Program) :
    (misuse m : BuildM α).runOn p = (.error (.misused m), p) := rfl

@[simp] theorem runOn_refuse (r : Refusal) (p : Program) :
    (refuse r : BuildM α).runOn p = (.error (.refused r), p) := rfl

@[simp] theorem runOn_ofMisuse (e : Except Misuse α) (p : Program) :
    (ofMisuse e).runOn p = (e.mapError .misused, p) := by
  cases e <;> rfl

@[simp] theorem runOn_ofRefusal (e : Except Refusal α) (p : Program) :
    (ofRefusal e).runOn p = (e.mapError .refused, p) := by
  cases e <;> rfl

@[simp] theorem runOn_ask (f : Program → Except Misuse α) (p : Program) :
    (ask f).runOn p = ((f p).mapError .misused, p) := by
  simp [ask, runOn_bind]

@[simp] theorem runOn_store (id : ScopeId) (s : Scope) (p : Program) :
    (store id s).runOn p = (.ok (), p.replace id s) := rfl

@[simp] theorem runOn_addScope (make : ScopeId → Scope) (p : Program) :
    (addScope make).runOn p = (.ok p.nextId, p.push (make p.nextId)) := rfl

end BuildM

/-! What an operation may demand of a scope. -/

namespace Program

open BuildM

def requireLive (id : ScopeId) : BuildM Scope := ask (·.liveScope id)

def requireClosure (id : ScopeId) : BuildM ClosureData := do
  let s ← ask (·.scope id)
  match s.closure with
  | some data => return data
  | none => refuse (.notClosure s.name)

def requireGraph (id : ScopeId) : BuildM Graph := do
  let s ← ask (·.scope id)
  match s.graph with
  | some g => return g
  | none => refuse (.graphMissing s.name)

end Program

end ClosureIR
