import ClosureIR.Program.Basic

/-!
# Lexical walks

Scopes nest: a closure lies in the scope that is its parent, which was made
before it.  A walk goes from a scope to its parent, up to the nearest method or
script.  On the way up a loop body is free of charge, and every other closure
uses up one unit of depth.
-/

namespace ClosureIR

namespace Scope

/-- The parent of the closure `s` at place `id`; it was made before the closure. -/
def enclosing (s : Scope) (id : ScopeId) : Except Misuse { q : ScopeId // q.index < id.index } :=
  match s.parent with
  | some q => if earlier : q.index < id.index then .ok ⟨q, earlier⟩ else .error (.orphan s.name)
  | none => .error (.orphan s.name)

theorem enclosing_eq_ok_iff {s : Scope} {id : ScopeId} {q : { q : ScopeId // q.index < id.index }} :
    s.enclosing id = .ok q ↔ s.parent = some q.1 := by
  unfold enclosing
  split
  · rename_i parent found
    split
    · rename_i earlier
      rw [found]
      constructor
      · intro equal
        cases equal
        rfl
      · intro equal
        cases equal
        rfl
    · rename_i late
      rw [found]
      constructor
      · intro equal
        cases equal
      · intro equal
        cases equal
        exact absurd q.2 late
  · rename_i missing
    simp [missing]

end Scope

namespace Program

/-- The nearest method or script around a scope, or that scope itself. -/
def nearestFlat (p : Program) (id : ScopeId) : Except Misuse ScopeId :=
  match p.scope id with
  | .error m => .error m
  | .ok s =>
    if s.isClosure then
      match s.enclosing id with
      | .error m => .error m
      | .ok ⟨parent, _⟩ => nearestFlat p parent
    else .ok id
termination_by id.index

/--
How deep something lies that is directly in `id`: the number of scopes from
`id` up to its method or script, loop bodies apart.
-/
def depthUnder (p : Program) (id : ScopeId) : Except Misuse Nat :=
  match p.scope id with
  | .error m => .error m
  | .ok s =>
    if s.isClosure then
      match s.enclosing id with
      | .error m => .error m
      | .ok ⟨parent, _⟩ =>
        match depthUnder p parent with
        | .error m => .error m
        | .ok depth => .ok (if s.isForLoopBody then depth else depth + 1)
    else .ok 1
termination_by id.index

/-- The binding of a name that is in force in a scope, no more than `depth` scopes up. -/
def findLocal (p : Program) (id : ScopeId) (name : String) (depth : Nat) :
    Except Misuse (Option LocalVar) :=
  match p.scope id with
  | .error m => .error m
  | .ok s =>
    match s.locals.get? name with
    | some v => .ok (some v)
    | none =>
      match s.kind, depth with
      | .script, _ | .method, _ => .ok none
      | .forLoopBody, depth =>
        match s.enclosing id with
        | .error m => .error m
        | .ok ⟨parent, _⟩ => findLocal p parent name depth
      | .closure, 0 | .evalUnit, 0 => .ok none
      | .closure, depth + 1 | .evalUnit, depth + 1 =>
        match s.enclosing id with
        | .error m => .error m
        | .ok ⟨parent, _⟩ => findLocal p parent name depth
termination_by id.index

/-- The scope in which a local is declared when it is asked for `depth` scopes up. -/
def declarationSite (p : Program) (id : ScopeId) (depth : Nat) :
    Except Misuse (ScopeId × LocalKind) :=
  match p.scope id with
  | .error m => .error m
  | .ok s =>
    match s.kind, depth with
    | .script, _ | .method, _ => .ok (id, .plain)
    | .forLoopBody, depth =>
      match s.enclosing id with
      | .error m => .error m
      | .ok ⟨parent, _⟩ => declarationSite p parent depth
    | .closure, 0 | .evalUnit, 0 => .ok (id, .closure)
    | .closure, depth + 1 | .evalUnit, depth + 1 =>
      match s.enclosing id with
      | .error m => .error m
      | .ok ⟨parent, _⟩ => declarationSite p parent depth
termination_by id.index

/-- The nearest scope that is not a loop body, with no inlined scope on the way. -/
def lookupSite (p : Program) (id : ScopeId) : Except Misuse ScopeId :=
  match p.liveScope id with
  | .error m => .error m
  | .ok s =>
    if s.isForLoopBody then
      match s.enclosing id with
      | .error m => .error m
      | .ok ⟨parent, _⟩ => lookupSite p parent
    else .ok id
termination_by id.index

end Program

end ClosureIR
