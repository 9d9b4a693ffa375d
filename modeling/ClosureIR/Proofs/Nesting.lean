import ClosureIR.Proofs.Outcome
import ClosureIR.Renaming.Mention
import Mathlib.Logic.Relation

/-!
# Nesting of closures

A scope holds the closures that stand as operands in its graph, at any depth
inside splats and arrays.  Following them from scope to scope gives the tree
that a clone has to copy.
-/

namespace ClosureIR

open Relation

namespace Operand

def closure? : Operand → Option ScopeId
  | .closure id => some id
  | _ => none

def closures (o : Operand) : List ScopeId := o.visited.filterMap closure?

def var? : Operand → Option Variable
  | .var v => some v
  | _ => none

def vars (o : Operand) : List Variable := o.visited.filterMap var?

section Parts

variable {α : Type} {f : Operand → Option α} {o : Operand} {os : List Operand}

/-- What is read off a splat is read off its inner operand. -/
theorem filterMap_visited_splat (bare : f (splat o) = none) :
    (splat o).visited.filterMap f = o.visited.filterMap f := by
  rw [visited]
  exact List.filterMap_cons_none bare

/-- What is read off an array is read off its elements. -/
theorem filterMap_visited_array (bare : f (array os) = none) :
    (array os).visited.filterMap f = os.flatMap (·.visited.filterMap f) := by
  rw [visited, List.filterMap_cons_none bare, visitedAll_eq_flatMap, List.filterMap_flatMap]

end Parts

@[simp] theorem closures_splat (o : Operand) : (splat o).closures = o.closures :=
  filterMap_visited_splat rfl

@[simp] theorem closures_array (os : List Operand) : (array os).closures = os.flatMap closures :=
  filterMap_visited_array rfl

@[simp] theorem closures_closure (id : ScopeId) : (closure id).closures = [id] := rfl

@[simp] theorem vars_var (v : Variable) : (var v).vars = [v] := rfl

@[simp] theorem vars_splat (o : Operand) : (splat o).vars = o.vars := filterMap_visited_splat rfl

@[simp] theorem vars_array (os : List Operand) : (array os).vars = os.flatMap vars :=
  filterMap_visited_array rfl

@[simp] theorem mentions_splat (o : Operand) : (splat o).mentions = o.mentions :=
  filterMap_visited_splat rfl

@[simp] theorem mentions_array (os : List Operand) : (array os).mentions = os.flatMap mentions :=
  filterMap_visited_array rfl

end Operand

def Instr.closures (i : Instr) : List ScopeId := i.operands.flatMap (·.closures)

def Instr.vars (i : Instr) : List Variable :=
  i.result?.toList ++ i.operands.flatMap (·.vars)

def Block.closures (b : Block) : List ScopeId := b.instrs.flatMap (·.closures)

def Graph.closures (g : Graph) : List ScopeId := g.blocks.flatMap (·.closures)

namespace Program

/-- The graph of `id` has `nested` as an operand. -/
def Holds (p : Program) (id nested : ScopeId) : Prop :=
  ∃ s g, p.scope? id = some s ∧ s.graph = some g ∧ nested ∈ g.closures

def held (p : Program) (id : ScopeId) : List ScopeId :=
  match (p.scope? id).bind (·.graph) with
  | some g => g.closures
  | none => []

theorem held_of_scope? {p : Program} {id : ScopeId} {s : Scope} {g : Graph}
    (found : p.scope? id = some s) (drawn : s.graph = some g) : p.held id = g.closures := by
  rw [held, found]
  simp [drawn]

theorem mem_held_iff {p : Program} {id nested : ScopeId} :
    nested ∈ p.held id ↔ p.Holds id nested := by
  unfold held Holds
  cases found : p.scope? id with
  | none => simp
  | some s => cases drawn : s.graph <;> simp [drawn]

instance (p : Program) (id nested : ScopeId) : Decidable (p.Holds id nested) :=
  decidable_of_iff _ mem_held_iff

abbrev Reaches (p : Program) : ScopeId → ScopeId → Prop := ReflTransGen p.Holds

def NeverCycles (p : Program) (id : ScopeId) : Prop :=
  ∀ x, p.Reaches id x → ¬ TransGen p.Holds x x

end Program

end ClosureIR
