import ClosureIR.Proofs.Everywhere
import ClosureIR.Proofs.Flow.Edges

/-!
# What scopes say of themselves

The graph of a scope and the block body of a closure name the scope that they
belong to.  Which scopes have a block body depends on their kinds alone.
-/

namespace ClosureIR

namespace ScopeKind

/-- Blocks and loop bodies are called through block bodies, unless only instructions are generated. -/
def hasBody (options : Options) : ScopeKind → Bool
  | .closure | .forLoopBody => !options.irOnly
  | .script | .method | .evalUnit => false

end ScopeKind

namespace Scope

structure NamesItself (options : Options) (id : ScopeId) (s : Scope) : Prop where
  graph : ∀ g, s.graph = some g → g.scope = id
  body : ∀ body, s.blockBody = some body → body.closure = id
  called : s.blockBody.isSome = s.kind.hasBody options

theorem blockBody_withClosure (s : Scope) {f : ClosureData → ClosureData}
    (same : ∀ data, (f data).body = data.body) : (s.withClosure f).blockBody = s.blockBody := by
  rw [blockBody, withClosure, blockBody]
  cases s.closure with
  | none => rfl
  | some data => exact same data

theorem blockBody_of_closure {s : Scope} {data : ClosureData} (closed : s.closure = some data) :
    s.blockBody = data.body := by
  rw [blockBody, closed]
  rfl

namespace NamesItself

variable {options : Options} {id source : ScopeId} {s c : Scope}

theorem of_bare (bare : s.graph = none) (body : s.blockBody = none)
    (uncalled : s.kind.hasBody options = false) : s.NamesItself options id where
  graph g drawn := by cases bare.symm.trans drawn
  body b given := by cases body.symm.trans given
  called := by rw [body, uncalled]; rfl

theorem withClosure (names : s.NamesItself options id) {f : ClosureData → ClosureData}
    (same : ∀ data, (f data).body = data.body) : (s.withClosure f).NamesItself options id := by
  have body := s.blockBody_withClosure same
  exact ⟨names.graph, body ▸ names.body, body ▸ names.called⟩

/-- A clone has the block body of its source, under its own name. -/
theorem rebound (names : s.NamesItself options source) (kind : c.kind = s.kind)
    (body : c.blockBody = s.blockBody.map (·.rebind id)) (graph : ∀ g, c.graph = some g → g.scope = id) :
    c.NamesItself options id where
  graph := graph
  body b given := by
    rw [body, Option.map_eq_some_iff] at given
    obtain ⟨before, -, rfl⟩ := given
    rfl
  called := by rw [body, Option.isSome_map, kind, names.called]

end NamesItself

theorem invariant_namesItself : Invariant fun options id s => s.NamesItself options id where
  script _ _ _ := .of_bare rfl rfl rfl
  method _ _ _ _ _ _ _ := .of_bare rfl rfl rfl
  block options parent fileName forLoop line static signature number depth id := by
    have body : (ofBlock options parent fileName forLoop line static signature number depth
        id).blockBody = if options.irOnly then none
          else some (.ofSignature id signature options.defaultBinding) := rfl
    refine ⟨fun g drawn => (by cases drawn), fun b given => ?_, ?_⟩
    · rw [body] at given
      split at given
      · cases given
      · cases given
        rfl
    · rw [body]
      cases generated : options.irOnly <;> cases forLoop <;>
        simp [ofBlock, ScopeKind.hasBody, generated]
  evalUnit _ _ _ _ _ _ _ _ _ := .of_bare rfl rfl rfl
  counters _ _ _ holds := ⟨holds.graph, holds.body, holds.called⟩
  declare _ _ _ holds _ _ := ⟨holds.graph, holds.body, holds.called⟩
  append i holds := by
    have same := holds.withClosure (f := fun data =>
      { data with blockArgs := data.blockArgs ++ i.parameter?.toList }) fun _ => rfl
    exact ⟨same.graph, same.body, same.called⟩
  graph holds built := by
    refine ⟨fun g drawn => ?_, holds.body, holds.called⟩
    cases drawn
    exact Graph.scope_of_build built
  inline holds := holds.withClosure fun _ => rfl
  parameters _ holds := holds.withClosure fun _ => rfl
  shell _ _ holds _ closed := by
    refine holds.rebound rfl ?_ fun g drawn => by cases drawn
    rw [blockBody_of_closure closed]
    rfl
  clone holds _ cloned := by
    obtain ⟨g, h, d, d', body, closed, closed', data⟩ := cloned.body
    refine holds.rebound cloned.kind ?_ fun k drawn => ?_
    · rw [blockBody_of_closure closed, blockBody_of_closure closed', data.body]
    · cases body.graph.symm.trans drawn
      exact body.copied.scope

end Scope

end ClosureIR
