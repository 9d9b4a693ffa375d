import ClosureIR.Proofs.Everywhere
import ClosureIR.Proofs.Lexical.Walk

/-!
# The tables of locals

A scope keeps its own declarations, each under its name.  Loop bodies declare
nothing.
-/

namespace ClosureIR

namespace LocalTable

def DeclaredBy (t : LocalTable) (owner : ScopeId) (kind : LocalKind) : Prop :=
  ∀ name v, t.get? name = some v → v = ⟨name, 0, v.slot, owner, kind⟩

theorem DeclaredBy.store {t : LocalTable} {owner : ScopeId} {kind : LocalKind}
    (declared : t.DeclaredBy owner kind) (name : String) (slot : Nat) :
    (t.store ⟨name, 0, slot, owner, kind⟩).DeclaredBy owner kind := by
  intro other v bound
  by_cases same : other = name
  · subst same
    rw [get?_store_self t ⟨other, 0, slot, owner, kind⟩] at bound
    cases bound
    rfl
  · rw [get?_store_of_ne t ⟨name, 0, slot, owner, kind⟩ same] at bound
    exact declared other v bound

theorem DeclaredBy.reowned {t : LocalTable} {owner : ScopeId} {kind : LocalKind}
    (declared : t.DeclaredBy owner kind) (clone : ScopeId) :
    (t.reowned clone).DeclaredBy clone kind := by
  intro name v bound
  rw [get?_reowned, Option.map_eq_some_iff] at bound
  obtain ⟨u, before, rfl⟩ := bound
  rw [declared name u before]

end LocalTable

namespace Scope

/-- A scope declares what its table has; the table of a loop body stays empty. -/
structure Declares (id : ScopeId) (s : Scope) : Prop where
  declared : ∀ kind, s.kind.declares? = some kind → s.locals.DeclaredBy id kind
  loop : s.kind = .forLoopBody → s.locals.isEmpty = true

theorem declares_of_isEmpty {id : ScopeId} {s : Scope} (empty : s.locals.isEmpty = true) :
    s.Declares id where
  declared kind _ name v bound := by
    rw [LocalTable.get?_of_isEmpty empty] at bound
    cases bound
  loop _ := empty

theorem Declares.reowned {id clone : ScopeId} {s c : Scope} (declares : s.Declares id)
    (kind : c.kind = s.kind) (locals : c.locals = s.locals.reowned clone) : c.Declares clone where
  declared k may := locals ▸ (declares.declared k (kind ▸ may)).reowned clone
  loop isLoop := by
    rw [locals, LocalTable.isEmpty_reowned]
    exact declares.loop (kind ▸ isLoop)

theorem invariant_declares : Invariant fun _ id s => s.Declares id where
  script _ _ _ := declares_of_isEmpty rfl
  method _ _ _ _ _ _ _ := declares_of_isEmpty rfl
  block _ _ _ _ _ _ _ _ _ _ := declares_of_isEmpty rfl
  evalUnit _ _ _ _ _ _ _ _ _ := declares_of_isEmpty rfl
  counters _ _ _ holds := ⟨holds.declared, holds.loop⟩
  declare name kind nextSlot holds may _ := by
    refine ⟨fun k may' => ?_, fun isLoop => ?_⟩
    · cases may.symm.trans may'
      exact (holds.declared kind may).store name _
    · rw [isLoop] at may
      cases may
  append _ holds := ⟨holds.declared, holds.loop⟩
  graph holds _ := ⟨holds.declared, holds.loop⟩
  inline holds := ⟨holds.declared, holds.loop⟩
  parameters _ holds := ⟨holds.declared, holds.loop⟩
  shell _ _ holds _ _ := holds.reowned rfl rfl
  clone holds _ cloned := holds.reowned cloned.kind cloned.locals

end Scope

namespace Program

variable {p : Program} {id : ScopeId}

/-- Every binding is kept with depth 0, under its name and in the scope that owns it. -/
theorem Reachable.of_binding? (reachable : p.Reachable) {name : String} {v : LocalVar}
    (bound : p.binding? name id = some v) : v.name = name ∧ v.depth = 0 ∧ v.owner = id := by
  obtain ⟨s, found, here⟩ := Option.bind_eq_some_iff.1 bound
  have declares := reachable.everywhere Scope.invariant_declares id s found
  cases kind : s.kind with
  | forLoopBody =>
    rw [LocalTable.get?_of_isEmpty (declares.loop kind)] at here
    cases here
  | _ =>
    have shape := declares.declared _ (by rw [kind]; rfl) name v here
    rw [shape]
    exact ⟨rfl, rfl, rfl⟩

/-- A loop body has no binding of any name. -/
theorem Reachable.binding?_forLoopBody (reachable : p.Reachable) {s : Scope}
    (found : p.scope? id = some s) (loop : s.kind = .forLoopBody) (name : String) :
    p.binding? name id = none := by
  have declares := reachable.everywhere Scope.invariant_declares id s found
  rw [binding?_of_scope? found, LocalTable.get?_of_isEmpty (declares.loop loop)]

end Program

end ClosureIR
