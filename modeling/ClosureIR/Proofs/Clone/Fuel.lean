import ClosureIR.Proofs.Clone.Depth

/-!
# Enough fuel

A clone that does not run out of fuel would have done the same with more.  The
fuel that a clone starts with is enough for every source that does not contain
itself, so how much it is does not matter.
-/

namespace ClosureIR

open BuildM

namespace BuildM

variable {α : Type}

/-- The second operation does what the first does, unless that runs out of fuel. -/
def Extends (op op' : BuildM α) : Prop :=
  ∀ p, op'.runOn p = op.runOn p ∨ ∃ x, (op.runOn p).1 = .error (.misused (.selfNested x))

theorem Extends.refl (op : BuildM α) : op.Extends op := fun _ => .inl rfl

theorem Extends.bind {β : Type} {op op' : BuildM α} {next next' : α → BuildM β}
    (first : op.Extends op') (others : ∀ a, (next a).Extends (next' a)) :
    (op >>= next).Extends (op' >>= next') := by
  intro p
  rcases first p with same | ⟨x, exhausted⟩
  · rw [runOn_bind, runOn_bind, same]
    rcases op.runOn p with ⟨a | fault, after⟩
    · exact .inl rfl
    · exact others _ after
  · refine .inr ⟨x, ?_⟩
    rw [runOn_bind]
    rcases run : op.runOn p with ⟨outcome, after⟩
    rw [run] at exhausted
    cases exhausted
    rfl

/-- Sequencing respects what more fuel does. -/
theorem sequential_extends : Sequential Extends where
  value _ := .refl _
  renameLabel _ _ := .refl _
  renameVariable _ _ := .refl _
  bind := Extends.bind

end BuildM

namespace Program

theorem extends_cloneStep {nested nested' : Renaming → ScopeId → BuildM ScopeId}
    (clones : ∀ r x, (nested r x).Extends (nested' r x)) (r : Renaming) (source : ScopeId) :
    (cloneStep nested r source).Extends (cloneStep nested' r source) := by
  refine (Extends.refl _).bind fun s => (Extends.refl _).bind fun data => ?_
  refine (Extends.refl _).bind fun g => (Extends.refl _).bind fun number => ?_
  refine (Extends.refl _).bind fun id => (Extends.refl _).bind fun child => ?_
  apply (g.related_renamed sequential_extends (clones child) child id).bind
  intro body
  refine (Operand.related_renamedAll sequential_extends (clones child) child data.blockArgs).bind
    fun args => ?_
  exact .refl _

/-- More fuel changes nothing for a clone that has had enough. -/
theorem extends_cloneWithin {fuel more : Nat} (le : fuel ≤ more) (r : Renaming) (source : ScopeId) :
    (cloneWithin fuel r source).Extends (cloneWithin more r source) := by
  induction fuel generalizing more r source with
  | zero => exact fun p => .inr ⟨source, rfl⟩
  | succ fuel ih =>
    cases more with
    | zero => cases le
    | succ more =>
      exact extends_cloneStep (fun r x => ih (Nat.le_of_succ_le_succ le) r x) r source

variable {p : Program} {source : ScopeId}

/-- The fuel of a clone is enough for a source that never reaches itself. -/
theorem WellFormed.cloneUnder_ne_selfNested (formed : p.WellFormed) (acyclic : p.NeverCycles source)
    (r : Renaming) (x : ScopeId) :
    ((cloneUnder r source).runOn p).1 ≠ .error (.misused (.selfNested x)) := by
  intro exhausted
  have run : (cloneUnder r source).runOn p =
      (.error (.misused (.selfNested x)), ((cloneUnder r source).runOn p).2) := Prod.ext exhausted rfl
  rw [cloneUnder, runOn_bind, runOn_get] at run
  rcases formed.yields_clone p.scopes.size r source with
    ⟨flat, nearest, cloning⟩ | ⟨missing, fails⟩
  · obtain ⟨step, stuck⟩ := cloning.of_error run
    have hosts := formed.hosts nearest
    exact not_descends_of_neverCycles (step.grown hosts) (step.traced hosts) acyclic
      (Nat.lt_succ_self _) stuck.descends
  · rcases (fails.of_error run).2 with blocks | absent
    · exact blocks.ne_selfNested x rfl
    · cases absent

/-- So any fuel above the number of scopes gives the same. -/
theorem WellFormed.cloneWithin_eq (formed : p.WellFormed) (acyclic : p.NeverCycles source)
    (r : Renaming) {fuel : Nat} (enough : p.scopes.size < fuel) :
    (cloneWithin fuel r source).runOn p = (cloneUnder r source).runOn p := by
  have start : (cloneUnder r source).runOn p =
      (cloneWithin (p.scopes.size + 1) r source).runOn p := by
    rw [cloneUnder, runOn_bind, runOn_get]
  rcases extends_cloneWithin enough r source p with same | ⟨x, exhausted⟩
  · rw [same, start]
  · rw [← start] at exhausted
    exact absurd exhausted (formed.cloneUnder_ne_selfNested acyclic r x)

end Program

end ClosureIR
