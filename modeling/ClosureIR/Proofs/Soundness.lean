import ClosureIR.Proofs.Descriptor
import ClosureIR.Proofs.Numbers
import ClosureIR.Proofs.Parents

/-!
# Sound programs

All that one may rely on in a program that was reached, also after operations
that failed half way: scopes know their places and their parents, what belongs
to a scope names it, walks end, and numbers are not given twice.
-/

namespace ClosureIR

open BuildM

namespace Program

structure Sound (p : Program) : Prop where
  place : ∀ id s, p.scope? id = some s → s.id = id
  script : ∀ id s, p.scope? id = some s → (s.parent = none ↔ s.kind = .script)
  older : ∀ id s parent, p.scope? id = some s → s.parent = some parent → parent.index < id.index
  walksEnd : ∀ id s, p.scope? id = some s → p.WalksEnd id
  closure : ∀ id s, p.scope? id = some s → s.closure.isSome = s.kind.isClosure
  graph : ∀ id s g, p.scope? id = some s → s.graph = some g → g.scope = id
  called : ∀ id s, p.scope? id = some s → s.blockBody.isSome = s.kind.hasBody p.options
  body : ∀ id s body, p.scope? id = some s → s.blockBody = some body → body.closure = id
  numbered : p.Numbered

variable {p : Program}

theorem Reachable.sound (reachable : p.Reachable) : p.Sound := by
  have formed := reachable.wellFormed
  have named := reachable.everywhere Scope.invariant_namesItself
  constructor
  case place => exact fun id s found => (formed id s found).place
  case script =>
    intro id s found
    have parent := (formed id s found).parent
    split at parent
    · rename_i script
      simp [parent, script]
    · rename_i other
      obtain ⟨above, lies, -⟩ := parent
      simp [lies, other]
  case older => exact fun id s parent found lies => (formed id s found).older lies
  case walksEnd => exact fun id s found => formed.walksEnd found
  case closure => exact fun id s found => (formed id s found).closure
  case graph => exact fun id s g found drawn => (named id s found).graph g drawn
  case called => exact fun id s found => (named id s found).called
  case body => exact fun id s body found given => (named id s found).body body given
  case numbered => exact reachable.numbered

/-- Every program that is reached is sound, and no request to it fails for want of a parent. -/
theorem sound_of_reachable (reachable : p.Reachable) :
    p.Sound ∧ ∀ {α : Type} (r : Request α) (name : String),
      (r.run.runOn p).1 ≠ .error (.misused (.orphan name)) :=
  ⟨reachable.sound, reachable.ne_orphan⟩

/-- A clone that was given up half way leaves a sound program. -/
theorem sound_twoClosures_missing :
    ((twoClosures [.closure ⟨9⟩]).after (cloneUnder (.under ⟨0⟩) ⟨2⟩)).Sound :=
  (sound_of_reachable ((reachable_twoClosures [.closure ⟨9⟩]).step (.cloneUnder (.under ⟨0⟩) ⟨2⟩))).1

end Program

end ClosureIR
