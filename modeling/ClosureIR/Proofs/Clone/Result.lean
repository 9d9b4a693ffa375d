import ClosureIR.Proofs.Reachable

/-!
# What a clone leaves

A clone that succeeds is the root of a tree of new scopes, which is that of its
source under a renaming.  A clone that fails leaves part of such a tree.  Either
way the scopes that were there stay as they were.
-/

namespace ClosureIR

open BuildM

namespace Program

variable {p q : Program} {parent source clone : ScopeId} {owner : ScopeId → ScopeId}

namespace IsClone

theorem copyable (cloned : q.IsClone parent owner source clone) :
    ∃ s, q.scope? source = some s ∧ s.Copyable := by
  cases cloned with
  | intro found made newer copyable owners cloned nested => exact ⟨_, found, copyable⟩

theorem source_lt (cloned : q.IsClone parent owner source clone) : source.index < clone.index := by
  cases cloned with
  | intro found made newer copyable owners cloned nested => exact newer

/-- Closure by closure, what a clone holds are clones of what its source holds. -/
theorem forall₂_held (cloned : q.IsClone parent owner source clone) :
    ∃ owner', List.Forall₂ (q.IsClone clone owner') (q.held source) (q.held clone) := by
  cases cloned with
  | @intro _ _ _ _ s c m sub found made newer copyable owners cloned nested =>
    obtain ⟨g, g', -, -, body, -⟩ := cloned.body
    rw [held_of_scope? found body.source, held_of_scope? made body.graph]
    exact ⟨m.owner, body.copied.closures.imp nested⟩

/-- A closure in a clone is a clone of one in the source. -/
theorem of_holds_clone (cloned : q.IsClone parent owner source clone) {d : ScopeId}
    (holds : q.Holds clone d) : ∃ owner' x, q.Holds source x ∧ q.IsClone clone owner' x d := by
  obtain ⟨owner', each⟩ := cloned.forall₂_held
  obtain ⟨x, inside, nested⟩ := exists_left_of_forall₂ each (mem_held_iff.2 holds)
  exact ⟨owner', x, mem_held_iff.1 inside, nested⟩

/-- Every closure in the source has a clone in the clone. -/
theorem of_holds_source (cloned : q.IsClone parent owner source clone) {x : ScopeId}
    (holds : q.Holds source x) : ∃ owner' d, q.Holds clone d ∧ q.IsClone clone owner' x d := by
  obtain ⟨owner', each⟩ := cloned.forall₂_held
  obtain ⟨d, inside, nested⟩ := exists_right_of_forall₂ each (mem_held_iff.2 holds)
  exact ⟨owner', d, mem_held_iff.1 inside, nested⟩

/-- All that is reached from a clone are clones of what is reached from the source. -/
theorem of_reaches_clone (cloned : q.IsClone parent owner source clone) {d : ScopeId}
    (reaches : q.Reaches clone d) :
    ∃ parent owner x, q.Reaches source x ∧ q.IsClone parent owner x d := by
  induction reaches with
  | refl => exact ⟨parent, owner, source, .refl, cloned⟩
  | tail _ last ih =>
    obtain ⟨above, owned, x, reaches, here⟩ := ih
    obtain ⟨owned', y, holds, there⟩ := here.of_holds_clone last
    exact ⟨_, owned', y, reaches.tail holds, there⟩

theorem parent_eq (cloned : q.IsClone parent owner source clone) :
    ∃ c, q.scope? clone = some c ∧ c.parent = some parent := by
  cases cloned with
  | intro found made newer copyable owners cloned nested => exact ⟨_, made, cloned.parent⟩

/-- What is reached from a clone was made no earlier than the clone. -/
theorem index_le_of_reaches (formed : q.WellFormed) (cloned : q.IsClone parent owner source clone)
    {d : ScopeId} (reaches : q.Reaches clone d) : clone.index ≤ d.index := by
  induction reaches with
  | refl => exact Nat.le_refl _
  | tail before last ih =>
    obtain ⟨_, _, _, _, here⟩ := cloned.of_reaches_clone before
    obtain ⟨_, _, _, there⟩ := here.of_holds_clone last
    obtain ⟨e, made, lies⟩ := there.parent_eq
    exact Nat.le_trans ih (Nat.le_of_lt ((formed _ e made).older lies))

/-- No scope in a tree of clones is held by two others. -/
theorem holder_unique (cloned : q.IsClone parent owner source clone) {x y d : ScopeId}
    (first : q.Reaches clone x) (second : q.Reaches clone y) (held : q.Holds x d)
    (held' : q.Holds y d) : x = y := by
  obtain ⟨_, _, _, _, here⟩ := cloned.of_reaches_clone first
  obtain ⟨_, _, _, there⟩ := here.of_holds_clone held
  obtain ⟨_, _, _, _, here'⟩ := cloned.of_reaches_clone second
  obtain ⟨_, _, _, there'⟩ := here'.of_holds_clone held'
  obtain ⟨e, made, lies⟩ := there.parent_eq
  obtain ⟨e', made', lies'⟩ := there'.parent_eq
  cases made.symm.trans made'
  exact Option.some.inj (lies.symm.trans lies')

end IsClone

/-- What a clone adds, whatever its outcome, and in what it succeeds if it does. -/
theorem WellFormed.cloned (formed : p.WellFormed) {r : Renaming} {c : ScopeId}
    (run : (cloneUnder r source).runOn p = (.ok c, q)) :
    ∃ flat, p.nearestFlat r.host = .ok flat ∧ p.Cloning flat q ∧ c = p.nextId ∧
      q.IsClone r.host r.names.owner source c := by
  rw [cloneUnder, BuildM.runOn_bind, BuildM.runOn_get] at run
  obtain ⟨flat, nearest, cloning⟩ | ⟨-, fails⟩ := formed.yields_clone p.scopes.size r source
  · obtain ⟨step, place, cloned⟩ := cloning.of_ok run
    exact ⟨flat, nearest, step, place, cloned⟩
  · exact (fails.of_ok run).elim

/--
A successful clone is isomorphic to its source, down to the last nested closure:
it is a tree of new scopes, and the closures that were there are still the same.
-/
theorem cloneUnder_isClone (reachable : p.Reachable) {r : Renaming} {c : ScopeId}
    (run : (cloneUnder r source).runOn p = (.ok c, q)) :
    c = p.nextId ∧ q.IsClone r.host (fun id => (r.scope? id).getD id) source c ∧
      (∀ id s, p.scope? id = some s → s.isClosure = true → q.scope? id = some s) ∧
      (∀ x, q.Reaches c x → p.scopes.size ≤ x.index) ∧
      ∀ x y d, q.Reaches c x → q.Reaches c y → q.Holds x d → q.Holds y d → x = y := by
  obtain ⟨flat, nearest, step, place, cloned⟩ := reachable.wellFormed.cloned run
  have hosts := reachable.wellFormed.hosts nearest
  refine ⟨place, cloned, ?_, ?_, ?_⟩
  · intro id s found closed
    exact (step.grown hosts).keeps_closure hosts found closed
  · intro x reaches
    have newer := cloned.index_le_of_reaches (step.hosts hosts).formed reaches
    rwa [place] at newer
  · intro x y d first second held held'
    exact cloned.holder_unique first second held held'

/-- The second closure cloned next to the first: its clone is 3, and that of the first lies in it. -/
theorem isClone_twoClosures :
    ((twoClosures []).after (cloneUnder (.under ⟨0⟩) ⟨2⟩)).IsClone ⟨0⟩
      (fun id => ((Renaming.under ⟨0⟩).scope? id).getD id) ⟨2⟩ ⟨3⟩ :=
  (cloneUnder_isClone (reachable_twoClosures []) (Prod.ext (by decide +kernel) rfl)).2.1

/-- Whatever its outcome, a clone with a parent that is there adds closures under one host. -/
theorem WellFormed.cloning_after (formed : p.WellFormed) {r : Renaming} {flat : ScopeId}
    (nearest : p.nearestFlat r.host = .ok flat) (source : ScopeId) :
    p.Cloning flat (p.after (cloneUnder r source)) := by
  have clone := clonesNested_cloneWithin (p.scopes.size + 1) r source flat p
    (formed.hosts nearest) nearest
  have left : (cloneUnder r source).Yields p (fun _ q => p.Cloning flat q)
      fun _ q => p.Cloning flat q :=
    yields_bind.2 (clone.mono (fun _ _ done => done.1) fun _ _ done => done.1)
  exact left.after

/-- Without its parent it does nothing. -/
theorem WellFormed.after_of_missing (formed : p.WellFormed) {r : Renaming}
    (missing : p.scope? r.host = none) (source : ScopeId) :
    p.after (cloneUnder r source) = p := by
  have left : (cloneUnder r source).Yields p (fun _ q => q = p) fun _ q => q = p :=
    yields_bind.2 ((yields_cloneStep_of_missing formed missing).mono
      (fun _ _ never => never.elim) fun _ _ done => done.1)
  exact left.after

/--
Whatever the outcome of a clone, the scopes that were there are as they were,
but for the count of closures of the method or script around the new ones.
-/
theorem grown_after_cloneUnder (reachable : p.Reachable) (r : Renaming) (source : ScopeId) :
    (∀ id s, (p.after (cloneUnder r source)).scope? id = some s → s.id = id) ∧
      ((∃ flat, p.nearestFlat r.host = .ok flat ∧ p.Grown flat (p.after (cloneUnder r source))) ∨
        (p.scope? r.host = none ∧ p.after (cloneUnder r source) = p)) := by
  have formed := reachable.wellFormed
  have formed' := (reachable.step (.cloneUnder r source)).wellFormed
  constructor
  · intro id s found
    exact (formed' id s found).place
  · cases missing : p.scope? r.host with
    | none => exact .inr ⟨rfl, formed.after_of_missing missing source⟩
    | some host =>
      obtain ⟨flat, nearest⟩ := formed.exists_nearestFlat (lt_size_of_scope? missing)
      have cloning := formed.cloning_after nearest source
      exact .inl ⟨flat, nearest, cloning.grown (formed.hosts nearest)⟩

/-- A clone of the second closure that fails in a missing scope has added scopes to the script all the same. -/
theorem grown_twoClosures_missing :
    ∃ flat, (twoClosures [.closure ⟨9⟩]).nearestFlat ⟨0⟩ = .ok flat ∧
      (twoClosures [.closure ⟨9⟩]).Grown flat
        ((twoClosures [.closure ⟨9⟩]).after (cloneUnder (.under ⟨0⟩) ⟨2⟩)) := by
  have after := (grown_after_cloneUnder (reachable_twoClosures [.closure ⟨9⟩]) (.under ⟨0⟩) ⟨2⟩).2
  exact after.resolve_right fun ⟨missing, _⟩ => absurd missing (by decide +kernel)

end Program

end ClosureIR
