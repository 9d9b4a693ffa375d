import ClosureIR.Proofs.Lexical.Resolve
import Mathlib.Data.List.Nodup

/-!
# The slots of locals

As long as the counter of its slots has not reached its last value, a table
gives every name a slot of its own, below the next one.  Declaring a name once
more uses up a slot and leaves a gap.
-/

namespace ClosureIR

namespace LocalTable

variable {t : LocalTable} {name other : String} {v w : LocalVar}

/-- Slots are below the next one, and no two names share one. -/
structure Canonical (t : LocalTable) : Prop where
  below : ∀ name v, t.get? name = some v → v.slot < t.nextSlot
  distinct : ∀ name other v w, t.get? name = some v → t.get? other = some w → v.slot = w.slot →
    name = other

theorem canonical_of_isEmpty (empty : t.isEmpty = true) : t.Canonical := by
  have unbound := fun name => get?_of_isEmpty empty name
  constructor
  · intro name v bound
    rw [unbound name] at bound
    cases bound
  · intro name other v w bound
    rw [unbound name] at bound
    cases bound

/-- A declaration at the next slot, also of a name that is there. -/
theorem Canonical.declaring (canonical : t.Canonical) (fresh : v.slot = t.nextSlot) :
    ({ t.store v with nextSlot := t.nextSlot + 1 } : LocalTable).Canonical := by
  have bound_cases : ∀ name u, (t.store v).get? name = some u →
      (name = v.name ∧ u.slot = t.nextSlot) ∨ (t.get? name = some u ∧ u.slot < t.nextSlot) := by
    intro name u bound
    by_cases same : name = v.name
    · subst same
      rw [get?_store_self] at bound
      cases bound
      exact .inl ⟨rfl, fresh⟩
    · rw [get?_store_of_ne t v same] at bound
      exact .inr ⟨bound, canonical.below name u bound⟩
  constructor
  · intro name u bound
    obtain ⟨-, slot⟩ | ⟨-, slot⟩ := bound_cases name u bound
    · exact slot ▸ Nat.lt_succ_self _
    · exact Nat.lt_succ_of_lt slot
  · intro name other u w bound bound' same
    obtain ⟨rfl, slot⟩ | ⟨before, slot⟩ := bound_cases name u bound
    · obtain ⟨rfl, -⟩ | ⟨-, slot'⟩ := bound_cases other w bound'
      · rfl
      · omega
    · obtain ⟨rfl, slot'⟩ | ⟨before', -⟩ := bound_cases other w bound'
      · omega
      · exact canonical.distinct name other u w before before' same

theorem Canonical.reowned (canonical : t.Canonical) (owner : ScopeId) :
    (t.reowned owner).Canonical := by
  constructor
  · intro name v bound
    rw [get?_reowned, Option.map_eq_some_iff] at bound
    obtain ⟨u, before, rfl⟩ := bound
    exact canonical.below name u before
  · intro name other v w bound bound' same
    rw [get?_reowned, Option.map_eq_some_iff] at bound bound'
    obtain ⟨u, before, rfl⟩ := bound
    obtain ⟨u', before', rfl⟩ := bound'
    exact canonical.distinct name other u u' before before' same

/-! ## In the order of slots -/

/-- What is listed is what some name is bound to. -/
theorem mem_sorted_iff : v ∈ t.sorted ↔ ∃ name, t.get? name = some v := by
  rw [mem_sorted, Dict.values, List.mem_map]
  constructor
  · rintro ⟨⟨name, v⟩, entry, rfl⟩
    exact ⟨name, Dict.get?_eq_some_iff.2 entry⟩
  · rintro ⟨name, bound⟩
    exact ⟨(name, v), Dict.get?_eq_some_iff.1 bound, rfl⟩

theorem Canonical.nodup_slots (canonical : t.Canonical) :
    (t.bindings.values.map (·.slot)).Nodup := by
  have entries : t.bindings.entries.Nodup := t.bindings.distinct.of_map
  rw [Dict.values, List.map_map]
  apply entries.map_on
  rintro ⟨name, v⟩ entry ⟨other, w⟩ entry' same
  have bound : t.get? name = some v := Dict.get?_eq_some_iff.2 entry
  have bound' : t.get? other = some w := Dict.get?_eq_some_iff.2 entry'
  cases canonical.distinct name other v w bound bound' same
  cases bound.symm.trans bound'
  rfl

theorem pairwise_sorted_le (t : LocalTable) :
    t.sorted.Pairwise fun a b => a.slot ≤ b.slot := by
  have ordered : t.sorted.Pairwise fun a b => decide (a.slot ≤ b.slot) = true :=
    List.pairwise_mergeSort
      (fun a b c => by simpa using fun first second => Nat.le_trans first second)
      (fun a b => by simpa using Nat.le_total a.slot b.slot) t.bindings.values
  exact ordered.imp fun le => of_decide_eq_true le

theorem Canonical.increasing (canonical : t.Canonical) :
    t.sorted.Pairwise fun a b => a.slot < b.slot := by
  have sorted : t.sorted.Perm t.bindings.values := List.mergeSort_perm ..
  have distinct := (sorted.map (·.slot)).nodup_iff.2 canonical.nodup_slots
  have different := List.pairwise_map.1 distinct
  exact ((pairwise_sorted_le t).and different).imp fun ⟨le, ne⟩ => Nat.lt_of_le_of_ne le ne

end LocalTable

namespace Scope

/-- Until the counter of slots is at its last value, each name has a slot of its own. -/
def Spaced (s : Scope) : Prop := s.locals.nextSlot + 1 < Counter.bound → s.locals.Canonical

theorem spaced_of_isEmpty {s : Scope} (empty : s.locals.isEmpty = true) : s.Spaced :=
  fun _ => LocalTable.canonical_of_isEmpty empty

theorem Spaced.reowned {s c : Scope} {owner : ScopeId} (spaced : s.Spaced)
    (locals : c.locals = s.locals.reowned owner) : c.Spaced := by
  intro room
  rw [locals] at room ⊢
  exact (spaced room).reowned owner

theorem invariant_spaced : Invariant fun _ _ s => s.Spaced where
  script _ _ _ := spaced_of_isEmpty rfl
  method _ _ _ _ _ _ _ := spaced_of_isEmpty rfl
  block _ _ _ _ _ _ _ _ _ _ := spaced_of_isEmpty rfl
  evalUnit _ _ _ _ _ _ _ _ _ := spaced_of_isEmpty rfl
  counters _ _ _ spaced := spaced
  declare name kind nextSlot spaced _ next room := by
    -- A counter that has moved on was not at its last value before.
    cases next room
    exact (spaced (Nat.lt_of_succ_lt room)).declaring rfl
  append _ spaced := spaced
  graph spaced _ := spaced
  inline spaced := spaced
  parameters _ spaced := spaced
  shell _ _ spaced _ _ := spaced.reowned rfl
  clone spaced _ cloned := spaced.reowned cloned.locals

def localKind (s : Scope) : LocalKind := if s.isClosure then .closure else .plain

theorem declares?_eq_some {s : Scope} (body : s.kind ≠ .forLoopBody) :
    s.kind.declares? = some s.localKind := by
  cases kind : s.kind with
  | forLoopBody => exact absurd kind body
  | _ => simp [ScopeKind.declares?, localKind, isClosure, kind, ScopeKind.isClosure]

end Scope

namespace Program

variable {p : Program} {id : ScopeId} {s : Scope}

/--
The table of a scope: every declaration is the scope's own and stands under its
name, loop bodies have none, and, as long as there is a slot left, the list in
the order of slots has each declaration once.
-/
theorem canonical_of_reachable (reachable : p.Reachable) (found : p.scope? id = some s) :
    (∀ name v, s.locals.get? name = some v → v = ⟨name, 0, v.slot, id, s.localKind⟩) ∧
    (s.kind = .forLoopBody → s.locals.isEmpty = true) ∧
    (¬ p.FullAt id →
      (∀ name v, s.locals.get? name = some v → v.slot < s.locals.nextSlot) ∧
      (∀ name other v w, s.locals.get? name = some v → s.locals.get? other = some w →
        name ≠ other → v.slot ≠ w.slot) ∧
      (∀ v, v ∈ s.locals.sorted ↔ s.locals.get? v.name = some v) ∧
      s.locals.sorted.Pairwise fun a b => a.slot < b.slot) := by
  have declares := reachable.everywhere Scope.invariant_declares id s found
  have own : ∀ name v, s.locals.get? name = some v → v = ⟨name, 0, v.slot, id, s.localKind⟩ := by
    intro name v bound
    by_cases body : s.kind = .forLoopBody
    · rw [LocalTable.get?_of_isEmpty (declares.loop body)] at bound
      cases bound
    · exact declares.declared _ (Scope.declares?_eq_some body) name v bound
  refine ⟨own, declares.loop, fun room => ?_⟩
  have small : s.locals.nextSlot + 1 < Counter.bound :=
    Nat.lt_of_not_le fun full => room ⟨s, found, full⟩
  have canonical := reachable.everywhere Scope.invariant_spaced id s found small
  refine ⟨canonical.below, fun name other v w bound bound' different same => ?_, fun v => ?_,
    canonical.increasing⟩
  · exact different (canonical.distinct name other v w bound bound' same)
  · rw [LocalTable.mem_sorted_iff]
    constructor
    · rintro ⟨name, bound⟩
      have named : v.name = name := congrArg LocalVar.name (own name v bound)
      rwa [named]
    · exact fun bound => ⟨v.name, bound⟩

def redeclared : Program :=
  loopInClosure
    |>.after (newLocal ⟨1⟩ "y" 0)
    |>.after (newLocal ⟨1⟩ "x" 0)
    |>.after (cloneClosure ⟨1⟩ ⟨0⟩)

theorem reachable_redeclared : redeclared.Reachable :=
  reachable_loopInClosure
    |>.step (.newLocal ⟨1⟩ "y" 0)
    |>.step (.newLocal ⟨1⟩ "x" 0)
    |>.step (.cloneClosure ⟨1⟩ ⟨0⟩)

theorem canonical_redeclared : ∃ s, redeclared.scope? ⟨3⟩ = some s ∧
    s.locals.get? "x" = some ⟨"x", 0, 2, ⟨3⟩, .closure⟩ ∧
    s.locals.get? "y" = some ⟨"y", 0, 1, ⟨3⟩, .closure⟩ ∧ s.locals.nextSlot = 3 ∧
    (∀ v, v ∈ s.locals.sorted ↔ s.locals.get? v.name = some v) ∧
    s.locals.sorted.Pairwise fun a b => a.slot < b.slot := by
  have shape : (redeclared.scope? ⟨3⟩).any (fun s => decide (
      s.locals.get? "x" = some ⟨"x", 0, 2, ⟨3⟩, .closure⟩ ∧
      s.locals.get? "y" = some ⟨"y", 0, 1, ⟨3⟩, .closure⟩ ∧ s.locals.nextSlot = 3)) = true := by
    decide +kernel
  obtain ⟨s, found, bound⟩ := (Option.any_eq_true _ _).1 shape
  obtain ⟨x, y, next⟩ := of_decide_eq_true bound
  have room : ¬ redeclared.FullAt ⟨3⟩ := by
    rintro ⟨t, there, full⟩
    cases found.symm.trans there
    rw [next] at full
    exact absurd full (by decide)
  obtain ⟨-, -, last⟩ := canonical_of_reachable reachable_redeclared found
  obtain ⟨-, -, listed, increasing⟩ := last room
  exact ⟨s, found, x, y, next, listed, increasing⟩

end Program

end ClosureIR
