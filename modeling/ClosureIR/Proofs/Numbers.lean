import ClosureIR.Proofs.Identity

/-!
# The numbers of closures

A method or script counts the closures under it, made and cloned.  No two of
them have the same number.
-/

namespace ClosureIR

namespace Scope.Edit

variable {id : ScopeId} {s after : Scope} {deed : Deed}

/-- Edits leave a scope its kind, its parent and its number. -/
theorem outline (edited : s.Edit id deed after) : after.kind = s.kind ∧ after.parent = s.parent ∧
    after.closure.map (·.number) = s.closure.map (·.number) := by
  have same := edited.core_eq
  exact ⟨kind_eq_of_core same, parent_eq_of_core same, closure_map_eq_of_core (fun _ => rfl) same⟩

theorem closures_le (edited : s.Edit id deed after) : s.closures ≤ after.closures := by
  have counted := edited.of_counts
  cases edited with
  | name | temporary | number =>
    obtain ⟨_, _, _, more, rfl⟩ := counted trivial
    exact more
  | _ => exact Nat.le_refl _

end Scope.Edit

namespace Program

variable {p q : Program} {flat id : ScopeId} {s : Scope} {n : Nat}

def Counts (p : Program) (flat : ScopeId) (n : Nat) (id : ScopeId) : Prop :=
  p.nearestFlat id = .ok flat ∧
    ∃ s data, p.scope? id = some s ∧ s.closure = some data ∧ data.number = n

/-- The closures under one method or script have different numbers, up to its count. -/
structure Numbered (p : Program) : Prop where
  positive : ∀ flat n id, p.Counts flat n id → 1 ≤ n
  counted : ∀ flat n id outer, p.Counts flat n id → p.scope? flat = some outer → n ≤ outer.closures
  distinct : ∀ flat n id id', p.Counts flat n id → p.Counts flat n id' → id = id'

/-- A closure that was there with its number had it under the same method or script. -/
theorem Counts.earlier (formed : p.WellFormed) (outlines : p.Outlines q) (counts : q.Counts flat n id)
    (found : p.scope? id = some s)
    (same : ∀ t, q.scope? id = some t → t.closure.map (·.number) = s.closure.map (·.number)) :
    p.Counts flat n id := by
  obtain ⟨nearest, t, data, there, closed, number⟩ := counts
  obtain ⟨flat', before⟩ := formed.exists_nearestFlat (lt_size_of_scope? found)
  cases (outlines.nearestFlat before).symm.trans nearest
  have known := same t there
  rw [closed] at known
  obtain ⟨data', closed', same⟩ := Option.map_eq_some_iff.1 known.symm
  exact ⟨before, s, data', found, closed', same.trans number⟩

namespace Numbered

theorem empty (options : Options) : Numbered { options } := by
  have none (flat id : ScopeId) (n : Nat) : ¬ Counts { options } flat n id := by
    rintro ⟨-, s, data, found, -⟩
    simp [scope?] at found
  exact ⟨fun flat n id counts => (none flat id n counts).elim,
    fun flat n id _ counts => (none flat id n counts).elim,
    fun flat n id _ counts => (none flat id n counts).elim⟩

/-- Nothing new is numbered, and counts do not go down. -/
theorem keep (numbered : p.Numbered) (earlier : ∀ flat n id, q.Counts flat n id → p.Counts flat n id)
    (more : ∀ id s t, p.scope? id = some s → q.scope? id = some t → s.closures ≤ t.closures) :
    q.Numbered where
  positive flat n id counts := numbered.positive flat n id (earlier flat n id counts)
  counted flat n id outer counts there := by
    have before := earlier flat n id counts
    obtain ⟨host, found, -⟩ := flat_of_nearestFlat before.1
    exact Nat.le_trans (numbered.counted flat n id host before found) (more flat host outer found there)
  distinct flat n id id' first second :=
    numbered.distinct flat n id id' (earlier flat n id first) (earlier flat n id' second)

/-- Closures that are added take the numbers after those that were counted before. -/
theorem grown (numbered : p.Numbered) (formed : p.WellFormed) {host : ScopeId}
    (grown : p.Grown host q) : q.Numbered := by
  -- A closure that was there has its old number; one that was added has one beyond the old count.
  have origin {flat id : ScopeId} {n : Nat} (counts : q.Counts flat n id) :
      p.Counts flat n id ∨ ∃ outer, p.scope? host = some outer ∧ flat = host ∧
        p.scopes.size ≤ id.index ∧ id.index < q.scopes.size ∧
        n = outer.closures + (id.index - p.scopes.size) + 1 := by
    rcases Nat.lt_or_ge id.index p.scopes.size with inside | beyond
    · obtain ⟨s, found⟩ := exists_scope? inside
      refine .inl (counts.earlier formed grown.outlines found fun t there => ?_)
      cases (grown.old id s found).symm.trans there
      split <;> rfl
    · obtain ⟨nearest, t, data, there, closed, rfl⟩ := counts
      obtain ⟨nearest', outer, data', found, closed', number⟩ := grown.new id t beyond there
      cases closed.symm.trans closed'
      cases nearest.symm.trans nearest'
      exact .inr ⟨outer, found, rfl, beyond, lt_size_of_scope? there, number⟩
  constructor
  case positive =>
    intro flat n id counts
    obtain before | ⟨outer, -, -, -, -, rfl⟩ := origin counts
    · exact numbered.positive flat n id before
    · omega
  case counted =>
    intro flat n id outer counts there
    obtain before | ⟨outer', found, rfl, beyond, inside, rfl⟩ := origin counts
    · obtain ⟨outer', found, -⟩ := flat_of_nearestFlat before.1
      have bound := numbered.counted flat n id outer' before found
      cases (grown.old flat outer' found).symm.trans there
      split
      · exact Nat.le_trans bound (Nat.le_add_right _ _)
      · exact bound
    · cases (grown.old flat outer' found).symm.trans there
      simp only [if_true]
      omega
  case distinct =>
    intro flat n id id' first second
    obtain before | ⟨outer, found, same, beyond, inside, number⟩ := origin first <;>
      obtain before' | ⟨outer', found', same', beyond', inside', number'⟩ := origin second
    · exact numbered.distinct flat n id id' before before'
    · have bound := numbered.counted flat n id outer' before (same' ▸ found')
      omega
    · have bound := numbered.counted flat n id' outer before' (same ▸ found)
      omega
    · cases found.symm.trans found'
      have equal : id.index = id'.index := by omega
      exact congrArg ScopeId.mk equal

/-- A scope that is no closure takes no number. -/
theorem push (numbered : p.Numbered) (formed : p.WellFormed) (bare : s.closure = none) :
    (p.push s).Numbered := by
  have outlines := outlines_push p s
  apply numbered.keep
  · intro flat n id counts
    have ⟨_, t, _, there, closed, _⟩ := counts
    obtain ⟨rfl, rfl⟩ | old := scope?_push_cases there
    · cases bare.symm.trans closed
    · refine counts.earlier formed outlines old fun t' there' => ?_
      cases there.symm.trans there'
      rfl
  · intro id t u found there
    obtain ⟨rfl, rfl⟩ | old := scope?_push_cases there
    · exact absurd (lt_size_of_scope? found) (Nat.lt_irrefl _)
    · cases found.symm.trans old
      exact Nat.le_refl _

theorem edit (numbered : p.Numbered) (formed : p.WellFormed) {after : Scope} {deed : Deed}
    (found : p.scope? id = some s) (edited : s.Edit id deed after) : (p.replace id after).Numbered := by
  obtain ⟨kind, parent, number⟩ := edited.outline
  have outlines := outlines_replace found kind parent
  apply numbered.keep
  · intro flat n x counts
    have ⟨_, t, _, there, _⟩ := counts
    obtain ⟨rfl, rfl⟩ | old := scope?_replace_cases there
    · refine counts.earlier formed outlines found fun t' there' => ?_
      cases there.symm.trans there'
      exact number
    · refine counts.earlier formed outlines old fun t' there' => ?_
      cases there.symm.trans there'
      rfl
  · intro x t u before there
    obtain ⟨rfl, rfl⟩ | old := scope?_replace_cases there
    · cases found.symm.trans before
      exact edited.closures_le
    · cases before.symm.trans old
      exact Nat.le_refl _

theorem change {may : ScopeId → Deed → Prop} (numbered : p.Numbered) (formed : p.WellFormed)
    (change : p.Change may q) : q.Numbered := by
  cases change with
  | edit found edited => exact numbered.edit formed found edited
  | script fileName => exact numbered.push formed rfl
  | method found name line static => exact numbered.push formed rfl
  | block found nearest host minted deep forLoop line static signature =>
    refine numbered.grown formed (.push nearest host minted ?_ ?_ rfl rfl)
    · cases forLoop <;> rfl
    · rfl
  | evalUnit nearest host minted deep fileName line static stem =>
    exact numbered.grown formed (.push nearest host minted rfl rfl rfl rfl)

end Numbered

theorem Reachable.numbered (reachable : p.Reachable) : p.Numbered :=
  (reachable.invariant Numbered.empty (fun _ _ formed numbered change => numbered.change formed change)
    fun _ _ _ hosts numbered cloning => numbered.grown hosts.formed (cloning.grown hosts)).2

end Program

end ClosureIR
