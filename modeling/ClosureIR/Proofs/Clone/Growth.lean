import ClosureIR.Proofs.Arena

/-!
# Growth under one method or script

While closures are cloned the arena grows at its end.  All new scopes lie under
one method or script, which counts them, and nothing else changes in the scopes
that were there.
-/

namespace ClosureIR

namespace Program

/--
From `p` to `q` closures were added under `flat`.  They are numbered in the
order in which they stand in the arena, after those that `flat` had counted.
-/
structure Grown (flat : ScopeId) (p q : Program) : Prop where
  options : q.options = p.options
  size_le : p.scopes.size ≤ q.scopes.size
  old : ∀ id s, p.scope? id = some s → q.scope? id = some
    (if id = flat then { s with closures := s.closures + (q.scopes.size - p.scopes.size) } else s)
  new : ∀ id s, p.scopes.size ≤ id.index → q.scope? id = some s →
    q.nearestFlat id = .ok flat ∧ ∃ outer data, p.scope? flat = some outer ∧
      s.closure = some data ∧ data.number = outer.closures + (id.index - p.scopes.size) + 1

structure Hosts (p : Program) (flat : ScopeId) : Prop where
  formed : p.WellFormed
  outer : ∃ s, p.scope? flat = some s ∧ s.isClosure = false

variable {p q t : Program} {flat id : ScopeId} {s c : Scope}

theorem Hosts.ne_of_closure (hosts : p.Hosts flat) (found : p.scope? id = some s)
    (closed : s.isClosure = true) : id ≠ flat := by
  rintro rfl
  obtain ⟨outer, there, flat⟩ := hosts.outer
  cases found.symm.trans there
  rw [flat] at closed
  cases closed

theorem WellFormed.hosts (formed : p.WellFormed) (nearest : p.nearestFlat id = .ok flat) :
    p.Hosts flat := ⟨formed, flat_of_nearestFlat nearest⟩

namespace Grown

theorem refl (flat : ScopeId) (p : Program) : p.Grown flat p where
  options := rfl
  size_le := Nat.le_refl _
  old id s found := by
    split
    · rw [Nat.sub_self]
      exact found
    · exact found
  new id s beyond found := absurd (lt_size_of_scope? found) (Nat.not_lt.2 beyond)

/-- Scopes other than the host stay as they are. -/
theorem keeps (grown : p.Grown flat q) (found : p.scope? id = some s) (other : id ≠ flat) :
    q.scope? id = some s := by
  rw [grown.old id s found, if_neg other]

theorem keeps_closure (grown : p.Grown flat q) (hosts : p.Hosts flat) (found : p.scope? id = some s)
    (closed : s.isClosure = true) : q.scope? id = some s :=
  grown.keeps found (hosts.ne_of_closure found closed)

theorem outlines (grown : p.Grown flat q) : p.Outlines q := by
  intro id s found
  refine ⟨_, grown.old id s found, ?_⟩
  split <;> exact ⟨rfl, rfl⟩

theorem trans (first : p.Grown flat q) (second : q.Grown flat t) : p.Grown flat t where
  options := second.options.trans first.options
  size_le := Nat.le_trans first.size_le second.size_le
  old id s found := by
    have there := second.old id _ (first.old id s found)
    have added : q.scopes.size - p.scopes.size + (t.scopes.size - q.scopes.size) =
        t.scopes.size - p.scopes.size := by
      have below := first.size_le
      have above := second.size_le
      omega
    rw [there]
    split
    · simp only [Option.some.injEq, Scope.mk.injEq, true_and, and_true]
      omega
    · rfl
  new id s beyond found := by
    rcases Nat.lt_or_ge id.index q.scopes.size with inside | outside
    · obtain ⟨before, there⟩ := exists_scope? inside
      obtain ⟨nearest, outer, data, host, closed, number⟩ := first.new id before beyond there
      have other : id ≠ flat := by
        rintro rfl
        exact absurd (lt_size_of_scope? host) (Nat.not_lt.2 beyond)
      cases (second.keeps there other).symm.trans found
      exact ⟨second.outlines.nearestFlat nearest, outer, data, host, closed, number⟩
    · obtain ⟨nearest, outer, data, host, closed, number⟩ := second.new id s outside found
      refine ⟨nearest, ?_⟩
      -- The host had counted the scopes up to `q` before it counted this one.
      have inside : flat.index < p.scopes.size := by
        rcases Nat.lt_or_ge flat.index p.scopes.size with inside | late
        · exact inside
        · obtain ⟨-, outer', -, host', -⟩ := first.new flat outer late host
          exact lt_size_of_scope? host'
      obtain ⟨before, there⟩ := exists_scope? inside
      have counted := first.old flat before there
      rw [if_pos rfl, host] at counted
      cases counted
      have below := first.size_le
      refine ⟨before, data, there, closed, ?_⟩
      rw [number]
      simp only
      omega

/-- A closure is added directly in `parent`, with the next number of the host. -/
theorem push {parent : ScopeId} {outer after : Scope} {number : Nat} {data : ClosureData}
    (nearest : p.nearestFlat parent = .ok flat) (host : p.scope? flat = some outer)
    (minted : outer.mintClosureNumber? = some (number, after)) (closed : c.isClosure = true)
    (lies : c.parent = some parent) (known : c.closure = some data) (same : data.number = number) :
    p.Grown flat ((p.replace flat after).push c) := by
  obtain ⟨-, rfl, rfl⟩ := Scope.mintClosureNumber?_eq_some_iff.1 minted
  have old : ∀ id s, p.scope? id = some s →
      ((p.replace flat { outer with closures := outer.closures + 1 }).push c).scope? id = some
        (if id = flat then { s with closures := s.closures + 1 } else s) := by
    intro id s found
    have inside := lt_size_of_scope? found
    rw [scope?_push_of_ne, scope?_replace]
    · split
      · rename_i here
        cases host.symm.trans (here ▸ found)
        rw [host]
        rfl
      · exact found
    · intro last
      rw [last, nextId_index, size_replace] at inside
      exact Nat.lt_irrefl _ inside
  have counted : p.Outlines (p.replace flat { outer with closures := outer.closures + 1 }) :=
    outlines_replace host rfl rfl
  have outlines := counted.trans (outlines_push _ c)
  refine ⟨rfl, ?_, ?_, ?_⟩
  · rw [size_push, size_replace]
    exact Nat.le_succ _
  · intro id s found
    rw [old id s found, size_push, size_replace, Nat.add_sub_cancel_left]
  · intro id s beyond found
    have there := found
    obtain ⟨rfl, rfl⟩ | old := scope?_push_cases found
    rotate_left
    · have inside := lt_size_of_scope? old
      rw [size_replace] at inside
      exact absurd inside (Nat.not_lt.2 beyond)
    rw [nextId_replace] at there ⊢
    refine ⟨?_, outer, data, host, known, ?_⟩
    · rw [nearestFlat_of_closure there closed lies (inside_of_nearestFlat nearest)]
      exact outlines.nearestFlat nearest
    · rw [same, nextId_index, Nat.sub_self, Nat.add_zero]

/-- A new scope may be filled in, as long as its kind, its parent and its number stay. -/
theorem rewrite (grown : p.Grown flat q) (beyond : p.scopes.size ≤ id.index)
    (found : q.scope? id = some s) (kind : c.kind = s.kind) (parent : c.parent = s.parent)
    (number : c.closure.map (·.number) = s.closure.map (·.number)) :
    p.Grown flat (q.replace id c) := by
  have outlines := outlines_replace found kind parent
  refine ⟨grown.options, ?_, ?_, ?_⟩
  · rw [size_replace]
    exact grown.size_le
  · intro other u there
    have before : other ≠ id := by
      rintro rfl
      exact absurd (lt_size_of_scope? there) (Nat.not_lt.2 beyond)
    rw [scope?_replace, if_neg before, size_replace]
    exact grown.old other u there
  · intro other u later there
    obtain ⟨rfl, rfl⟩ | kept := scope?_replace_cases there
    · obtain ⟨nearest, outer, data, host, closed, counted⟩ := grown.new other s later found
      refine ⟨outlines.nearestFlat nearest, outer, ?_⟩
      rw [closed] at number
      obtain ⟨data', closed', same⟩ := Option.map_eq_some_iff.1 number
      exact ⟨data', host, closed', same.trans counted⟩
    · obtain ⟨nearest, rest⟩ := grown.new other u later kept
      exact ⟨outlines.nearestFlat nearest, rest⟩

end Grown

end Program

end ClosureIR
