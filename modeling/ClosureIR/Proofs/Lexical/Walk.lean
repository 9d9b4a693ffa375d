import ClosureIR.Proofs.Arena

/-!
# The walk of a look-up

From every scope of a well-formed program exactly one walk leads up the parents
until the depth is used up.  A name is looked up along this walk, and declared
in its last scope.
-/

namespace ClosureIR

namespace Program

/-- The walk from a scope with some units of depth left goes over the listed scopes, from inside out. -/
inductive Walks (p : Program) : ScopeId → Nat → List ScopeId → Prop where
  | stop {id : ScopeId} {s : Scope} {depth : Nat} (found : p.scope? id = some s)
      (ends : s.kind.climb? depth = none) : Walks p id depth [id]
  | climb {id parent : ScopeId} {s : Scope} {depth left : Nat} {above : List ScopeId}
      (found : p.scope? id = some s) (climbs : s.kind.climb? depth = some left)
      (lies : s.parent = some parent) (rest : Walks p parent left above) :
      Walks p id depth (id :: above)

def binding? (p : Program) (name : String) (id : ScopeId) : Option LocalVar :=
  (p.scope? id).bind (·.locals.get? name)

variable {p q : Program} {id : ScopeId} {s : Scope} {depth : Nat} {walk walk' : List ScopeId}

theorem binding?_of_scope? (found : p.scope? id = some s) (name : String) :
    p.binding? name id = s.locals.get? name := by
  rw [binding?, found]
  rfl

namespace Walks

theorem unique (first : p.Walks id depth walk) (second : p.Walks id depth walk') : walk = walk' := by
  induction first generalizing walk' with
  | stop found ends =>
    cases second with
    | stop => rfl
    | climb found' climbs =>
      cases found.symm.trans found'
      cases ends.symm.trans climbs
  | climb found climbs lies rest ih =>
    cases second with
    | stop found' ends =>
      cases found.symm.trans found'
      cases climbs.symm.trans ends
    | climb found' climbs' lies' rest' =>
      cases found.symm.trans found'
      cases climbs.symm.trans climbs'
      cases lies.symm.trans lies'
      rw [ih rest']

/-- A walk begins where it is said to begin. -/
theorem exists_cons (walks : p.Walks id depth walk) : ∃ above, walk = id :: above := by
  cases walks with
  | stop => exact ⟨[], rfl⟩
  | climb => exact ⟨_, rfl⟩

/-- A walk only passes scopes of the arena. -/
theorem exists_scope_of_mem (walks : p.Walks id depth walk) {x : ScopeId} (member : x ∈ walk) :
    ∃ t, p.scope? x = some t := by
  induction walks with
  | stop found ends =>
    cases List.mem_singleton.1 member
    exact ⟨_, found⟩
  | climb found climbs lies rest ih =>
    rcases List.mem_cons.1 member with rfl | later
    · exact ⟨_, found⟩
    · exact ih later

/-- A walk ends in a scope that may declare locals. -/
theorem exists_site (walks : p.Walks id depth walk) :
    ∃ site t kind, walk.getLast? = some site ∧ p.scope? site = some t ∧
      t.kind.declares? = some kind := by
  induction walks with
  | @stop id s depth found ends =>
    obtain ⟨kind, declares⟩ := ScopeKind.exists_declares? ends
    exact ⟨id, s, kind, rfl, found, declares⟩
  | climb found climbs lies rest ih =>
    obtain ⟨site, t, kind, last, there, declares⟩ := ih
    obtain ⟨above, rfl⟩ := rest.exists_cons
    exact ⟨site, t, kind, last, there, declares⟩

/-- Walks depend on kinds and parents alone. -/
theorem outlined (walks : p.Walks id depth walk) (outlines : p.Outlines q) :
    q.Walks id depth walk := by
  induction walks with
  | stop found ends =>
    obtain ⟨t, there, kind, -⟩ := outlines _ _ found
    exact .stop there (kind ▸ ends)
  | climb found climbs lies rest ih =>
    obtain ⟨t, there, kind, parent⟩ := outlines _ _ found
    exact .climb there (kind ▸ climbs) (parent.trans lies) ih

end Walks

namespace WellFormed

variable (formed : p.WellFormed)

include formed

theorem exists_walks (found : p.scope? id = some s) (depth : Nat) :
    ∃ walk, p.Walks id depth walk := by
  induction h : id.index using Nat.strongRecOn generalizing id s depth with
  | ind n ih =>
    cases climbs : s.kind.climb? depth with
    | none => exact ⟨[id], .stop found climbs⟩
    | some left =>
      obtain ⟨parent, lies, older⟩ :=
        (formed id s found).exists_parent (ScopeKind.isClosure_of_climb? climbs)
      obtain ⟨t, there⟩ := exists_scope? (Nat.lt_trans older (lt_size_of_scope? found))
      obtain ⟨above, rest⟩ := ih parent.index (h ▸ older) there left rfl
      exact ⟨id :: above, .climb found climbs lies rest⟩

/-- A walk only passes scopes that were made no later than its first one. -/
theorem index_le_of_mem (walks : p.Walks id depth walk) {x : ScopeId} (member : x ∈ walk) :
    x.index ≤ id.index := by
  induction walks with
  | stop found ends =>
    cases List.mem_singleton.1 member
    exact Nat.le_refl _
  | climb found climbs lies rest ih =>
    rcases List.mem_cons.1 member with rfl | later
    · exact Nat.le_refl _
    · exact Nat.le_trans (ih later) (Nat.le_of_lt ((formed _ _ found).older lies))

/-- A look-up gives the first binding on its walk. -/
theorem findLocal_eq (walks : p.Walks id depth walk) (name : String) :
    p.findLocal id name depth = .ok (walk.findSome? (p.binding? name)) := by
  induction walks with
  | @stop id s depth found ends =>
    rw [List.findSome?_singleton, binding?_of_scope? found]
    cases bound : s.locals.get? name with
    | some v => rw [findLocal_of_bound found bound]
    | none => rw [findLocal_of_end found bound ends]
  | @climb id parent s depth left above found climbs lies rest ih =>
    rw [List.findSome?_cons, binding?_of_scope? found]
    cases bound : s.locals.get? name with
    | some v => rw [findLocal_of_bound found bound]
    | none => rw [findLocal_of_climb found bound climbs lies ((formed _ _ found).older lies), ih]

/-- A local is declared where its walk ends. -/
theorem declarationSite_eq (walks : p.Walks id depth walk) {site : ScopeId} {t : Scope}
    {kind : LocalKind} (last : walk.getLast? = some site) (there : p.scope? site = some t)
    (declares : t.kind.declares? = some kind) : p.declarationSite id depth = .ok (site, kind) := by
  induction walks with
  | stop found ends =>
    cases last
    exact declarationSite_of_end found ends (Option.some.inj (found.symm.trans there) ▸ declares)
  | climb found climbs lies rest ih =>
    obtain ⟨above, rfl⟩ := rest.exists_cons
    rw [declarationSite_of_climb found climbs lies ((formed _ _ found).older lies)]
    exact ih last

end WellFormed

end Program

end ClosureIR
