import ClosureIR.Proofs.Lexical.Block

/-!
# Lexical chains

The chain of a scope leads from it to its method or script, over all the
closures between them.  Every walk stays on it, and the depth that a new closure
records counts the scopes on it, loop bodies apart.
-/

namespace ClosureIR

theorem Scope.ne_forLoopBody_of_flat {s : Scope} (outer : s.isClosure = false) :
    s.kind ≠ .forLoopBody := by
  intro loop
  rw [Scope.isClosure, loop] at outer
  cases outer

namespace Program

/-- The scopes from `id` up to its method or script, from inside out. -/
inductive Chain (p : Program) : ScopeId → List ScopeId → Prop where
  | flat {id : ScopeId} {s : Scope} (found : p.scope? id = some s) (outer : s.isClosure = false) :
      Chain p id [id]
  | closure {id parent : ScopeId} {s : Scope} {above : List ScopeId} (found : p.scope? id = some s)
      (closed : s.isClosure = true) (lies : s.parent = some parent) (rest : Chain p parent above) :
      Chain p id (id :: above)

def counts (p : Program) (id : ScopeId) : Bool := (p.scope? id).any (!·.isForLoopBody)

variable {p q : Program} {id flat x : ScopeId} {s : Scope} {depth : Nat} {chain chain' : List ScopeId}

theorem counts_of_scope? (found : p.scope? id = some s) : p.counts id = !s.isForLoopBody := by
  rw [counts, found, Option.any_some]

theorem counts_of_flat (found : p.scope? id = some s) (outer : s.isClosure = false) :
    p.counts id = true := by
  rw [counts_of_scope? found, Bool.not_eq_true', Scope.isForLoopBody, decide_eq_false_iff_not]
  exact Scope.ne_forLoopBody_of_flat outer

namespace Chain

theorem unique (first : p.Chain id chain) (second : p.Chain id chain') : chain = chain' := by
  induction first generalizing chain' with
  | flat found outer =>
    cases second with
    | flat => rfl
    | closure found' closed =>
      cases found.symm.trans found'
      cases outer.symm.trans closed
  | closure found closed lies rest ih =>
    cases second with
    | flat found' outer =>
      cases found.symm.trans found'
      cases closed.symm.trans outer
    | closure found' closed' lies' rest' =>
      cases found.symm.trans found'
      cases lies.symm.trans lies'
      rw [ih rest']

/-- A chain begins where it is said to begin. -/
theorem exists_cons (chained : p.Chain id chain) : ∃ above, chain = id :: above := by
  cases chained with
  | flat => exact ⟨[], rfl⟩
  | closure => exact ⟨_, rfl⟩

theorem self_mem (chained : p.Chain id chain) : id ∈ chain := by
  obtain ⟨above, rfl⟩ := chained.exists_cons
  exact List.mem_cons_self

/-- Every scope on a chain has the rest of it for its chain. -/
theorem of_mem (chained : p.Chain id chain) (member : x ∈ chain) :
    ∃ above, p.Chain x above ∧ above <:+ chain := by
  induction chained with
  | flat found outer =>
    cases List.mem_singleton.1 member
    exact ⟨_, .flat found outer, List.suffix_refl _⟩
  | closure found closed lies rest ih =>
    rcases List.mem_cons.1 member with rfl | later
    · exact ⟨_, .closure found closed lies rest, List.suffix_refl _⟩
    · obtain ⟨above, chained, part⟩ := ih later
      exact ⟨above, chained, part.trans (List.suffix_cons _ _)⟩

/-- What lies on the chain of a scope of the chain lies on the chain itself. -/
theorem mem_of_mem (chained : p.Chain id chain) (member : x ∈ chain) (chained' : p.Chain x chain')
    {y : ScopeId} (member' : y ∈ chain') : y ∈ chain := by
  obtain ⟨above, rest, part⟩ := chained.of_mem member
  cases rest.unique chained'
  exact part.subset member'

end Chain

/-- On the way up to the method or script, all of its scopes are passed. -/
theorem exists_chain_of_nearestFlat (nearest : p.nearestFlat id = .ok flat) :
    ∃ chain, p.Chain id chain ∧ chain.getLast? = some flat := by
  induction h : id.index using Nat.strongRecOn generalizing id with
  | ind n ih =>
    obtain ⟨s, found, ⟨outer, rfl⟩ | ⟨closed, parent, lies, older, rest⟩⟩ := nearestFlat_cases nearest
    · exact ⟨[_], .flat found outer, rfl⟩
    · obtain ⟨above, chained, last⟩ := ih parent.index (h ▸ older) rest rfl
      refine ⟨id :: above, .closure found closed lies chained, ?_⟩
      obtain ⟨others, rfl⟩ := chained.exists_cons
      exact last

namespace WellFormed

variable (formed : p.WellFormed)

include formed

theorem exists_chain (found : p.scope? id = some s) : ∃ chain, p.Chain id chain := by
  obtain ⟨flat, nearest⟩ := formed.exists_nearestFlat (lt_size_of_scope? found)
  obtain ⟨chain, chained, -⟩ := exists_chain_of_nearestFlat nearest
  exact ⟨chain, chained⟩

/-- The depth under a scope counts its chain, loop bodies apart. -/
theorem depthUnder_eq (chained : p.Chain id chain) :
    p.depthUnder id = .ok (chain.countP p.counts) := by
  induction chained with
  | flat found outer => simp [depthUnder_of_flat found outer, counts_of_flat found outer]
  | closure found closed lies rest ih =>
    rw [depthUnder_of_closure found closed lies ((formed _ _ found).older lies) ih, List.countP_cons,
      counts_of_scope? found]
    cases loop : Scope.isForLoopBody _ <;> simp

end WellFormed

/-! ## Walks stay on the chain -/

/-- A walk is the lower end of the chain, or all of it. -/
theorem Walks.prefix_chain {walk : List ScopeId} (walks : p.Walks id depth walk)
    (chained : p.Chain id chain) : walk <+: chain := by
  induction walks generalizing chain with
  | stop found ends =>
    obtain ⟨above, rfl⟩ := chained.exists_cons
    exact ⟨above, rfl⟩
  | climb found climbs lies rest ih =>
    cases chained with
    | flat found' outer =>
      cases found.symm.trans found'
      cases (ScopeKind.isClosure_of_climb? climbs).symm.trans outer
    | closure found' closed lies' rest' =>
      cases found.symm.trans found'
      cases lies.symm.trans lies'
      exact (List.prefix_cons_inj _).2 (ih rest')

/-- A local is declared on the chain. -/
theorem WellFormed.exists_chain_declarationSite (formed : p.WellFormed) {site : ScopeId}
    {kind : LocalKind} (site_eq : p.declarationSite id depth = .ok (site, kind)) :
    ∃ chain, p.Chain id chain ∧ site ∈ chain := by
  cases found : p.scope? id with
  | none =>
    rw [declarationSite, scope_eq_error_iff.2 ⟨found, rfl⟩] at site_eq
    cases site_eq
  | some s =>
    obtain ⟨chain, chained⟩ := formed.exists_chain found
    obtain ⟨walk, walks⟩ := formed.exists_walks found depth
    obtain ⟨site', t, kind', last, there, declares⟩ := walks.exists_site
    cases (formed.declarationSite_eq walks last there declares).symm.trans site_eq
    exact ⟨chain, chained, (walks.prefix_chain chained).subset (List.mem_of_getLast? last)⟩

/-- Past the loop bodies a look-up is still on the chain. -/
theorem Chain.lookupSite_mem (chained : p.Chain id chain) (formed : p.WellFormed) {site : ScopeId}
    (site_eq : p.lookupSite id = .ok site) : site ∈ chain := by
  have here {id : ScopeId} {s : Scope} {above : List ScopeId} (found : p.scope? id = some s)
      (site_eq : p.lookupSite id = .ok site) (other : s.kind ≠ .forLoopBody) :
      site ∈ id :: above := by
    cases live : s.isInlined with
    | true => cases (lookupSite_of_inlined found live).symm.trans site_eq
    | false =>
      cases (lookupSite_of_host found live other).symm.trans site_eq
      exact List.mem_cons_self
  induction chained with
  | flat found outer => exact here found site_eq (Scope.ne_forLoopBody_of_flat outer)
  | @closure id parent s above found closed lies rest ih =>
    by_cases loop : s.kind = .forLoopBody
    · cases live : s.isInlined with
      | true => cases (lookupSite_of_inlined found live).symm.trans site_eq
      | false =>
        rw [lookupSite_of_loop found live loop lies ((formed _ _ found).older lies)] at site_eq
        exact List.mem_cons_of_mem _ (ih site_eq)
    · exact here found site_eq loop

theorem WellFormed.exists_chain_lookupSite (formed : p.WellFormed) {site : ScopeId}
    (site_eq : p.lookupSite id = .ok site) : ∃ chain, p.Chain id chain ∧ site ∈ chain := by
  cases found : p.scope? id with
  | none =>
    rw [lookupSite, liveScope_of_missing found] at site_eq
    cases site_eq
  | some s =>
    obtain ⟨chain, chained⟩ := formed.exists_chain found
    exact ⟨chain, chained, chained.lookupSite_mem formed site_eq⟩

end Program

end ClosureIR
