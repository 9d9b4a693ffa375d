import ClosureIR.Proofs.Lexical.Chain
import ClosureIR.Proofs.Lexical.Views

/-!
# Distances

A view is tagged with the depth that was asked for.  This is the distance of the
scope that declared the local just when no scope on the way has the name; else
the nearest of them answers, and the tag is too large.
-/

namespace ClosureIR

open BuildM

namespace Program

variable {p q : Program} {id site : ScopeId} {s : Scope} {name : String} {depth : Nat}
  {walk chain : List ScopeId} {u : LocalVar}

/-! ## How far a walk gets -/

/-- The scope at which a walk ends has not been on it before. -/
theorem WellFormed.notMem_dropLast (formed : p.WellFormed) (walks : p.Walks id depth walk)
    (last : walk.getLast? = some site) : site ∉ walk.dropLast := by
  induction walks with
  | stop => exact List.not_mem_nil
  | @climb id parent s depth left above found climbs lies rest ih =>
    obtain ⟨others, rfl⟩ := rest.exists_cons
    have inside : site ∈ parent :: others := List.mem_of_getLast? last
    rw [List.dropLast_cons_of_ne_nil (List.cons_ne_nil _ _), List.mem_cons]
    rintro (rfl | later)
    · have older := (formed _ _ found).older lies
      exact absurd (formed.index_le_of_mem rest inside) (Nat.not_le.2 older)
    · exact ih last later

/-- A walk passes as many scopes as it has depth, loop bodies apart, unless its chain has fewer. -/
theorem Walks.countP_dropLast (walks : p.Walks id depth walk) (chained : p.Chain id chain) :
    walk.dropLast.countP p.counts = min depth (chain.dropLast.countP p.counts) := by
  induction walks generalizing chain with
  | @stop id s depth found ends =>
    cases chained with
    | flat => simp
    | closure found' closed =>
      cases found.symm.trans found'
      simp [ScopeKind.eq_zero_of_climb? closed ends]
  | @climb id parent s depth left above found climbs lies rest ih =>
    cases chained with
    | flat found' outer =>
      cases found.symm.trans found'
      cases (ScopeKind.isClosure_of_climb? climbs).symm.trans outer
    | closure found' closed lies' chained =>
      cases found.symm.trans found'
      cases lies.symm.trans lies'
      have more := ih chained
      obtain ⟨_, rfl⟩ := rest.exists_cons
      obtain ⟨_, rfl⟩ := chained.exists_cons
      rw [List.dropLast_cons_of_ne_nil (List.cons_ne_nil _ _),
        List.dropLast_cons_of_ne_nil (List.cons_ne_nil _ _), List.countP_cons, List.countP_cons, more,
        counts_of_scope? found, Scope.isForLoopBody, ScopeKind.depth_of_climb? climbs]
      by_cases loop : s.kind = .forLoopBody
      · simp [loop]
      · simp [loop, Nat.add_min_add_right]

/-! ## The nearest binding -/

/-- The answer belongs to a scope on the walk, and no scope before it has the name. -/
theorem Answers.exists_nearest (answers : p.Answers walk site name u q) (reachable : p.Reachable)
    (last : walk.getLast? = some site) :
    ∃ below above, walk = below ++ u.owner :: above ∧ ∀ x ∈ below, p.binding? name x = none := by
  obtain ⟨bound, -⟩ | ⟨unbound, t, kind, -, -, rfl, -⟩ := answers
  · obtain ⟨below, x, above, rfl, here, near⟩ := List.findSome?_eq_some_iff.1 bound
    rw [(reachable.of_binding? here).2.2]
    exact ⟨below, above, rfl, near⟩
  · obtain ⟨below, rfl⟩ := List.getLast?_eq_some_iff.1 last
    refine ⟨below, [], rfl, fun x member => ?_⟩
    exact List.findSome?_eq_none_iff.1 unbound x (List.mem_append_left _ member)

/-- The scope at which the walk ends answers just when no other scope on the walk has the name. -/
theorem Answers.owner_eq_iff (answers : p.Answers walk site name u q) (reachable : p.Reachable)
    (walks : p.Walks id depth walk) (last : walk.getLast? = some site) :
    u.owner = site ↔ ∀ x ∈ walk.dropLast, p.binding? name x = none := by
  constructor
  · intro here
    obtain ⟨below, above, rfl, near⟩ := answers.exists_nearest reachable last
    have apart := reachable.wellFormed.notMem_dropLast walks last
    -- The scope is on the walk once, so nothing comes after it.
    cases above with
    | nil => rwa [List.dropLast_concat]
    | cons => simp [List.dropLast_append_of_ne_nil, here] at apart
  · intro near
    obtain ⟨bound, -⟩ | ⟨-, t, kind, -, -, rfl, -⟩ := answers
    · rw [findSome?_binding?_eq last near] at bound
      exact (reachable.of_binding? bound).2.2
    · rfl

/--
A closure or evaluated code that asks for a name some number of scopes up gets a
view that is tagged with this number.  The view is of the first binding on a walk
that passes as many scopes, loop bodies apart.  So the tag is the distance of the
scope that declared the local just when no scope on the way has the name.
-/
theorem getLocal_distance (reachable : p.Reachable) (found : p.scope? id = some s)
    (kind : s.kind = .closure ∨ s.kind = .evalUnit) (live : s.isInlined = false)
    (chained : p.Chain id chain) (inside : depth ≤ chain.dropLast.countP p.counts) (name : String) :
    ∃ walk site, p.Walks id depth walk ∧ walk <+: chain ∧ walk.getLast? = some site ∧
      walk.dropLast.countP p.counts = depth ∧
      (getLocal id name depth).Yields p
        (fun v _ => v.depth = depth ∧
          (∃ below above, walk = below ++ v.owner :: above ∧
            ∀ x ∈ below, p.binding? name x = none) ∧
          (v.owner = site ↔ ∀ x ∈ walk.dropLast, p.binding? name x = none))
        fun fault _ => walk.findSome? (p.binding? name) = none ∧ p.FullAt site ∧
          fault = .misused .wordOverflow := by
  obtain ⟨walk, walks⟩ := reachable.wellFormed.exists_walks found depth
  obtain ⟨site, -, -, last, -, -⟩ := walks.exists_site
  have closed : s.isClosure = true := by
    rw [Scope.isClosure]
    rcases kind with kind | kind <;> rw [kind] <;> rfl
  have other : s.kind ≠ .forLoopBody := by
    rcases kind with kind | kind <;> rw [kind] <;> decide
  refine ⟨walk, site, walks, walks.prefix_chain chained, last, ?_, ?_⟩
  · rw [walks.countP_dropLast chained, Nat.min_eq_left inside]
  · refine (yields_getLocal_of_lookupSite reachable walks last (lookupSite_of_host found live other)
      found name).mono ?_ fun _ _ full => full
    rintro v q ⟨⟨u, answers, rfl⟩, -⟩
    rw [if_pos closed]
    exact ⟨rfl, answers.exists_nearest reachable last, answers.owner_eq_iff reachable walks last⟩

/-- From two closures in each other the method is two scopes up. -/
theorem getLocal_distance_closureInClosure : ∃ v q,
    (getLocal ⟨3⟩ "x" 2).runOn closureInClosure = (.ok v, q) ∧ v.depth = 2 ∧ v.owner = ⟨1⟩ := by
  obtain ⟨⟨m, method, kind⟩, ⟨s, outer, kind₂, lies₂, -⟩, t, inner, kind₃, lies₃, live⟩ :=
    outline_closureInClosure
  have chained : closureInClosure.Chain ⟨3⟩ [⟨3⟩, ⟨2⟩, ⟨1⟩] :=
    .closure inner (by rw [Scope.isClosure, kind₃]; rfl) lies₃
      (.closure outer (by rw [Scope.isClosure, kind₂]; rfl) lies₂
        (.flat method (by rw [Scope.isClosure, kind]; rfl)))
  have inside : 2 ≤ [(⟨3⟩ : ScopeId), ⟨2⟩, ⟨1⟩].dropLast.countP closureInClosure.counts := by
    decide +kernel
  obtain ⟨walk, site, walks, -, last, -, answer⟩ :=
    getLocal_distance reachable_closureInClosure inner (.inl kind₃) live chained inside "x"
  obtain ⟨_, walks', last', -⟩ := sees_closureInClosure "x" (⟨3⟩, 2) List.mem_cons_self
  cases walks.unique walks'
  cases last.symm.trans last'
  have run : (getLocal ⟨3⟩ "x" 2).runOn closureInClosure =
      (.ok ⟨"x", 2, 0, ⟨1⟩, .plain⟩, closureInClosure.after (getLocal ⟨3⟩ "x" 2)) :=
    Prod.ext (by decide +kernel) rfl
  obtain ⟨depth, -, far⟩ := answer.of_ok run
  exact ⟨_, _, run, depth, far.2 fun x _ => binding?_closureInClosure "x" x⟩

/-- A closure that has a local of the name gets it, however far up it asks. -/
theorem not_forall_getLocal_distance :
    ¬ ∀ (p q : Program) (id site : ScopeId) (s : Scope) (name : String) (depth : Nat)
      (chain walk : List ScopeId) (v : LocalVar), p.Reachable → p.scope? id = some s →
      (s.kind = .closure ∨ s.kind = .evalUnit) → s.isInlined = false → p.Chain id chain →
      depth ≤ chain.dropLast.countP p.counts → p.Walks id depth walk → walk.getLast? = some site →
      (getLocal id name depth).runOn p = (.ok v, q) → v.depth = depth ∧ v.owner = site := by
  intro always
  have shape : (loopInClosure.scope? ⟨0⟩).any (fun s => decide (s.kind = .script)) = true ∧
      (loopInClosure.scope? ⟨1⟩).any (fun s =>
        decide (s.kind = .closure ∧ s.parent = some ⟨0⟩ ∧ s.isInlined = false)) = true := by
    decide +kernel
  simp only [Option.any_eq_true, decide_eq_true_eq] at shape
  obtain ⟨⟨t, script, kind⟩, s, found, kind₁, lies, live⟩ := shape
  have chained : loopInClosure.Chain ⟨1⟩ [⟨1⟩, ⟨0⟩] :=
    .closure found (by rw [Scope.isClosure, kind₁]; rfl) lies
      (.flat script (by rw [Scope.isClosure, kind]; rfl))
  have walks : loopInClosure.Walks ⟨1⟩ 1 [⟨1⟩, ⟨0⟩] :=
    .climb found (by rw [kind₁]; rfl) lies (.stop script (by rw [kind]; rfl))
  have run : (getLocal ⟨1⟩ "x" 1).runOn loopInClosure =
      (.ok ⟨"x", 1, 0, ⟨1⟩, .closure⟩, loopInClosure.after (getLocal ⟨1⟩ "x" 1)) :=
    Prod.ext (by decide +kernel) rfl
  have far := always _ _ _ _ s "x" 1 _ _ _ reachable_loopInClosure found (.inl kind₁) live chained
    (by decide +kernel) walks rfl run
  exact absurd far.2 (by decide)

end Program

end ClosureIR
