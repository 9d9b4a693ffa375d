import ClosureIR.Proofs.Lexical.Block

/-!
# The block where no method is around

Under a script a closure that asks for the block declares a local in its place.
It gets this local at depth 0 and, whenever it asks again, at the depth that it
has recorded, which is never 0.
-/

namespace ClosureIR

open BuildM

/-! ## Deeper walks -/

/-- With more depth a walk goes on wherever it went on with less. -/
theorem ScopeKind.exists_climb?_of_le {kind : ScopeKind} {depth deeper left : Nat}
    (climbs : kind.climb? depth = some left) (more : depth ≤ deeper) :
    ∃ left', kind.climb? deeper = some left' ∧ left ≤ left' := by
  cases kind <;> cases depth <;> cases deeper <;> simp_all [climb?]

namespace Program

variable {p q : Program} {id flat site : ScopeId} {s t : Scope} {data : ClosureData}
  {depth deeper : Nat} {walk near : List ScopeId} {u v : LocalVar}

/-- A walk with more depth begins with the walk with less. -/
theorem Walks.prefix_of_le (walks : p.Walks id depth near) (more : depth ≤ deeper)
    (further : p.Walks id deeper walk) : near <+: walk := by
  induction walks generalizing deeper walk with
  | stop found ends =>
    obtain ⟨above, rfl⟩ := further.exists_cons
    exact ⟨above, rfl⟩
  | climb found climbs lies rest ih =>
    obtain ⟨left', climbs', more'⟩ := ScopeKind.exists_climb?_of_le climbs more
    cases further with
    | stop found' ends =>
      cases found.symm.trans found'
      cases climbs'.symm.trans ends
    | climb found' climbs'' lies' rest' =>
      cases found.symm.trans found'
      cases climbs'.symm.trans climbs''
      cases lies.symm.trans lies'
      exact (List.prefix_cons_inj _).2 (ih more' rest')

end Program

/-! ## Recorded depths are positive -/

namespace Scope

/-- What the scope has recorded as its depth, if it is a closure, is not 0. -/
def Deep (s : Scope) : Prop := ∀ data, s.closure = some data → 1 ≤ data.nestingDepth

theorem Deep.of_nestingDepth {s c : Scope} (deep : s.Deep)
    (same : c.closure.map (·.nestingDepth) = s.closure.map (·.nestingDepth)) : c.Deep := by
  intro data' closed'
  rw [closed', Option.map_some, eq_comm, Option.map_eq_some_iff] at same
  obtain ⟨data, closed, same⟩ := same
  exact same ▸ deep data closed

theorem Deep.edit {id : ScopeId} {s after : Scope} {deed : Deed} (deep : s.Deep)
    (edited : s.Edit id deed after) : after.Deep :=
  deep.of_nestingDepth <|
    closure_map_eq_of_core (f := (·.nestingDepth)) (fun _ => rfl) edited.core_eq

end Scope

namespace Program

variable {p q : Program} {id flat site : ScopeId} {s t : Scope} {data : ClosureData}
  {walk near : List ScopeId} {u v : LocalVar}

theorem Everywhere.deep_change {may : ScopeId → Deed → Prop}
    (holds : p.Everywhere fun _ _ s => s.Deep) (change : p.Change may q) :
    q.Everywhere fun _ _ s => s.Deep := by
  -- The number of a new closure is minted in the method or script that hosts it.
  have numbered {flat : ScopeId} {outer after : Scope} {number : Nat}
      (host : p.scope? flat = some outer)
      (minted : outer.mintClosureNumber? = some (number, after)) :
      (p.replace flat after).Everywhere fun _ _ s => s.Deep := by
    have edited : outer.Edit flat .number after := .number minted
    exact holds.replace ((holds _ _ host).edit edited)
  cases change with
  | edit found edited => exact holds.replace ((holds _ _ found).edit edited)
  | script fileName => exact holds.push fun _ never => (by cases never)
  | method found name line static => exact holds.push fun _ never => (by cases never)
  | block found nearest host minted deep forLoop line static signature =>
    refine (numbered host minted).push ?_
    rintro data ⟨⟩
    exact depthUnder_pos deep
  | evalUnit nearest host minted deep fileName line static stem =>
    refine (numbered host minted).push ?_
    rintro data ⟨⟩
    exact depthUnder_pos deep

/-- A new closure has recorded at least its method or script, and a clone what its source has. -/
theorem Reachable.deep (reachable : p.Reachable) (found : p.scope? id = some s) : s.Deep := by
  have start (options : Options) :
      Everywhere (fun _ _ s => s.Deep) ({ options } : Program) := by
    intro id s found
    simp [scope?] at found
  refine (reachable.invariant start (fun _ _ _ holds change => holds.deep_change change)
    fun p q flat hosts holds cloning => ?_).2 id s found
  refine holds.inherited (fun _ _ _ deep => deep) (fun parent number deep _ closed => ?_)
    (fun deep _ cloned => ?_) hosts cloning
  · exact deep.of_nestingDepth (by rw [closed]; rfl)
  · obtain ⟨g, g', d, d', -, closed, closed', same⟩ := cloned.body
    exact deep.of_nestingDepth (by rw [closed, closed', Option.map_some, same.nestingDepth]; rfl)

/-! ## Asking under a script -/

theorem runOn_implicitBlock_of_found (found : p.scope? id = some s) (closed : s.closure = some data)
    (bound : p.findLocal id blockName data.nestingDepth = .ok (some u)) :
    (implicitBlock id).runOn p = (.ok (u.atDepth data.nestingDepth), p) := by
  simp [implicitBlock, requireClosure, runOn_bind, scope_eq_ok_iff.2 found, closed, bound,
    Except.mapError]

/-- Under a script a closure takes the first binding on its walk, or has the block declared for it. -/
theorem yields_implicitBlock_script (formed : p.WellFormed) (found : p.scope? id = some s)
    (closed : s.closure = some data) (nearest : p.nearestFlat id = .ok flat)
    (there : p.scope? flat = some t) (script : t.kind = .script)
    (walks : p.Walks id data.nestingDepth walk) (inner : p.Walks id 0 near)
    (last : near.getLast? = some site) :
    (implicitBlock id).Yields p
      (fun v q => (∃ u, walk.findSome? (p.binding? blockName) = some u ∧
          v = u.atDepth data.nestingDepth ∧ q = p) ∨
        (walk.findSome? (p.binding? blockName) = none ∧ p.DeclaresAt site blockName v q))
      fun fault q => walk.findSome? (p.binding? blockName) = none ∧
        ((s.isInlined = true ∧ fault = .misused (.inlined s.name) ∧ q = p) ∨
          (p.FullAt site ∧ fault = .misused .wordOverflow)) := by
  refine yields_implicitBlock_of_walks formed found closed walks nearest there
    (fun u bound => .inl ⟨u, bound, rfl, rfl⟩) fun unbound => ?_
  rw [if_neg (by rw [script]; decide)]
  refine (yields_newLocal formed found inner last blockName).mono ?_ ?_
  · exact fun v q declares => .inr ⟨unbound, declares⟩
  · exact fun fault q refused => ⟨unbound, refused⟩

/--
Where a closure under a script looks for the block it looks further up than where
it declares it.  So it finds what it has declared, but at another depth: asking
again gives the same local, and the same view of it just when it was found at first.
-/
theorem implicitBlock_again (reachable : p.Reachable) (found : p.scope? id = some s)
    (isClosure : s.isClosure = true) (nearest : p.nearestFlat id = .ok flat)
    (there : p.scope? flat = some t) (script : t.kind = .script) :
    ∃ data walk near site, s.closure = some data ∧ p.Walks id data.nestingDepth walk ∧
      p.Walks id 0 near ∧ near <+: walk ∧ near.getLast? = some site ∧
      (implicitBlock id).Yields p
        (fun v q =>
          (∃ u, walk.findSome? (p.binding? blockName) = some u ∧ v = u.atDepth data.nestingDepth ∧
            q = p ∧ (implicitBlock id).runOn q = (.ok v, q)) ∨
          (walk.findSome? (p.binding? blockName) = none ∧ p.DeclaresAt site blockName v q ∧
            (implicitBlock id).runOn q = (.ok (v.atDepth data.nestingDepth), q) ∧
            v.atDepth data.nestingDepth ≠ v))
        fun fault q => walk.findSome? (p.binding? blockName) = none ∧
          ((s.isInlined = true ∧ fault = .misused (.inlined s.name) ∧ q = p) ∨
            (p.FullAt site ∧ fault = .misused .wordOverflow)) := by
  have formed := reachable.wellFormed
  obtain ⟨data, closed⟩ := (formed id s found).exists_closure isClosure
  obtain ⟨walk, walks⟩ := formed.exists_walks found data.nestingDepth
  obtain ⟨near, inner⟩ := formed.exists_walks found 0
  obtain ⟨site, -, -, last, -, -⟩ := inner.exists_site
  have inside := inner.prefix_of_le (Nat.zero_le _) walks
  refine ⟨data, walk, near, site, closed, walks, inner, inside, last, ?_⟩
  refine (yields_implicitBlock_script formed found closed nearest there script walks inner last).mono
    ?_ fun _ _ refused => refused
  rintro v q (⟨u, bound, rfl, rfl⟩ | ⟨unbound, declares⟩)
  · have again := formed.findLocal_eq walks blockName
    rw [bound] at again
    exact .inl ⟨u, bound, rfl, rfl, runOn_implicitBlock_of_found found closed again⟩
  · have member : site ∈ walk := inside.subset (List.mem_of_getLast? last)
    have again := declares.findLocal_eq formed walks member unbound
    obtain ⟨table, kept⟩ := declares.exists_table found
    refine .inr ⟨unbound, declares, runOn_implicitBlock_of_found kept closed again, ?_⟩
    obtain ⟨-, -, -, -, rfl, -⟩ := declares
    have deep := reachable.deep found data closed
    intro same
    have zero : data.nestingDepth = 0 := congrArg LocalVar.depth same
    omega

/-- The loop body in the closure, and the script around both. -/
theorem outline_loopInClosure : ∃ s t, loopInClosure.scope? ⟨2⟩ = some s ∧ s.isClosure = true ∧
    s.closure.map (·.nestingDepth) = some 2 ∧ loopInClosure.scope? ⟨0⟩ = some t ∧
    t.kind = .script := by
  have shape : (loopInClosure.scope? ⟨2⟩).any (fun s =>
        decide (s.isClosure = true ∧ s.closure.map (·.nestingDepth) = some 2)) = true ∧
      (loopInClosure.scope? ⟨0⟩).any (fun t => decide (t.kind = .script)) = true := by
    decide +kernel
  simp only [Option.any_eq_true, decide_eq_true_eq] at shape
  obtain ⟨⟨s, found, isClosure, deep⟩, t, there, script⟩ := shape
  exact ⟨s, t, found, isClosure, deep, there, script⟩

theorem runOn_implicitBlock_loopInClosure : (implicitBlock ⟨2⟩).runOn loopInClosure =
    (.ok ⟨blockName, 0, 1, ⟨1⟩, .closure⟩, loopInClosure.after (implicitBlock ⟨2⟩)) :=
  Prod.ext (by decide +kernel) rfl

/-- The loop body has the block declared in the closure around it, and then sees it two scopes up. -/
theorem implicitBlock_again_loopInClosure : ∃ q,
    (implicitBlock ⟨2⟩).runOn loopInClosure = (.ok ⟨blockName, 0, 1, ⟨1⟩, .closure⟩, q) ∧
      (implicitBlock ⟨2⟩).runOn q = (.ok ⟨blockName, 2, 1, ⟨1⟩, .closure⟩, q) := by
  obtain ⟨s, t, found, isClosure, deep, there, script⟩ := outline_loopInClosure
  obtain ⟨data, walk, near, site, closed, -, -, -, -, answer⟩ :=
    implicitBlock_again reachable_loopInClosure found isClosure (by decide +kernel) there script
  rw [closed, Option.map_some, Option.some_inj] at deep
  have run := runOn_implicitBlock_loopInClosure
  obtain ⟨u, -, -, same, -⟩ | ⟨-, -, again, -⟩ := answer.of_ok run
  · have bound := congrArg (fun r => (r.binding? blockName ⟨1⟩).isSome) same
    exact absurd bound (by decide +kernel)
  · rw [deep] at again
    exact ⟨_, run, again⟩

/-- A closure under a script that asks for the block twice gets two different views of it. -/
theorem not_forall_implicitBlock_again :
    ¬ ∀ (p q : Program) (id flat : ScopeId) (s t : Scope) (v : LocalVar), p.Reachable →
      p.scope? id = some s → s.isClosure = true → p.nearestFlat id = .ok flat →
      p.scope? flat = some t → t.kind = .script → (implicitBlock id).runOn p = (.ok v, q) →
        (implicitBlock id).runOn q = (.ok v, q) := by
  intro always
  obtain ⟨s, t, found, isClosure, -, there, script⟩ := outline_loopInClosure
  have again := congrArg Prod.fst (always _ _ _ _ s t _ reachable_loopInClosure found isClosure
    (by decide +kernel) there script runOn_implicitBlock_loopInClosure)
  exact absurd again (by decide +kernel)

end Program

end ClosureIR
