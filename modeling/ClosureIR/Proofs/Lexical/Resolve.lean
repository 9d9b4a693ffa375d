import ClosureIR.Proofs.Lexical.Tables

/-!
# Looking up and declaring along one walk

Looking a name up, declaring it and asking for it whether it is there or not
all go along the same walk: the first binding on it answers, and the last scope
on it takes the declaration.
-/

namespace ClosureIR

open BuildM

namespace Scope

def declaring (t : Scope) (v : LocalVar) : Scope :=
  { t with locals := { t.locals.store v with nextSlot := t.locals.nextSlot + 1 } }

end Scope

namespace Program

variable {p q : Program} {id site host : ScopeId} {s t : Scope} {name : String} {depth : Nat}
  {walk : List ScopeId} {v : LocalVar}

def isLoop (p : Program) (id : ScopeId) : Bool := (p.scope? id).any (·.isForLoopBody)

def DeclaresAt (p : Program) (site : ScopeId) (name : String) (v : LocalVar) (q : Program) : Prop :=
  ∃ t kind, p.scope? site = some t ∧ t.kind.declares? = some kind ∧
    v = ⟨name, 0, t.locals.nextSlot, site, kind⟩ ∧ q = p.replace site (t.declaring v)

def FullAt (p : Program) (site : ScopeId) : Prop :=
  ∃ t, p.scope? site = some t ∧ Counter.bound ≤ t.locals.nextSlot + 1

/-! ## Past the loop bodies -/

theorem isLoop_of_scope? (found : p.scope? id = some s) :
    p.isLoop id = decide (s.kind = .forLoopBody) := by
  rw [isLoop, found]
  rfl

/--
The rest of a walk from its first scope on that is not a loop body.  It has the
same end and the same bindings.
-/
structure Enters (p : Program) (walk : List ScopeId) (host : ScopeId) (inner : List ScopeId) :
    Prop where
  first : walk.find? (fun x => !p.isLoop x) = some host
  last : inner.getLast? = walk.getLast?
  bound : ∀ name, inner.findSome? (p.binding? name) = walk.findSome? (p.binding? name)

theorem Walks.exists_enters (reachable : p.Reachable) (walks : p.Walks id depth walk) :
    ∃ host inner, p.Walks host depth inner ∧ p.Enters walk host inner := by
  induction walks with
  | @stop id s depth found ends =>
    refine ⟨id, [id], .stop found ends, ?_, rfl, fun _ => rfl⟩
    have other := ScopeKind.ne_forLoopBody_of_climb? ends
    simp [isLoop_of_scope? found, other]
  | @climb id parent s depth left above found climbs lies rest ih =>
    by_cases loop : s.kind = .forLoopBody
    · obtain ⟨host, inner, walks, first, last, bound⟩ := ih
      rw [loop] at climbs
      cases climbs
      refine ⟨host, inner, walks, ?_, ?_, fun name => ?_⟩
      · simpa [List.find?_cons, isLoop_of_scope? found, loop] using first
      · obtain ⟨others, rfl⟩ := rest.exists_cons
        exact last
      · rw [List.findSome?_cons, reachable.binding?_forLoopBody found loop, bound name]
    · refine ⟨id, id :: above, .climb found climbs lies rest, ?_, rfl, fun _ => rfl⟩
      simp [isLoop_of_scope? found, loop]

/-- The way past loop bodies ends where the walk leaves them, unless it meets an inlined scope. -/
theorem WellFormed.lookupSite_cases (formed : p.WellFormed) (walks : p.Walks id depth walk)
    (first : walk.find? (fun x => !p.isLoop x) = some host) :
    p.lookupSite id = .ok host ∨ ∃ x ∈ walk, ∃ t, p.scope? x = some t ∧ t.isInlined = true ∧
      p.lookupSite id = .error (.inlined t.name) := by
  induction walks with
  | @stop id s depth found ends =>
    have other := ScopeKind.ne_forLoopBody_of_climb? ends
    simp only [List.find?_cons, isLoop_of_scope? found, other, decide_false, Bool.not_false,
      Option.some.injEq] at first
    subst first
    cases live : s.isInlined with
    | false => exact .inl (lookupSite_of_host found live other)
    | true => exact .inr ⟨id, List.mem_cons_self, s, found, live, lookupSite_of_inlined found live⟩
  | @climb id parent s depth left above found climbs lies rest ih =>
    cases live : s.isInlined with
    | true => exact .inr ⟨id, List.mem_cons_self, s, found, live, lookupSite_of_inlined found live⟩
    | false =>
      by_cases loop : s.kind = .forLoopBody
      · simp only [List.find?_cons, isLoop_of_scope? found, loop, decide_true, Bool.not_true] at first
        rw [lookupSite_of_loop found live loop lies ((formed id s found).older lies)]
        obtain site | ⟨x, member, inlined⟩ := ih first
        · exact .inl site
        · exact .inr ⟨x, List.mem_cons_of_mem _ member, inlined⟩
      · simp only [List.find?_cons, isLoop_of_scope? found, loop, decide_false, Bool.not_false,
          Option.some.injEq] at first
        subst first
        exact .inl (lookupSite_of_host found live loop)

/-- Where the way past loop bodies ends, the rest of the walk begins. -/
theorem Walks.enters_of_lookupSite (reachable : p.Reachable) (walks : p.Walks id depth walk)
    (lookup : p.lookupSite id = .ok host) :
    ∃ inner, p.Walks host depth inner ∧ p.Enters walk host inner := by
  obtain ⟨host', inner, inside, enters⟩ := walks.exists_enters reachable
  obtain site | ⟨_, _, _, _, _, refused⟩ :=
    reachable.wellFormed.lookupSite_cases walks enters.first
  · cases site.symm.trans lookup
    exact ⟨inner, inside, enters⟩
  · cases refused.symm.trans lookup

/-- Where the way past loop bodies ends there is a scope that was not inlined. -/
theorem live_of_lookupSite (enters : p.lookupSite id = .ok host) : ∃ h, p.liveScope host = .ok h := by
  fun_induction p.lookupSite id with
  | case1 | case2 => cases enters
  | case3 id s lives loop parent older lies ih => exact ih enters
  | case4 id s lives other =>
    cases enters
    exact ⟨s, lives⟩

def Retains (p q : Program) : Prop :=
  ∀ id s, p.scope? id = some s → ∃ t, q.scope? id = some t ∧ t.kind = s.kind ∧
    t.parent = s.parent ∧ t.isInlined = s.isInlined

theorem Retains.outlines (retains : p.Retains q) : p.Outlines q := by
  intro id s found
  obtain ⟨t, there, kind, parent, -⟩ := retains id s found
  exact ⟨t, there, kind, parent⟩

theorem Retains.lookupSite (retains : p.Retains q) (enters : p.lookupSite id = .ok host) :
    q.lookupSite id = .ok host := by
  fun_induction p.lookupSite id with
  | case1 | case2 => cases enters
  | case3 id s lives loop parent older lies ih =>
    obtain ⟨found, live⟩ := liveScope_eq_ok_iff.1 lives
    obtain ⟨u, there, kind, same, still⟩ := retains id s found
    rw [lookupSite_of_loop there (still.trans live) (kind.trans (of_decide_eq_true loop))
      (same.trans (Scope.enclosing_eq_ok_iff.1 lies)) older]
    exact ih enters
  | case4 id s lives other =>
    obtain ⟨found, live⟩ := liveScope_eq_ok_iff.1 lives
    obtain ⟨u, there, kind, -, still⟩ := retains id s found
    cases enters
    refine lookupSite_of_host there (still.trans live) ?_
    rw [kind]
    simpa [Scope.isForLoopBody] using other

/-! ## Declaring -/

namespace DeclaresAt

variable (declares : p.DeclaresAt site name v q)

include declares

theorem binding?_eq (x : ScopeId) :
    q.binding? name x = if x = site then some v else p.binding? name x := by
  obtain ⟨t, kind, there, -, rfl, rfl⟩ := declares
  rw [binding?, scope?_replace]
  split
  · rw [there]
    exact LocalTable.get?_store_self t.locals ⟨name, 0, t.locals.nextSlot, site, kind⟩
  · rfl

/-- Every scope is there as before, but for its table. -/
theorem exists_table {x : ScopeId} {u : Scope} (found : p.scope? x = some u) :
    ∃ table, q.scope? x = some { u with locals := table } := by
  obtain ⟨t, kind, there, -, rfl, rfl⟩ := declares
  rw [scope?_replace]
  split
  · rename_i here
    subst here
    cases there.symm.trans found
    exact ⟨_, congrArg (Option.map _) found⟩
  · exact ⟨u.locals, found⟩

theorem wellFormed (formed : p.WellFormed) : q.WellFormed := by
  obtain ⟨t, kind, there, -, rfl, rfl⟩ := declares
  have valid := formed site t there
  exact formed.replace ⟨valid.place, valid.parent, valid.closure, valid.blockArgs⟩

/-- Nothing that decides about a walk changes. -/
theorem retains : p.Retains q := by
  intro x u found
  obtain ⟨table, there⟩ := declares.exists_table found
  exact ⟨_, there, rfl, rfl, rfl⟩

/-- On every walk through its scope, what was declared is the first binding of a name without any. -/
theorem findSome?_eq (member : site ∈ walk) (unbound : walk.findSome? (p.binding? name) = none) :
    walk.findSome? (q.binding? name) = some v := by
  apply findSome?_eq_of_forall member
  · rw [declares.binding?_eq, if_pos rfl]
  · intro x member
    rw [declares.binding?_eq]
    split
    · exact .inr rfl
    · exact .inl (List.findSome?_eq_none_iff.1 unbound x member)

/-- What was declared because no binding was found is found from then on. -/
theorem findLocal_eq (formed : p.WellFormed) (walks : p.Walks id depth walk) (member : site ∈ walk)
    (unbound : walk.findSome? (p.binding? name) = none) :
    q.findLocal id name depth = .ok (some v) := by
  rw [(declares.wellFormed formed).findLocal_eq (walks.outlined declares.retains.outlines),
    declares.findSome?_eq member unbound]

end DeclaresAt

theorem yields_newLocal (formed : p.WellFormed) (found : p.scope? id = some s)
    (walks : p.Walks id depth walk) (last : walk.getLast? = some site) (name : String) :
    (newLocal id name depth).Yields p (fun v q => p.DeclaresAt site name v q) fun fault q =>
      (s.isInlined = true ∧ fault = .misused (.inlined s.name) ∧ q = p) ∨
        (p.FullAt site ∧ fault = .misused .wordOverflow) := by
  obtain ⟨site', t, kind, last', there, declares⟩ := walks.exists_site
  cases last.symm.trans last'
  apply yields_ask_bind.2 ⟨fun _ _ => ?_, fun m stopped => ?_⟩
  · apply yields_ask_bind.2
    rw [formed.declarationSite_eq walks last there declares]
    refine ⟨?_, fun _ never => by cases never⟩
    rintro _ ⟨rfl⟩
    apply yields_declare site there
    · intro table stored
      obtain ⟨slot, next, rfl⟩ := Option.map_eq_some_iff.1 stored
      obtain ⟨rfl, -⟩ := Counter.next?_eq_some_iff.1 next
      exact ⟨t, kind, there, declares, rfl, rfl⟩
    · intro full
      exact .inr ⟨⟨t, there, Counter.next?_eq_none_iff.1 (Option.map_eq_none_iff.1 full)⟩, rfl⟩
  · obtain ⟨absent, -⟩ | ⟨t, here, dead, rfl⟩ := liveScope_eq_error_iff.1 stopped
    · cases found.symm.trans absent
    · cases found.symm.trans here
      exact .inl ⟨dead, rfl, rfl⟩

/-! ## Asking for a local -/

theorem runOn_getLocal_of_found {h : Scope} {u : LocalVar} (enters : p.lookupSite id = .ok host)
    (there : p.scope? host = some h) (bound : p.findLocal host name depth = .ok (some u)) :
    (getLocal id name depth).runOn p = (.ok (if h.isClosure then u.atDepth depth else u), p) := by
  simp [getLocal, findOrDeclare, runOn_bind, enters, scope_eq_ok_iff.2 there, bound, Except.mapError]

/-- `u` is the first binding on a walk, or it is declared at the end of a walk without any. -/
def Answers (p : Program) (walk : List ScopeId) (site : ScopeId) (name : String) (u : LocalVar)
    (q : Program) : Prop :=
  (walk.findSome? (p.binding? name) = some u ∧ q = p) ∨
    (walk.findSome? (p.binding? name) = none ∧ p.DeclaresAt site name u q)

namespace Answers

variable {u : LocalVar} (answers : p.Answers walk site name u q)

include answers

theorem depth_eq (reachable : p.Reachable) : u.depth = 0 := by
  obtain ⟨bound, -⟩ | ⟨-, t, kind, -, -, rfl, -⟩ := answers
  · obtain ⟨x, -, here⟩ := List.exists_of_findSome?_eq_some bound
    exact (reachable.of_binding? here).2.1
  · rfl

theorem retains : p.Retains q := by
  obtain ⟨-, rfl⟩ | ⟨-, declares⟩ := answers
  · exact fun x t found => ⟨t, found, rfl, rfl, rfl⟩
  · exact declares.retains

theorem findLocal_eq (formed : p.WellFormed) (walks : p.Walks id depth walk)
    (last : walk.getLast? = some site) : q.findLocal id name depth = .ok (some u) := by
  obtain ⟨bound, rfl⟩ | ⟨unbound, declares⟩ := answers
  · rw [formed.findLocal_eq walks, bound]
  · exact declares.findLocal_eq formed walks (List.mem_of_getLast? last) unbound

/--
Once a name has its answer, asking for it gives that answer and changes nothing.
The answer has the depth of the request, but in methods and scripts depth 0.
-/
theorem settled (reachable : p.Reachable) {inner : List ScopeId} {h : Scope}
    (inside : p.Walks host depth inner) (enters : p.Enters walk host inner)
    (last : walk.getLast? = some site) (there : p.scope? host = some h)
    (lookup : p.lookupSite id = .ok host) :
    (if h.isClosure then u.atDepth depth else u) = u.atDepth (if h.isClosure then depth else 0) ∧
      (getLocal id name depth).runOn q = (.ok (if h.isClosure then u.atDepth depth else u), q) := by
  have again : p.Answers inner site name u q := by rwa [Answers, enters.bound]
  obtain ⟨h', there', kind, -⟩ := answers.retains host h there
  have same : h'.isClosure = h.isClosure := by rw [Scope.isClosure, kind, Scope.isClosure]
  constructor
  · split
    · rfl
    · rw [← answers.depth_eq reachable, LocalVar.atDepth_depth]
  · rw [← same]
    exact runOn_getLocal_of_found (answers.retains.lookupSite lookup) there'
      (again.findLocal_eq reachable.wellFormed inside (enters.last.trans last))

end Answers

/-- Past the loop bodies, asking for a name gives its answer unless a table is full. -/
theorem yields_getLocal_of_lookupSite (reachable : p.Reachable) (walks : p.Walks id depth walk)
    (last : walk.getLast? = some site) (lookup : p.lookupSite id = .ok host) {h : Scope}
    (there : p.scope? host = some h) (name : String) :
    (getLocal id name depth).Yields p
      (fun v q => (∃ u, p.Answers walk site name u q ∧
          v = u.atDepth (if h.isClosure then depth else 0)) ∧
        (getLocal id name depth).runOn q = (.ok v, q))
      fun fault _ => walk.findSome? (p.binding? name) = none ∧ p.FullAt site ∧
        fault = .misused .wordOverflow := by
  have formed := reachable.wellFormed
  obtain ⟨inner, inside, enters⟩ := walks.enters_of_lookupSite reachable lookup
  obtain ⟨h', lives⟩ := live_of_lookupSite lookup
  obtain ⟨there', live⟩ := liveScope_eq_ok_iff.1 lives
  cases there.symm.trans there'
  have found := formed.findLocal_eq inside name
  rw [enters.bound] at found
  refine yields_ask_of_ok lookup (yields_ask_of_ok (scope_eq_ok_iff.2 there) ?_)
  refine yields_bind.2 (yields_ask_of_ok found ?_)
  cases bound : walk.findSome? (p.binding? name) with
  | some u =>
    have answers : p.Answers walk site name u p := .inl ⟨bound, rfl⟩
    obtain ⟨tagged, again⟩ := answers.settled reachable inside enters last there lookup
    exact ⟨⟨u, answers, tagged⟩, again⟩
  | none =>
    refine (yields_newLocal formed there inside (enters.last.trans last) name).mono ?_ ?_
    · intro u q declares
      have answers : p.Answers walk site name u q := .inr ⟨bound, declares⟩
      obtain ⟨tagged, again⟩ := answers.settled reachable inside enters last there lookup
      exact ⟨⟨u, answers, tagged⟩, again⟩
    · rintro fault q (⟨dead, -⟩ | ⟨full, rfl⟩)
      · cases live.symm.trans dead
      · exact ⟨rfl, full, rfl⟩

/-- Asking for a name gives its answer, unless it meets an inlined scope or a full table. -/
theorem yields_getLocal (reachable : p.Reachable) (walks : p.Walks id depth walk)
    (last : walk.getLast? = some site) (first : walk.find? (fun x => !p.isLoop x) = some host)
    {h : Scope} (there : p.scope? host = some h) (name : String) :
    (getLocal id name depth).Yields p
      (fun v q => (∃ u, p.Answers walk site name u q ∧
          v = u.atDepth (if h.isClosure then depth else 0)) ∧
        (getLocal id name depth).runOn q = (.ok v, q))
      fun fault q => (q = p ∧ ∃ x ∈ walk, ∃ t, p.scope? x = some t ∧ t.isInlined = true ∧
          fault = .misused (.inlined t.name)) ∨
        (walk.findSome? (p.binding? name) = none ∧ p.FullAt site ∧ fault = .misused .wordOverflow) := by
  obtain lookup | ⟨x, member, t, here, dead, refused⟩ :=
    reachable.wellFormed.lookupSite_cases walks first
  · exact (yields_getLocal_of_lookupSite reachable walks last lookup there name).mono
      (fun _ _ answered => answered) fun _ _ full => .inr full
  · refine yields_ask_bind.2 ⟨fun _ lookup => ?_, fun m stopped => ?_⟩
    · cases refused.symm.trans lookup
    · cases refused.symm.trans stopped
      exact .inl ⟨rfl, x, member, t, here, dead, rfl⟩

/-- A loop body declares nothing, and all that it is asked for its parent answers. -/
theorem Reachable.loop_resolves (reachable : p.Reachable) (found : p.scope? id = some s)
    (loop : s.kind = .forLoopBody) : s.locals.isEmpty = true ∧
      ∃ parent around, s.parent = some parent ∧ p.scope? parent = some around ∧ ∀ name depth,
        p.findLocal id name depth = p.findLocal parent name depth ∧
        (s.isInlined = false →
          (getLocal id name depth).runOn p = (getLocal parent name depth).runOn p ∧
          (around.isInlined = false →
            (newLocal id name depth).runOn p = (newLocal parent name depth).runOn p)) := by
  have closed : s.isClosure = true := by
    rw [Scope.isClosure, loop]
    rfl
  obtain ⟨parent, lies, older⟩ := (reachable.wellFormed id s found).exists_parent closed
  obtain ⟨around, there⟩ := exists_scope? (Nat.lt_trans older (lt_size_of_scope? found))
  have empty := (reachable.everywhere Scope.invariant_declares id s found).loop loop
  have climbs (depth : Nat) : s.kind.climb? depth = some depth := by rw [loop]; rfl
  refine ⟨empty, parent, around, lies, there, fun name depth => ⟨?_, fun live => ⟨?_, fun above => ?_⟩⟩⟩
  · exact findLocal_of_climb found (LocalTable.get?_of_isEmpty empty name) (climbs depth) lies older
  · have same := lookupSite_of_loop found live loop lies older
    rw [getLocal, getLocal, runOn_bind, runOn_bind, runOn_ask, runOn_ask, same]
  · have same := declarationSite_of_climb found (climbs depth) lies older
    rw [newLocal, newLocal, runOn_bind, runOn_bind, requireLive, requireLive, runOn_ask, runOn_ask,
      liveScope_eq_ok_iff.2 ⟨found, live⟩, liveScope_eq_ok_iff.2 ⟨there, above⟩]
    simp only [Except.mapError, runOn_bind, runOn_ask, same]

/--
From every scope one walk leads up.  Looking a name up gives the first binding
on it, declaring a name adds it to its last scope, and asking for a name does
the one where it can and else the other.  Loop bodies have no part in this.
-/
theorem resolves_along_walk (reachable : p.Reachable) (found : p.scope? id = some s) (name : String)
    (depth : Nat) :
    (∃ walk site host h, (∀ other, p.Walks id depth other ↔ other = walk) ∧
      walk.getLast? = some site ∧ walk.find? (fun x => !p.isLoop x) = some host ∧
      p.scope? host = some h ∧
      p.findLocal id name depth = .ok (walk.findSome? (p.binding? name)) ∧
      (newLocal id name depth).Yields p (fun v q => p.DeclaresAt site name v q) (fun fault q =>
        (s.isInlined = true ∧ fault = .misused (.inlined s.name) ∧ q = p) ∨
          (p.FullAt site ∧ fault = .misused .wordOverflow)) ∧
      (getLocal id name depth).Yields p
        (fun v q => (∃ u, p.Answers walk site name u q ∧
            v = u.atDepth (if h.isClosure then depth else 0)) ∧
          (getLocal id name depth).runOn q = (.ok v, q))
        fun fault q => (q = p ∧ ∃ x ∈ walk, ∃ t, p.scope? x = some t ∧ t.isInlined = true ∧
            fault = .misused (.inlined t.name)) ∨
          (walk.findSome? (p.binding? name) = none ∧ p.FullAt site ∧
            fault = .misused .wordOverflow)) ∧
    (s.kind = .forLoopBody → s.locals.isEmpty = true ∧
      ∃ parent around, s.parent = some parent ∧ p.scope? parent = some around ∧
        p.findLocal id name depth = p.findLocal parent name depth ∧
        (s.isInlined = false →
          (getLocal id name depth).runOn p = (getLocal parent name depth).runOn p ∧
          (around.isInlined = false →
            (newLocal id name depth).runOn p = (newLocal parent name depth).runOn p))) := by
  have formed := reachable.wellFormed
  obtain ⟨walk, walks⟩ := formed.exists_walks found depth
  obtain ⟨site, t, kind, last, there, declares⟩ := walks.exists_site
  obtain ⟨host, inner, inside, enters⟩ := walks.exists_enters reachable
  obtain ⟨above, rfl⟩ := inside.exists_cons
  obtain ⟨h, host'⟩ := inside.exists_scope_of_mem List.mem_cons_self
  constructor
  · refine ⟨walk, site, host, h, fun other => ⟨fun same => same.unique walks, ?_⟩, last, enters.first,
      host', formed.findLocal_eq walks name, yields_newLocal formed found walks last name,
      yields_getLocal reachable walks last enters.first host' name⟩
    rintro rfl
    exact walks
  · intro loop
    obtain ⟨empty, parent, around, lies, there, same⟩ := reachable.loop_resolves found loop
    exact ⟨empty, parent, around, lies, there, same name depth⟩

/-- The loop body sees the local of the closure around it, now and when it asks again. -/
theorem resolves_loopInClosure : ∃ walk q,
    loopInClosure.Walks ⟨2⟩ 0 walk ∧
      walk.findSome? (loopInClosure.binding? "x") = some ⟨"x", 0, 0, ⟨1⟩, .closure⟩ ∧
      (getLocal ⟨2⟩ "x" 0).runOn loopInClosure = (.ok ⟨"x", 0, 0, ⟨1⟩, .closure⟩, q) ∧
      (getLocal ⟨2⟩ "x" 0).runOn q = (.ok ⟨"x", 0, 0, ⟨1⟩, .closure⟩, q) := by
  have inside : (loopInClosure.scope? ⟨2⟩).isSome = true := by decide +kernel
  obtain ⟨s, found⟩ := Option.isSome_iff_exists.1 inside
  obtain ⟨⟨walk, site, host, h, unique, -, -, -, looked, -, asked⟩, -⟩ :=
    resolves_along_walk reachable_loopInClosure found "x" 0
  have bound : loopInClosure.findLocal ⟨2⟩ "x" 0 = .ok (some ⟨"x", 0, 0, ⟨1⟩, .closure⟩) := by
    decide +kernel
  have run : (getLocal ⟨2⟩ "x" 0).runOn loopInClosure =
      (.ok ⟨"x", 0, 0, ⟨1⟩, .closure⟩, loopInClosure.after (getLocal ⟨2⟩ "x" 0)) :=
    Prod.ext (by decide +kernel) rfl
  exact ⟨walk, _, (unique walk).2 rfl, Except.ok.inj (looked.symm.trans bound), run,
    (asked.of_ok run).2⟩

end Program

end ClosureIR
