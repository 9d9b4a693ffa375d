import ClosureIR.Proofs.Lexical.Block

/-!
# Views of one declaration

Requests for a name whose walks end in one scope, with nothing of the name on
the way, get views of one binding of this scope.  Whichever of them comes first
may have to declare it; the others find it.  So their order does not matter.
-/

namespace ClosureIR

open BuildM

namespace Program

variable {p q : Program} {id site host : ScopeId} {name : String} {depth : Nat}
  {walk : List ScopeId} {r : ScopeId × Nat} {requests : List (ScopeId × Nat)}

def getLocals (name : String) : List (ScopeId × Nat) → Program →
    List (Except Fault LocalVar) × Program
  | [], p => ([], p)
  | r :: rest, p =>
    let (answer, q) := (getLocal r.1 name r.2).runOn p
    let (answers, last) := getLocals name rest q
    (answer :: answers, last)

/-- The walk of a request ends in `site`, and nothing on it before has the name. -/
def Sees (p : Program) (name : String) (site : ScopeId) (r : ScopeId × Nat) : Prop :=
  ∃ walk, p.Walks r.1 r.2 walk ∧ walk.getLast? = some site ∧
    ∀ x ∈ walk.dropLast, p.binding? name x = none

def bindAt (site : ScopeId) (name : String) (kind : LocalKind) : BuildM LocalVar := do
  match ← ask fun p => .ok (p.binding? name site) with
  | some u => return u
  | none => declare site name kind

/-! ## One request -/

/-- With nothing of the name on the way, the end of a walk has the only binding. -/
theorem findSome?_binding?_eq (last : walk.getLast? = some site)
    (near : ∀ x ∈ walk.dropLast, p.binding? name x = none) :
    walk.findSome? (p.binding? name) = p.binding? name site := by
  rw [findSome?_eq_bind_getLast? near, last, Option.bind_some]

/-- A request past the loop bodies gets a view of what the end of its walk has or declares. -/
theorem Sees.runOn_getLocal (sees : p.Sees name site r) (reachable : p.Reachable)
    (lookup : p.lookupSite r.1 = .ok host) {h t : Scope} {kind : LocalKind}
    (there : p.scope? host = some h) (end_ : p.scope? site = some t)
    (declares : t.kind.declares? = some kind) :
    (getLocal r.1 name r.2).runOn p = (do
      let u ← bindAt site name kind
      return if h.isClosure then u.atDepth r.2 else u : BuildM LocalVar).runOn p := by
  obtain ⟨walk, walks, last, near⟩ := sees
  have formed := reachable.wellFormed
  obtain ⟨inner, inside, enters⟩ := walks.enters_of_lookupSite reachable lookup
  obtain ⟨h', lives⟩ := live_of_lookupSite lookup
  have found := formed.findLocal_eq inside name
  rw [enters.bound, findSome?_binding?_eq last near] at found
  have place := formed.declarationSite_eq inside (enters.last.trans last) end_ declares
  cases bound : p.binding? name site <;> rw [bound] at found <;>
    simp [getLocal, findOrDeclare, newLocal, requireLive, bindAt, runOn_bind, lookup,
      scope_eq_ok_iff.2 there, lives, found, place, bound, Except.mapError]

/-- What a scope has or declares is what it has from then on. -/
theorem yields_bindAt {t : Scope} {kind : LocalKind} (end_ : p.scope? site = some t)
    (declares : t.kind.declares? = some kind) (name : String) :
    (bindAt site name kind).Yields p
      (fun u q => q.binding? name site = some u ∧
        (q = p ∨ p.binding? name site = none ∧ p.DeclaresAt site name u q))
      fun _ _ => True := by
  refine yields_ask_of_ok rfl ?_
  cases bound : p.binding? name site with
  | some u => exact ⟨bound, .inl rfl⟩
  | none =>
    refine yields_declare site end_ (fun table stored => ?_) fun _ => trivial
    obtain ⟨slot, next, rfl⟩ := Option.map_eq_some_iff.1 stored
    obtain ⟨rfl, -⟩ := Counter.next?_eq_some_iff.1 next
    have here : p.DeclaresAt site name ⟨name, 0, t.locals.nextSlot, site, kind⟩
        (p.replace site (t.declaring ⟨name, 0, t.locals.nextSlot, site, kind⟩)) :=
      ⟨t, kind, end_, declares, rfl, rfl⟩
    refine ⟨?_, .inr ⟨rfl, here⟩⟩
    exact (here.binding?_eq site).trans (if_pos rfl)

theorem exists_lookupSite_of_getLocal {v : LocalVar}
    (run : (getLocal id name depth).runOn p = (.ok v, q)) : ∃ host, p.lookupSite id = .ok host := by
  cases lookup : p.lookupSite id with
  | ok host => exact ⟨host, rfl⟩
  | error m => simp [getLocal, runOn_bind, lookup, Except.mapError] at run

section Site

variable {t : Scope} {kind : LocalKind} {u v : LocalVar} (reachable : p.Reachable)
  (end_ : p.scope? site = some t) (declares : t.kind.declares? = some kind)

include reachable end_ declares

/-- A request that is answered had its answer from the end of its walk. -/
theorem Sees.exists_bindAt (sees : p.Sees name site r)
    (run : (getLocal r.1 name r.2).runOn p = (.ok v, q)) :
    ∃ u, (bindAt site name kind).runOn p = (.ok u, q) := by
  obtain ⟨host, lookup⟩ := exists_lookupSite_of_getLocal run
  obtain ⟨h, lives⟩ := live_of_lookupSite lookup
  have there := (liveScope_eq_ok_iff.1 lives).1
  rw [sees.runOn_getLocal reachable lookup there end_ declares, runOn_bind] at run
  cases bound : (bindAt site name kind).runOn p with
  | mk outcome after =>
    rw [bound] at run
    cases outcome with
    | error fault => cases run
    | ok u =>
      cases run
      exact ⟨u, rfl⟩

/-- What the end of the walk has or declares every request gets to see, now and from then on. -/
theorem Sees.exists_answer (sees : p.Sees name site r) (lookup : p.lookupSite r.1 = .ok host)
    (bound : (bindAt site name kind).runOn p = (.ok u, q)) :
    ∃ v, v.SameBinding u ∧ (getLocal r.1 name r.2).runOn p = (.ok v, q) ∧
      (getLocal r.1 name r.2).runOn q = (.ok v, q) := by
  obtain ⟨h, lives⟩ := live_of_lookupSite lookup
  have there := (liveScope_eq_ok_iff.1 lives).1
  have run := sees.runOn_getLocal reachable lookup there end_ declares
  rw [runOn_bind, bound] at run
  obtain ⟨walk, walks, last, -⟩ := sees
  have again := (yields_getLocal_of_lookupSite reachable walks last lookup there name).of_ok run
  refine ⟨_, ?_, run, again.2⟩
  split
  · exact u.sameBinding_atDepth r.2
  · exact .refl u

end Site

/-! ## One request after the other -/

theorem getLocals_eq_map
    (answers : ∀ r ∈ requests, ∃ v, (getLocal r.1 name r.2).runOn q = (.ok v, q)) :
    getLocals name requests q =
      (requests.map fun r => ((getLocal r.1 name r.2).runOn q).1, q) := by
  induction requests with
  | nil => rfl
  | cons r rest ih =>
    obtain ⟨⟨v, first⟩, others⟩ := List.forall_mem_cons.1 answers
    rw [getLocals, List.map_cons, first]
    simp only [ih others]

/-- A request adds at most a local: whatever scope is there afterwards was there before. -/
theorem retains_of_getLocal {v : LocalVar} (reachable : p.Reachable)
    (run : (getLocal id name depth).runOn p = (.ok v, q)) : q.Retains p := by
  obtain ⟨host, lookup⟩ := exists_lookupSite_of_getLocal run
  obtain ⟨h, lives⟩ := live_of_lookupSite lookup
  cases found : p.scope? id with
  | none =>
    rw [lookupSite, liveScope_of_missing found] at lookup
    cases lookup
  | some s =>
    obtain ⟨walk, walks⟩ := reachable.wellFormed.exists_walks found depth
    obtain ⟨site, -, -, last, -, -⟩ := walks.exists_site
    have there := (liveScope_eq_ok_iff.1 lives).1
    obtain ⟨⟨u, answers, -⟩, -⟩ :=
      (yields_getLocal_of_lookupSite reachable walks last lookup there name).of_ok run
    obtain ⟨-, rfl⟩ | ⟨-, t, kind, there, -, rfl, rfl⟩ := answers
    · exact fun x c found => ⟨c, found, rfl, rfl, rfl⟩
    · intro x c found
      obtain ⟨rfl, rfl⟩ | before := scope?_replace_cases found
      · exact ⟨t, there, rfl, rfl, rfl⟩
      · exact ⟨c, before, rfl, rfl, rfl⟩

/-- Where all requests are answered in a row, none of them meets an inlined scope to begin with. -/
theorem exists_lookupSite_of_getLocals (reachable : p.Reachable)
    (fine : ∀ answer ∈ (getLocals name requests p).1, ∃ v, answer = .ok v) :
    ∀ r ∈ requests, ∃ host, p.lookupSite r.1 = .ok host := by
  induction requests generalizing p with
  | nil => exact fun r member => (by cases member)
  | cons r rest ih =>
    cases run : (getLocal r.1 name r.2).runOn p with
    | mk answer q =>
      simp only [getLocals, run, List.forall_mem_cons] at fine
      obtain ⟨⟨v, rfl⟩, fine⟩ := fine
      refine List.forall_mem_cons.2 ⟨exists_lookupSite_of_getLocal run, fun r' member => ?_⟩
      have after : q.Reachable := reachable.of_runOn (.getLocal r.1 name r.2) run
      obtain ⟨host, lookup⟩ := ih after fine r' member
      exact ⟨host, (retains_of_getLocal reachable run).lookupSite lookup⟩

theorem exists_lookupSite_of_answers
    (alone : ∀ r ∈ requests, ∃ v q, (getLocal r.1 name r.2).runOn p = (.ok v, q)) :
    ∀ r ∈ requests, ∃ host, p.lookupSite r.1 = .ok host := by
  intro r member
  obtain ⟨v, q, run⟩ := alone r member
  exact exists_lookupSite_of_getLocal run

/-- When one request was answered, the others that reach its scope share its binding. -/
theorem exists_shared {v : LocalVar} (reachable : p.Reachable)
    (sees : ∀ r ∈ requests, p.Sees name site r)
    (lookups : ∀ r ∈ requests, ∃ host, p.lookupSite r.1 = .ok host) (first : r ∈ requests)
    (run : (getLocal r.1 name r.2).runOn p = (.ok v, q)) :
    ∃ u, u.name = name ∧ u.owner = site ∧
      (q = p ∨ p.binding? name site = none ∧ p.DeclaresAt site name u q) ∧
      ∀ r ∈ requests, ∃ v, v.SameBinding u ∧ (getLocal r.1 name r.2).runOn p = (.ok v, q) ∧
        (getLocal r.1 name r.2).runOn q = (.ok v, q) := by
  obtain ⟨walk, walks, last, -⟩ := sees r first
  obtain ⟨_, t, kind, last', end_, declares⟩ := walks.exists_site
  cases last.symm.trans last'
  obtain ⟨u, bound⟩ := (sees r first).exists_bindAt reachable end_ declares run
  obtain ⟨here, new⟩ := (yields_bindAt end_ declares name).of_ok bound
  have after : q.Reachable := reachable.of_runOn (.getLocal r.1 name r.2) run
  obtain ⟨named, -, owned⟩ := after.of_binding? here
  refine ⟨u, named, owned, new, fun r' member => ?_⟩
  obtain ⟨host, lookup⟩ := lookups r' member
  exact (sees r' member).exists_answer reachable end_ declares lookup bound

/-- The first request leaves the program in which all of them have the answers that they have now. -/
theorem getLocals_of_shared (some : requests ≠ [])
    (answers : ∀ r ∈ requests, ∃ v, (getLocal r.1 name r.2).runOn p = (.ok v, q) ∧
      (getLocal r.1 name r.2).runOn q = (.ok v, q)) :
    getLocals name requests p =
      (requests.map fun r => ((getLocal r.1 name r.2).runOn p).1, q) := by
  cases requests with
  | nil => exact absurd rfl some
  | cons r rest =>
    obtain ⟨⟨v, first, -⟩, others⟩ := List.forall_mem_cons.1 answers
    have same : rest.map (fun r => ((getLocal r.1 name r.2).runOn q).1) =
        rest.map fun r => ((getLocal r.1 name r.2).runOn p).1 := by
      refine List.map_congr_left fun r member => ?_
      obtain ⟨v, now, later⟩ := others r member
      rw [now, later]
    have last := getLocals_eq_map fun r member => (others r member).imp fun _ => And.right
    rw [getLocals, List.map_cons, first]
    simp only [last, same]

/-- Each request alone is answered just when all of them are in a row. -/
theorem answered_iff (reachable : p.Reachable) (sees : ∀ r ∈ requests, p.Sees name site r) :
    (∀ r ∈ requests, ∃ v q, (getLocal r.1 name r.2).runOn p = (.ok v, q)) ↔
      ∀ answer ∈ (getLocals name requests p).1, ∃ v, answer = .ok v := by
  rcases requests with _ | ⟨first, rest⟩
  · simp [getLocals]
  have head : first ∈ first :: rest := List.mem_cons_self
  constructor
  · intro alone answer member
    obtain ⟨v, q, run⟩ := alone first head
    obtain ⟨u, -, -, -, answers⟩ :=
      exists_shared reachable sees (exists_lookupSite_of_answers alone) head run
    have row := getLocals_of_shared (List.cons_ne_nil _ _) fun r among =>
      (answers r among).imp fun _ => And.right
    rw [row] at member
    obtain ⟨r, among, rfl⟩ := List.mem_map.1 member
    obtain ⟨w, -, now, -⟩ := answers r among
    exact ⟨w, by rw [now]⟩
  · intro fine r among
    cases run : (getLocal first.1 name first.2).runOn p with
    | mk answer q =>
      obtain ⟨v, rfl⟩ := fine answer (by simp [getLocals, run])
      obtain ⟨u, -, -, -, answers⟩ :=
        exists_shared reachable sees (exists_lookupSite_of_getLocals reachable fine) head run
      obtain ⟨w, -, now, -⟩ := answers r among
      exact ⟨w, q, now⟩

/-- Answered requests leave the same program in any order, and share a binding. -/
theorem exists_agreement (reachable : p.Reachable) (sees : ∀ r ∈ requests, p.Sees name site r)
    (alone : ∀ r ∈ requests, ∃ v q, (getLocal r.1 name r.2).runOn p = (.ok v, q)) : ∃ q,
      (∀ order, order.Perm requests → getLocals name order p =
        (order.map fun r => ((getLocal r.1 name r.2).runOn p).1, q)) ∧
      (∀ r ∈ requests, ∃ v, ((getLocal r.1 name r.2).runOn p).1 = .ok v ∧ v.name = name ∧
        v.owner = site ∧ ∀ r' ∈ requests, ∀ v',
          ((getLocal r'.1 name r'.2).runOn p).1 = .ok v' → v.SameBinding v') ∧
      (q = p ∨ p.binding? name site = none ∧ ∃ u, p.DeclaresAt site name u q) := by
  rcases requests with _ | ⟨first, rest⟩
  · refine ⟨p, fun order perm => ?_, by simp, .inl rfl⟩
    rw [perm.eq_nil]
    rfl
  have head : first ∈ first :: rest := List.mem_cons_self
  -- What the first request leaves is what all of them share.
  obtain ⟨v, q, run⟩ := alone first head
  obtain ⟨u, named, owned, new, answers⟩ :=
    exists_shared reachable sees (exists_lookupSite_of_answers alone) head run
  refine ⟨q, fun order perm => ?_, fun r among => ?_, new.imp_right fun h => ⟨h.1, u, h.2⟩⟩
  · refine getLocals_of_shared (fun none => ?_) fun r among =>
      (answers r (perm.subset among)).imp fun _ => And.right
    cases (none ▸ perm).nil_eq
  · obtain ⟨w, same, now, -⟩ := answers r among
    refine ⟨w, by rw [now], same.2.2.trans named, same.1.trans owned, fun r' among' v' got => ?_⟩
    obtain ⟨w', same', now', -⟩ := answers r' among'
    rw [now'] at got
    cases got
    exact same.trans same'.symm

/--
Requests whose walks end in one scope, and meet no binding of the name before,
are answered in any order alike and leave the same program.  All answers are
views of one binding of that scope, which is the only thing that may be new.
-/
theorem views_agree (reachable : p.Reachable) (sees : ∀ r ∈ requests, p.Sees name site r) :
    ((∀ r ∈ requests, ∃ v q, (getLocal r.1 name r.2).runOn p = (.ok v, q)) ↔
      ∀ answer ∈ (getLocals name requests p).1, ∃ v, answer = .ok v) ∧
    ((∀ r ∈ requests, ∃ v q, (getLocal r.1 name r.2).runOn p = (.ok v, q)) → ∃ q,
      (∀ order, order.Perm requests → getLocals name order p =
        (order.map fun r => ((getLocal r.1 name r.2).runOn p).1, q)) ∧
      (∀ r ∈ requests, ∃ v, ((getLocal r.1 name r.2).runOn p).1 = .ok v ∧ v.name = name ∧
        v.owner = site ∧ ∀ r' ∈ requests, ∀ v',
          ((getLocal r'.1 name r'.2).runOn p).1 = .ok v' → v.SameBinding v') ∧
      (q = p ∨ p.binding? name site = none ∧ ∃ u, p.DeclaresAt site name u q)) :=
  ⟨answered_iff reachable sees, exists_agreement reachable sees⟩

/-- Two closures in each other and their method ask for one local of the method. -/
theorem sees_closureInClosure (name : String) :
    ∀ r ∈ [(⟨3⟩, 2), (⟨2⟩, 1), (⟨1⟩, 0)], closureInClosure.Sees name ⟨1⟩ r := by
  obtain ⟨⟨m, method, kind⟩, ⟨s, outer, kind₂, lies₂, -⟩, t, inner, kind₃, lies₃, -⟩ :=
    outline_closureInClosure
  have top : closureInClosure.Walks ⟨1⟩ 0 [⟨1⟩] := .stop method (by rw [kind]; rfl)
  have middle : closureInClosure.Walks ⟨2⟩ 1 [⟨2⟩, ⟨1⟩] :=
    .climb outer (by rw [kind₂]; rfl) lies₂ top
  have whole : closureInClosure.Walks ⟨3⟩ 2 [⟨3⟩, ⟨2⟩, ⟨1⟩] :=
    .climb inner (by rw [kind₃]; rfl) lies₃ middle
  have bare (walk : List ScopeId) : ∀ x ∈ walk.dropLast, closureInClosure.binding? name x = none :=
    fun x _ => binding?_closureInClosure name x
  simp only [List.forall_mem_cons, List.not_mem_nil, false_implies, implies_true, and_true]
  exact ⟨⟨_, whole, rfl, bare _⟩, ⟨_, middle, rfl, bare _⟩, ⟨_, top, rfl, bare _⟩⟩

/-- Whether the inner closure or the method is first to ask, each gets its view of one local. -/
theorem views_agree_closureInClosure : ∃ v q,
    getLocals "x" [(⟨3⟩, 2), (⟨2⟩, 1), (⟨1⟩, 0)] closureInClosure =
        ([.ok (v.atDepth 2), .ok (v.atDepth 1), .ok v], q) ∧
      getLocals "x" [(⟨1⟩, 0), (⟨2⟩, 1), (⟨3⟩, 2)] closureInClosure =
        ([.ok v, .ok (v.atDepth 1), .ok (v.atDepth 2)], q) ∧
      v.owner = ⟨1⟩ := by
  obtain ⟨-, agree⟩ := views_agree reachable_closureInClosure (sees_closureInClosure "x")
  let v : LocalVar := ⟨"x", 0, 0, ⟨1⟩, .plain⟩
  have answers : [(⟨3⟩, 2), (⟨2⟩, 1), (⟨1⟩, 0)].map
      (fun r => ((getLocal r.1 "x" r.2).runOn closureInClosure).1) =
        [.ok (v.atDepth 2), .ok (v.atDepth 1), .ok v] := by
    decide +kernel
  simp only [List.map_cons, List.map_nil, List.cons.injEq, and_true] at answers
  obtain ⟨inner, outer, method⟩ := answers
  obtain ⟨q, orders, -, -⟩ := agree (by
    simp only [List.forall_mem_cons, List.not_mem_nil, false_implies, implies_true, and_true]
    exact ⟨⟨_, _, Prod.ext inner rfl⟩, ⟨_, _, Prod.ext outer rfl⟩, _, _, Prod.ext method rfl⟩)
  refine ⟨v, q, ?_, ?_, rfl⟩
  · rw [orders _ (.refl _)]
    simp only [List.map_cons, List.map_nil, inner, outer, method]
  · rw [orders [(⟨1⟩, 0), (⟨2⟩, 1), (⟨3⟩, 2)] (by decide)]
    simp only [List.map_cons, List.map_nil, inner, outer, method]

end Program

end ClosureIR
