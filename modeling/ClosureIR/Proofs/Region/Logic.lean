import ClosureIR.Proofs.Arena
import ClosureIR.Proofs.Clone.Names

/-!
# Operations within a region

A region is a set of scopes that has the parents of all closures in it.  An
operation stays within a region when what it answers and does there depends on
the scopes of the region alone, and it changes no others.  Lexical walks from a
scope of the region do not leave it, and so do the operations that create no
scope.
-/

namespace ClosureIR

open BuildM

namespace Program

/-- The scopes of the region are there, and a closure in it has its parent in it. -/
def Closed (S : ScopeId → Prop) (p : Program) : Prop :=
  ∀ x, S x → ∃ s, p.scope? x = some s ∧
    (s.isClosure = true → ∃ parent, s.parent = some parent ∧ parent.index < x.index ∧ S parent)

structure Agree (S : ScopeId → Prop) (p q : Program) : Prop where
  closed : p.Closed S
  size : q.scopes.size = p.scopes.size
  scope? : ∀ x, S x → q.scope? x = p.scope? x

structure Outside (S : ScopeId → Prop) (p q : Program) : Prop where
  options : q.options = p.options
  size : q.scopes.size = p.scopes.size
  scope? : ∀ x, ¬ S x → q.scope? x = p.scope? x

variable {S : ScopeId → Prop} {p q t : Program} {id x : ScopeId} {s : Scope}

theorem Closed.agree_refl (closed : p.Closed S) : Agree S p p := ⟨closed, rfl, fun _ _ => rfl⟩

theorem Outside.refl (S : ScopeId → Prop) (p : Program) : Outside S p p := ⟨rfl, rfl, fun _ _ => rfl⟩

theorem Outside.trans (first : Outside S p q) (second : Outside S q t) : Outside S p t where
  options := second.options.trans first.options
  size := second.size.trans first.size
  scope? x outside := (second.scope? x outside).trans (first.scope? x outside)

namespace Agree

variable (agree : Agree S p q)

include agree

theorem symm : Agree S q p where
  closed x inside := by
    rw [agree.scope? x inside]
    exact agree.closed x inside
  size := agree.size.symm
  scope? x inside := (agree.scope? x inside).symm

theorem scope_eq (inside : S x) : q.scope x = p.scope x := by
  rw [Program.scope, Program.scope, agree.scope? x inside, agree.size]

theorem liveScope_eq (inside : S x) : q.liveScope x = p.liveScope x := by
  rw [liveScope, liveScope, agree.scope_eq inside]

/-- What a walk finds at a scope of the region, and where it goes on. -/
theorem exists_scope (inside : S x) : ∃ s, p.scope? x = some s ∧ q.scope? x = some s ∧
    (s.isClosure = true → ∃ parent, s.parent = some parent ∧ parent.index < x.index ∧ S parent) := by
  obtain ⟨s, found, parents⟩ := agree.closed x inside
  exact ⟨s, found, (agree.scope? x inside).trans found, parents⟩

theorem nearestFlat_eq (inside : S x) :
    ∃ flat, q.nearestFlat x = .ok flat ∧ p.nearestFlat x = .ok flat ∧ S flat := by
  induction h : x.index using Nat.strongRecOn generalizing x with
  | ind n ih =>
    obtain ⟨s, found, there, parents⟩ := agree.exists_scope inside
    cases closed : s.isClosure with
    | false => exact ⟨x, nearestFlat_of_flat there closed, nearestFlat_of_flat found closed, inside⟩
    | true =>
      obtain ⟨parent, lies, older, within⟩ := parents closed
      rw [nearestFlat_of_closure there closed lies older, nearestFlat_of_closure found closed lies older]
      exact ih parent.index (h ▸ older) within rfl

theorem findLocal_eq (inside : S x) (name : String) (depth : Nat) :
    q.findLocal x name depth = p.findLocal x name depth := by
  induction h : x.index using Nat.strongRecOn generalizing x depth with
  | ind n ih =>
    obtain ⟨s, found, there, parents⟩ := agree.exists_scope inside
    cases bound : s.locals.get? name with
    | some v => rw [findLocal_of_bound there bound, findLocal_of_bound found bound]
    | none =>
      cases climbs : s.kind.climb? depth with
      | none => rw [findLocal_of_end there bound climbs, findLocal_of_end found bound climbs]
      | some left =>
        obtain ⟨parent, lies, older, within⟩ := parents (ScopeKind.isClosure_of_climb? climbs)
        rw [findLocal_of_climb there bound climbs lies older,
          findLocal_of_climb found bound climbs lies older]
        exact ih parent.index (h ▸ older) within left rfl

theorem declarationSite_eq (inside : S x) (depth : Nat) :
    ∃ site kind, q.declarationSite x depth = .ok (site, kind) ∧
      p.declarationSite x depth = .ok (site, kind) ∧ S site := by
  induction h : x.index using Nat.strongRecOn generalizing x depth with
  | ind n ih =>
    obtain ⟨s, found, there, parents⟩ := agree.exists_scope inside
    cases climbs : s.kind.climb? depth with
    | none =>
      obtain ⟨kind, declares⟩ := ScopeKind.exists_declares? climbs
      exact ⟨x, kind, declarationSite_of_end there climbs declares,
        declarationSite_of_end found climbs declares, inside⟩
    | some left =>
      obtain ⟨parent, lies, older, within⟩ := parents (ScopeKind.isClosure_of_climb? climbs)
      rw [declarationSite_of_climb there climbs lies older,
        declarationSite_of_climb found climbs lies older]
      exact ih parent.index (h ▸ older) within left rfl

theorem lookupSite_eq (inside : S x) :
    q.lookupSite x = p.lookupSite x ∧ ∀ site, p.lookupSite x = .ok site → S site := by
  induction h : x.index using Nat.strongRecOn generalizing x with
  | ind n ih =>
    obtain ⟨s, found, there, parents⟩ := agree.exists_scope inside
    cases live : s.isInlined with
    | true =>
      rw [lookupSite_of_inlined there live, lookupSite_of_inlined found live]
      exact ⟨rfl, fun _ never => by cases never⟩
    | false =>
      by_cases loop : s.kind = .forLoopBody
      · obtain ⟨parent, lies, older, within⟩ := parents (by rw [Scope.isClosure, loop]; rfl)
        rw [lookupSite_of_loop there live loop lies older, lookupSite_of_loop found live loop lies older]
        exact ih parent.index (h ▸ older) within rfl
      · rw [lookupSite_of_host there live loop, lookupSite_of_host found live loop]
        refine ⟨rfl, ?_⟩
        rintro _ ⟨⟩
        exact inside

/-- A scope of the region may be rewritten, as long as it keeps its kind and its parent. -/
theorem replace (found : p.scope? id = some s) {c : Scope} (kind : c.kind = s.kind)
    (parent : c.parent = s.parent) : Agree S (p.replace id c) (q.replace id c) where
  closed x inside := by
    obtain ⟨u, there, parents⟩ := agree.closed x inside
    rw [scope?_replace]
    split
    · rename_i here
      cases found.symm.trans (here ▸ there)
      refine ⟨c, by rw [found]; rfl, ?_⟩
      rw [Scope.isClosure, kind, parent]
      exact parents
    · exact ⟨u, there, parents⟩
  size := by rw [size_replace, size_replace, agree.size]
  scope? x inside := by
    rw [scope?_replace, scope?_replace]
    split
    · rename_i here
      rw [← here, agree.scope? x inside]
    · exact agree.scope? x inside

end Agree

theorem outside_replace (inside : S id) (p : Program) (c : Scope) : Outside S p (p.replace id c) where
  options := rfl
  size := size_replace c
  scope? x outside := by
    rw [scope?_replace, if_neg]
    rintro rfl
    exact outside inside

/-! ## Rules -/

/--
In programs that agree on the region, the operation gives the same answer, one
with the property `good`, and does the same to the region and nothing else.
-/
def Within {α : Type} (S : ScopeId → Prop) (op : BuildM α) (good : α → Prop) : Prop :=
  ∀ p q, Agree S p q → (op.runOn q).1 = (op.runOn p).1 ∧ (∀ a, (op.runOn p).1 = .ok a → good a) ∧
    Agree S (op.runOn p).2 (op.runOn q).2 ∧ Outside S p (op.runOn p).2

abbrev Local {α : Type} (S : ScopeId → Prop) (op : BuildM α) : Prop := Within S op fun _ => True

section Rules

variable {α β : Type} {op : BuildM α} {next : α → BuildM β} {good : α → Prop} {good' : β → Prop}

theorem Within.bind (first : Within S op good) (others : ∀ a, good a → Within S (next a) good') :
    Within S (op >>= next) good' := by
  intro p q agree
  obtain ⟨same, given, agree', outside⟩ := first p q agree
  rw [runOn_bind, runOn_bind]
  rcases run : op.runOn p with ⟨outcome, p'⟩
  rcases run' : op.runOn q with ⟨outcome', q'⟩
  rw [run, run'] at same agree'
  rw [run] at given outside
  cases same
  cases outcome with
  | ok a =>
    obtain ⟨same, given', agree'', outside'⟩ := others a (given a rfl) p' q' agree'
    exact ⟨same, given', agree'', outside.trans outside'⟩
  | error fault => exact ⟨rfl, fun _ never => by (cases never), agree', outside⟩

/-- An operation that reads nothing. -/
theorem within_of_const {outcome : Except Fault α} (run : ∀ p, op.runOn p = (outcome, p))
    (given : ∀ a, outcome = .ok a → good a) : Within S op good := by
  intro p q agree
  rw [run, run]
  exact ⟨rfl, given, agree, .refl S p⟩

theorem within_pure {a : α} (given : good a) : Within S (pure a : BuildM α) good :=
  within_of_const (runOn_pure a) fun _ same => by cases same; exact given

theorem within_misuse (m : Misuse) : Within S (misuse m : BuildM α) good :=
  within_of_const (runOn_misuse m) fun _ never => by cases never

theorem within_refuse (r : Refusal) : Within S (refuse r : BuildM α) good :=
  within_of_const (runOn_refuse r) fun _ never => by cases never

theorem local_ofRefusal (e : Except Refusal α) : Local S (ofRefusal e) :=
  within_of_const (runOn_ofRefusal e) fun _ _ => trivial

/-- A question about the region. -/
theorem within_ask {f : Program → Except Misuse α} (reads : ∀ p q, Agree S p q → f q = f p)
    (given : ∀ p a, p.Closed S → f p = .ok a → good a) : Within S (ask f) good := by
  intro p q agree
  rw [runOn_ask, runOn_ask, reads p q agree]
  refine ⟨rfl, fun a answer => ?_, agree, .refl S p⟩
  cases answered : f p with
  | error m =>
    rw [answered] at answer
    cases answer
  | ok b =>
    rw [answered] at answer
    cases answer
    exact given p a agree.closed answered

/-- An operation that reads one scope of the region and rewrites it. -/
theorem local_of_rewrites (inside : S id) (f : Scope → Except Fault α × Scope)
    (kind : ∀ s, (f s).2.kind = s.kind) (parent : ∀ s, (f s).2.parent = s.parent)
    (run : ∀ p s, p.scope? id = some s → op.runOn p = ((f s).1, p.replace id (f s).2)) :
    Local S op := by
  intro p q agree
  obtain ⟨s, found, there, -⟩ := agree.exists_scope inside
  rw [run p s found, run q s there]
  exact ⟨rfl, fun _ _ => trivial, agree.replace found (kind s) (parent s), outside_replace inside p _⟩

end Rules

/-! ## Operations that create no scope -/

variable (inside : S id)

include inside

theorem local_scope : Local S (ask (·.scope id)) :=
  within_ask (fun _ _ agree => agree.scope_eq inside) fun _ _ _ _ => trivial

theorem local_requireLive : Local S (requireLive id) :=
  within_ask (fun _ _ agree => agree.liveScope_eq inside) fun _ _ _ _ => trivial

theorem local_requireClosure : Local S (requireClosure id) := by
  refine (local_scope inside).bind fun s _ => ?_
  split
  · exact within_pure trivial
  · exact within_refuse _

theorem local_findLocal (name : String) (depth : Nat) : Local S (ask (·.findLocal id name depth)) :=
  within_ask (fun _ _ agree => agree.findLocal_eq inside name depth) fun _ _ _ _ => trivial

theorem within_nearestFlat : Within S (ask (·.nearestFlat id)) S := by
  refine within_ask (fun p q agree => ?_) fun p flat closed nearest => ?_
  · obtain ⟨flat, nearest, nearest', -⟩ := agree.nearestFlat_eq inside
    rw [nearest, nearest']
  · obtain ⟨_, nearest', -, within⟩ := closed.agree_refl.nearestFlat_eq inside
    cases nearest.symm.trans nearest'
    exact within

theorem within_declarationSite (depth : Nat) :
    Within S (ask (·.declarationSite id depth)) fun site => S site.1 := by
  refine within_ask (fun p q agree => ?_) fun p flat closed walk => ?_
  · obtain ⟨site, kind, walk, walk', -⟩ := agree.declarationSite_eq inside depth
    rw [walk, walk']
  · obtain ⟨_, _, walk', -, within⟩ := closed.agree_refl.declarationSite_eq inside depth
    cases walk.symm.trans walk'
    exact within

theorem within_lookupSite : Within S (ask (·.lookupSite id)) S :=
  within_ask (fun _ _ agree => (agree.lookupSite_eq inside).1)
    fun _ site closed => (closed.agree_refl.lookupSite_eq inside).2 site

theorem local_adjust {f : Scope → Scope} (kind : ∀ s, (f s).kind = s.kind)
    (parent : ∀ s, (f s).parent = s.parent) : Local S (adjust id f) := by
  refine local_of_rewrites inside (fun s => (.ok (), f s)) kind parent fun p s found => ?_
  rw [adjust, runOn_bind, runOn_ask, scope_eq_ok_iff.2 found]
  rfl

/-- Handing something out rewrites a scope, or leaves it when a counter is at its end. -/
theorem local_mint {α : Type} {f : Scope → Option (α × Scope)}
    (kept : ∀ s a after, f s = some (a, after) → after.kind = s.kind ∧ after.parent = s.parent) :
    Local S (mint id f) := by
  have rest (s : Scope) : ((f s).elim s (·.2)).kind = s.kind ∧
      ((f s).elim s (·.2)).parent = s.parent := by
    cases minted : f s with
    | none => exact ⟨rfl, rfl⟩
    | some given => exact kept s _ _ minted
  refine local_of_rewrites inside (fun s =>
      ((f s).elim (.error (.misused .wordOverflow)) fun given => .ok given.1, (f s).elim s (·.2)))
    (fun s => (rest s).1) (fun s => (rest s).2) fun p s found => ?_
  rw [mint, runOn_bind, runOn_ask, scope_eq_ok_iff.2 found]
  simp only [Except.mapError]
  cases minted : f s with
  | none => simp [replace_self found]
  | some given => rfl

theorem local_mintName (stem : String) : Local S (mint id (·.mintName? stem)) :=
  local_mint inside fun s name after minted => by
    obtain ⟨-, -, rfl⟩ := Scope.mintName?_eq_some_iff.1 minted
    exact ⟨rfl, rfl⟩

theorem local_mintTempIndex : Local S (mint id (·.mintTempIndex?)) :=
  local_mint inside fun s index after minted => by
    obtain ⟨-, -, rfl⟩ := Scope.mintTempIndex?_eq_some_iff.1 minted
    exact ⟨rfl, rfl⟩

theorem local_mintClosureNumber : Local S (mint id (·.mintClosureNumber?)) :=
  local_mint inside fun s n after minted => by
    obtain ⟨-, -, rfl⟩ := Scope.mintClosureNumber?_eq_some_iff.1 minted
    exact ⟨rfl, rfl⟩

theorem local_newLabelWith (stem : String) : Local S (newLabelWith id stem) :=
  (local_requireLive inside).bind fun _ _ => (local_mintName inside stem).bind fun _ _ =>
    within_pure trivial

theorem local_newLabel : Local S (newLabel id) :=
  (local_scope inside).bind fun _ _ => local_newLabelWith inside _

theorem local_newLabels (n : Nat) : Local S (newLabels id n) := by
  induction n with
  | zero => exact within_pure trivial
  | succ n ih => exact (local_newLabel inside).bind fun _ _ => ih.bind fun _ _ => within_pure trivial

theorem local_newTemp : Local S (newTemp id) :=
  (local_requireLive inside).bind fun _ _ => (local_mintTempIndex inside).bind fun _ _ =>
    within_pure trivial

theorem local_newNamedTemp (name : String) : Local S (newNamedTemp id name) :=
  (local_requireLive inside).bind fun _ _ => (local_mintTempIndex inside).bind fun _ _ =>
    within_pure trivial

theorem local_newClosureNumber : Local S (newClosureNumber id) :=
  (within_nearestFlat inside).bind fun _ within => local_mintClosureNumber within

/-- A declaration rewrites one scope, also when its slot was the last one. -/
theorem local_declare (name : String) (kind : LocalKind) : Local S (declare id name kind) := by
  let v (s : Scope) : LocalVar := ⟨name, 0, s.locals.nextSlot, id, kind⟩
  let stored (s : Scope) : LocalTable := s.locals.store (v s)
  refine local_of_rewrites inside (fun s =>
      ((stored s).advance?.elim (.error (.misused .wordOverflow)) fun _ => .ok (v s),
        { s with locals := (stored s).advance?.getD (stored s) }))
    (fun s => rfl) (fun s => rfl) fun p s found => ?_
  rw [declare, runOn_bind, runOn_ask, scope_eq_ok_iff.2 found]
  simp only [Except.mapError, runOn_bind, runOn_store, stored, v]
  cases advanced : LocalTable.advance? _ with
  | some table =>
    simp only [runOn_bind, runOn_store, replace_replace, runOn_pure, Option.elim_some,
      Option.getD_some]
  | none => rfl

theorem local_newLocal (name : String) (depth : Nat) : Local S (newLocal id name depth) :=
  (local_requireLive inside).bind fun _ _ => (within_declarationSite inside depth).bind
    fun _ within => local_declare within name _

theorem local_findOrDeclare (name : String) (depth : Nat) : Local S (findOrDeclare id name depth) := by
  refine (local_findLocal inside name depth).bind fun bound _ => ?_
  split
  · exact within_pure trivial
  · exact local_newLocal inside name depth

theorem local_getLocal (name : String) (depth : Nat) : Local S (getLocal id name depth) := by
  refine (within_lookupSite inside).bind fun site within => (local_scope within).bind fun s _ => ?_
  exact (local_findOrDeclare within name depth).bind fun _ _ => within_pure trivial

theorem local_newFlip : Local S (newFlip id) := by
  refine (local_scope inside).bind fun s _ => ?_
  split
  · exact (local_mintName inside _).bind fun name _ => local_newLocal inside name 0
  · exact within_misuse _

theorem local_implicitBlock : Local S (implicitBlock id) := by
  refine (local_requireClosure inside).bind fun data _ => ?_
  refine (local_findLocal inside blockName data.nestingDepth).bind fun bound _ => ?_
  split
  · exact within_pure trivial
  · refine (within_nearestFlat inside).bind fun flat within => (local_scope within).bind fun s _ => ?_
    split
    · exact (local_newLocal within blockName 0).bind fun _ _ => within_pure trivial
    · exact local_newLocal inside blockName 0

theorem local_addInstr (i : Instr) : Local S (addInstr id i) := by
  refine local_of_rewrites inside (fun s =>
    if s.isInlined then (.error (.misused (.inlined s.name)), s) else (.ok (), s.append i))
    (fun s => by split <;> rfl) (fun s => by split <;> rfl) fun p s found => ?_
  rw [addInstr, runOn_bind, requireLive, runOn_ask, liveScope_of_scope? found]
  cases inlined : s.isInlined
  · rfl
  · simp [Except.mapError, replace_self found]

theorem local_buildGraph : Local S (buildGraph id) := by
  refine (local_requireLive inside).bind fun s _ => (local_newLabels inside _).bind fun labels _ => ?_
  refine (local_ofRefusal _).bind fun g _ => ?_
  exact Within.bind (local_adjust inside (fun _ => rfl) fun _ => rfl) fun _ _ => within_pure trivial

theorem local_markInlined : Local S (markInlined id) :=
  (local_requireClosure inside).bind fun _ _ => local_adjust inside (fun _ => rfl) fun _ => rfl

theorem local_setParameters (names : List String) : Local S (setParameters id names) :=
  (local_requireClosure inside).bind fun _ _ => local_adjust inside (fun _ => rfl) fun _ => rfl

end Program

namespace Renaming

open Program

variable {S : ScopeId → Prop}

/-- Preparing stays with the host. -/
theorem within_cover (r : Renaming) (inside : S r.host) (m : Mention) :
    Within S (r.cover m) fun next => next.host = r.host := by
  cases m with
  | label l =>
    rw [cover]
    split
    · exact within_pure rfl
    · exact (local_newLabel inside).bind fun _ _ => within_pure rfl
  | temp t =>
    rw [cover]
    split
    · exact within_pure rfl
    · have fresh : Local S (freshTemp r.host t) := by
        unfold freshTemp
        split
        · exact local_newNamedTemp inside _
        · exact local_newTemp inside
        · exact local_newTemp inside
      exact fresh.bind fun _ _ => within_pure rfl

theorem local_coverAll (ms : List Mention) (r : Renaming) (inside : S r.host) :
    Local S (r.coverAll ms) := by
  induction ms generalizing r with
  | nil => exact within_pure trivial
  | cons m rest ih =>
    exact (within_cover r inside m).bind fun next host => ih next (host ▸ inside)

end Renaming

end ClosureIR
