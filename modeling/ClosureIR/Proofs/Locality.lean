import ClosureIR.Proofs.Identity
import ClosureIR.Proofs.Lexical.Chain

/-!
# Requests change one scope

The arena is append-only: a scope that is there stays what it was made as, keeps
its instructions and parameters in front of those to come, and hands out nothing
twice.  A request changes at most one such scope, known before it is answered,
and of this scope only the part that the request is about.
-/

namespace ClosureIR

open BuildM Relation

namespace Scope

variable {id : ScopeId} {s t u : Scope} {deed : Deed}

structure Extends (s t : Scope) : Prop where
  core : t.core = s.core
  instrs : s.instrs <+: t.instrs
  blockArgs : s.blockArgs <+: t.blockArgs
  slots : s.locals.nextSlot ≤ t.locals.nextSlot
  names : ∀ stem, s.names.getD stem 0 ≤ t.names.getD stem 0
  temporaries : s.temporaries ≤ t.temporaries
  closures : s.closures ≤ t.closures
  inlined : s.isInlined = true → t.isInlined = true

namespace Extends

theorem refl (s : Scope) : s.Extends s :=
  ⟨rfl, List.prefix_refl _, List.prefix_refl _, Nat.le_refl _, fun _ => Nat.le_refl _, Nat.le_refl _,
    Nat.le_refl _, fun dead => dead⟩

theorem trans (first : s.Extends t) (second : t.Extends u) : s.Extends u where
  core := second.core.trans first.core
  instrs := first.instrs.trans second.instrs
  blockArgs := first.blockArgs.trans second.blockArgs
  slots := Nat.le_trans first.slots second.slots
  names stem := Nat.le_trans (first.names stem) (second.names stem)
  temporaries := Nat.le_trans first.temporaries second.temporaries
  closures := Nat.le_trans first.closures second.closures
  inlined := fun dead => second.inlined (first.inlined dead)

/-- Moving counters on only adds to a scope. -/
theorem of_counters {table : LocalTable} {names : Dict String Nat} {temporaries closures : Nat}
    {graph : Option Graph} (slots : s.locals.nextSlot ≤ table.nextSlot)
    (named : ∀ stem, s.names.getD stem 0 ≤ names.getD stem 0) (temped : s.temporaries ≤ temporaries)
    (counted : s.closures ≤ closures) :
    s.Extends { s with locals := table, names, temporaries, closures, graph } :=
  ⟨rfl, List.prefix_refl _, List.prefix_refl _, slots, named, temped, counted, fun dead => dead⟩

/-- So do more instructions. -/
theorem of_instrs (is : List Instr) : s.Extends { s with instrs := s.instrs ++ is } :=
  ⟨rfl, List.prefix_append _ _, List.prefix_refl _, Nat.le_refl _, fun _ => Nat.le_refl _,
    Nat.le_refl _, Nat.le_refl _, fun dead => dead⟩

/-- So does a change of what only closures have that takes no parameter back and revives none. -/
theorem withClosure {f : ClosureData → ClosureData} (same : ∀ data, (f data).core = data.core)
    (received : ∀ data, data.blockArgs <+: (f data).blockArgs)
    (ended : ∀ data, data.isInlined = true → (f data).isInlined = true) :
    s.Extends (s.withClosure f) where
  core := core_withClosure same
  instrs := List.prefix_refl _
  blockArgs := by
    cases closed : s.closure with
    | none => simp [Scope.blockArgs, Scope.withClosure, closed]
    | some data => simpa [Scope.blockArgs, Scope.withClosure, closed] using received data
  slots := Nat.le_refl _
  names _ := Nat.le_refl _
  temporaries := Nat.le_refl _
  closures := Nat.le_refl _
  inlined := by
    cases closed : s.closure with
    | none => simp [Scope.isInlined, closed]
    | some data => simpa [Scope.isInlined, Scope.withClosure, closed] using ended data

end Extends

/-- Edits only add to a scope. -/
theorem Edit.extended (edited : s.Edit id deed t) : s.Extends t := by
  have same := Nat.le_refl
  cases edited with
  | @name stem _ _ minted =>
    obtain ⟨-, -, rfl⟩ := mintName?_eq_some_iff.1 minted
    refine .of_counters (same _) (fun other => ?_) (same _) (same _)
    by_cases equal : other = stem
    · subst equal
      simp [Dict.getD]
    · simp [Dict.getD, Dict.get?_insert_of_ne _ _ equal]
  | temporary minted =>
    obtain ⟨-, -, rfl⟩ := mintTempIndex?_eq_some_iff.1 minted
    exact .of_counters (same _) (fun _ => same _) (Nat.le_succ _) (same _)
  | number minted =>
    obtain ⟨-, -, rfl⟩ := mintClosureNumber?_eq_some_iff.1 minted
    exact .of_counters (same _) (fun _ => same _) (same _) (Nat.le_succ _)
  | declare site stored =>
    obtain ⟨slot, next, rfl⟩ := Option.map_eq_some_iff.1 stored
    obtain ⟨rfl, -⟩ := Counter.next?_eq_some_iff.1 next
    exact .of_counters (Nat.le_succ _) (fun _ => same _) (same _) (same _)
  | overflow | graph => exact .of_counters (same _) (fun _ => same _) (same _) (same _)
  | append i =>
    have received : s.Extends (s.withClosure fun data =>
        { data with blockArgs := data.blockArgs ++ i.parameter?.toList }) :=
      .withClosure (fun _ => rfl) (fun _ => List.prefix_append _ _) fun _ dead => dead
    exact received.trans (.of_instrs [i])
  | inline => exact .withClosure (fun _ => rfl) (fun _ => List.prefix_refl _) fun _ _ => rfl
  | parameters names =>
    exact .withClosure (fun _ => rfl) (fun _ => List.prefix_refl _) fun _ dead => dead

theorem lasting_extends : Lasting Extends where
  refl := .refl
  trans := .trans
  edit edited := edited.extended
  counted _ _ :=
    .of_counters (Nat.le_refl _) (fun _ => Nat.le_refl _) (Nat.le_refl _) (Nat.le_add_right ..)

end Scope

namespace Program

variable {p q : Program} {id x : ScopeId} {s t : Scope} {may : ScopeId → Deed → Prop}

/-- Elementary changes do nothing to a scope that is there but edit it as they are allowed to. -/
theorem Change.exists_edits (change : p.Change may q) (found : p.scope? x = some s) :
    ∃ t, q.scope? x = some t ∧
      ReflTransGen (fun s t => ∃ deed, may x deed ∧ s.Edit x deed t) s t := by
  -- An edit may be of the scope itself or of another.
  have edited {id : ScopeId} {deed : Deed} {u after : Scope} (there : p.scope? id = some u)
      (edit : u.Edit id deed after) (allowed : may id deed) :
      ∃ t, (p.replace id after).scope? x = some t ∧
        ReflTransGen (fun s t => ∃ deed, may x deed ∧ s.Edit x deed t) s t := by
    by_cases here : x = id
    · subst here
      cases found.symm.trans there
      exact ⟨after, scope?_replace_self found after, .single ⟨deed, allowed, edit⟩⟩
    · refine ⟨s, ?_, .refl⟩
      rw [scope?_replace, if_neg here, found]
  have old {p : Program} {s : Scope} (found : p.scope? x = some s) (c : Scope) :
      (p.push c).scope? x = some s := by
    rw [scope?_push_of_ne, found]
    rintro rfl
    exact Nat.lt_irrefl _ (lt_size_of_scope? found)
  cases change with
  | edit there edit allowed => exact edited there edit allowed
  | script fileName => exact ⟨s, old found _, .refl⟩
  | method around name line static => exact ⟨s, old found _, .refl⟩
  | block around nearest host minted deep forLoop line static signature allowed =>
    obtain ⟨t, there, edits⟩ := edited host (.number minted) allowed
    exact ⟨t, old there _, edits⟩
  | evalUnit nearest host minted deep fileName line static stem allowed =>
    obtain ⟨t, there, edits⟩ := edited host (.number minted) allowed
    exact ⟨t, old there _, edits⟩

theorem Changes.exists_edits (changes : p.Changes may q) (found : p.scope? x = some s) :
    ∃ t, q.scope? x = some t ∧
      ReflTransGen (fun s t => ∃ deed, may x deed ∧ s.Edit x deed t) s t := by
  induction changes with
  | refl => exact ⟨s, found, .refl⟩
  | tail _ last ih =>
    obtain ⟨t, there, edits⟩ := ih
    obtain ⟨u, here, more⟩ := last.exists_edits there
    exact ⟨u, here, edits.trans more⟩

def declares? (p : Program) (id : ScopeId) (depth : Nat) : Option ScopeId :=
  (p.declarationSite id depth).toOption.map (·.1)

/-- The scope that declares the block for `id`: the method, or what declares the locals of `id`. -/
def declaresBlock? (p : Program) (id : ScopeId) : Option ScopeId :=
  match p.nearestFlat id with
  | .ok flat => if (p.scope? flat).any (·.kind = .method) then some flat else p.declares? id 0
  | .error _ => none

theorem DeclaresFrom.declares?_eq {depth : Nat} (declares : p.DeclaresFrom id depth x) :
    p.declares? id depth = some x := by
  obtain ⟨-, kind, walk⟩ := declares
  rw [Program.declares?, walk]
  rfl

/-- A closure asks one scope to declare the block. -/
theorem changes_implicitBlock_in_place (p : Program) (id : ScopeId) :
    (implicitBlock id).Leaves p (p.Changes fun x deed =>
      (Request.implicitBlock id).may p x deed ∧ p.declaresBlock? id = some x) := by
  refine yields_bind.2 (yields_ask_bind.2 ⟨fun s _ => ?_, fun _ _ => .refl⟩)
  split
  · refine yields_ask_bind.2 ⟨fun bound _ => ?_, fun _ _ => .refl⟩
    split
    · exact .refl
    · refine yields_ask_bind.2 ⟨fun flat nearest => ?_, fun _ _ => .refl⟩
      refine yields_ask_bind.2 ⟨fun t there => ?_, fun _ _ => .refl⟩
      have found := scope_eq_ok_iff.1 there
      obtain ⟨_, there', outer⟩ := flat_of_nearestFlat nearest
      cases found.symm.trans there'
      split
      · rename_i method
        refine yields_bind.2 (Leaves.weaken (changes_newLocal flat p blockName 0) fun q changes => ?_)
        refine changes.mono ?_
        rintro x deed ⟨declare, declares⟩
        refine ⟨⟨declare, .inl ⟨flat, nearest, declares⟩⟩, ?_⟩
        cases declares.eq_of_flat found outer
        simp [declaresBlock?, nearest, found, method]
      · rename_i other
        refine Leaves.weaken (changes_newLocal id p blockName 0) fun q changes => ?_
        refine changes.mono ?_
        rintro x deed ⟨declare, declares⟩
        refine ⟨⟨declare, .inr declares⟩, ?_⟩
        simp [declaresBlock?, nearest, found, other, declares.declares?_eq]
  · exact .refl

end Program

namespace Request

open Program

variable {α : Type} {p : Program} {x : ScopeId} {s t : Scope} {deed : Deed}

/-- The scope that is there and that a request may change; there is no other. -/
def place? (p : Program) : Request α → Option ScopeId
  | newScript _ | newMethod _ _ _ _ => none
  | newClosure parent _ _ _ _ | newEvalUnit parent _ _ _ _ | newClosureNumber parent
  | cloneClosure _ parent => (p.nearestFlat parent).toOption
  | cloneUnder r _ | cloneOperand r _ | cloneGuard r _ | cloneInstr r _ | cloneGraph r _ _ =>
    (p.nearestFlat r.host).toOption
  | markInlined id | setParameters id _ | newLabel id | newLabelWith id _ | newTemp id
  | newNamedTemp id _ | newFlip id | addInstr id _ | buildGraph id => some id
  | newLocal id _ depth => p.declares? id depth
  | getLocal id _ depth => (p.lookupSite id).toOption.bind (p.declares? · depth)
  | implicitBlock id => p.declaresBlock? id
  | prepare r _ => some r.host

/-- What a request leaves as it is in the scope that it changes. -/
def spares : Request α → Scope → Scope
  | newScript _, s | newMethod _ _ _ _, s => s
  | newClosure _ _ _ _ _, s | newEvalUnit _ _ _ _ _, s | newClosureNumber _, s | cloneClosure _ _, s
  | cloneUnder _ _, s | cloneOperand _ _, s | cloneGuard _ _, s | cloneInstr _ _, s
  | cloneGraph _ _ _, s => { s with closures := 0 }
  | markInlined _, s => s.withClosure fun data => { data with isInlined := false }
  | setParameters _ _, s => s.withClosure fun data => { data with parameters := [] }
  | newLabel _, s | newLabelWith _ _, s => { s with names := ∅ }
  | newTemp _, s | newNamedTemp _ _, s => { s with temporaries := 0 }
  | newLocal _ _ _, s | getLocal _ _ _, s | implicitBlock _, s => { s with locals := {} }
  | newFlip _, s => { s with names := ∅, locals := {} }
  | addInstr _ _, s => { s.withClosure fun data => { data with blockArgs := [] } with instrs := [] }
  | buildGraph _, s => { s with names := ∅, graph := none }
  | prepare _ _, s => { s with names := ∅, temporaries := 0 }

def asksLocal? : Request α → Option ScopeId
  | newLocal id _ _ | getLocal id _ _ | newFlip id | implicitBlock id => some id
  | _ => none

/-- Elementary changes are made in one place. -/
theorem changes_in_place (r : Request α) (makes : r.cloneHost? = none) (p : Program) :
    r.run.Leaves p (p.Changes fun x deed => r.may p x deed ∧ r.place? p = some x) := by
  have weaken {α : Type} {r : Request α} (makes : r.cloneHost? = none)
      (places : ∀ x deed, r.may p x deed → r.place? p = some x) :
      r.run.Leaves p (p.Changes fun x deed => r.may p x deed ∧ r.place? p = some x) :=
    Leaves.weaken (r.changes makes p) fun q changes =>
      changes.mono fun x deed may => ⟨may, places x deed may⟩
  cases r with
  | newScript | newMethod => exact weaken rfl fun _ _ never => never.elim
  | newClosure | newEvalUnit | newClosureNumber =>
    exact weaken rfl fun _ _ ⟨nearest, _⟩ => by rw [place?, nearest]; rfl
  | markInlined | setParameters | newLabel | newLabelWith | newTemp | newNamedTemp | newFlip
  | addInstr | buildGraph | prepare =>
    exact weaken rfl fun _ _ ⟨here, _⟩ => by rw [here]; rfl
  | newLocal => exact weaken rfl fun _ _ ⟨_, declares⟩ => declares.declares?_eq
  | getLocal =>
    refine weaken rfl fun _ _ ⟨_, host, enters, declares⟩ => ?_
    rw [place?, enters]
    exact declares.declares?_eq
  | implicitBlock id => exact changes_implicitBlock_in_place p id
  | cloneClosure | cloneUnder | cloneOperand | cloneGuard | cloneInstr | cloneGraph => cases makes

/-- An edit that a request may make spares what the request spares. -/
theorem spares_eq_of_may {r : Request α} (may : r.may p x deed) (edited : s.Edit x deed t) :
    r.spares t = r.spares s := by
  -- What is read off the deeds: each leaves all parts but one as they are.
  have named (edited : s.Edit x .name t) : ∃ names, t = { s with names } := by
    cases edited with
    | name minted => exact ⟨_, (Scope.mintName?_eq_some_iff.1 minted).2.2⟩
  have temped (edited : s.Edit x .temporary t) : ∃ temporaries, t = { s with temporaries } := by
    cases edited with
    | temporary minted => exact ⟨_, (Scope.mintTempIndex?_eq_some_iff.1 minted).2.2⟩
  have declared (edited : s.Edit x .declare t) : ∃ table, t = { s with locals := table } := by
    cases edited <;> exact ⟨_, rfl⟩
  cases r with
  | newScript | newMethod => exact may.elim
  | newClosure | newEvalUnit | newClosureNumber | cloneClosure | cloneUnder | cloneOperand
  | cloneGuard | cloneInstr | cloneGraph =>
    obtain ⟨-, rfl⟩ := may
    cases edited with
    | number minted =>
      obtain ⟨-, -, rfl⟩ := Scope.mintClosureNumber?_eq_some_iff.1 minted
      rfl
  | newLabel | newLabelWith =>
    obtain ⟨-, rfl⟩ := may
    obtain ⟨names, rfl⟩ := named edited
    rfl
  | newTemp | newNamedTemp =>
    obtain ⟨-, rfl⟩ := may
    obtain ⟨temporaries, rfl⟩ := temped edited
    rfl
  | newLocal | getLocal | implicitBlock =>
    obtain ⟨rfl, -⟩ := may
    obtain ⟨table, rfl⟩ := declared edited
    rfl
  | newFlip =>
    obtain ⟨-, -, rfl | rfl⟩ := may
    · obtain ⟨names, rfl⟩ := named edited
      rfl
    · obtain ⟨table, rfl⟩ := declared edited
      rfl
  | prepare =>
    obtain ⟨-, rfl | rfl⟩ := may
    · obtain ⟨names, rfl⟩ := named edited
      rfl
    · obtain ⟨temporaries, rfl⟩ := temped edited
      rfl
  | buildGraph =>
    obtain ⟨-, rfl | rfl⟩ := may
    · obtain ⟨names, rfl⟩ := named edited
      rfl
    · cases edited
      rfl
  | addInstr | markInlined | setParameters =>
    obtain ⟨-, rfl⟩ := may
    cases edited
    cases closed : s.closure <;> simp [spares, Scope.append, Scope.withClosure, closed]

/-- A request changes no scope that is there but one, and of that one spares what it should. -/
theorem spares_or_eq (formed : p.WellFormed) (r : Request α) (found : p.scope? x = some s)
    (there : (p.after r.run).scope? x = some t) :
    t = s ∨ (r.place? p = some x ∧ r.spares t = r.spares s) := by
  cases copies : r.cloneHost? with
  | none =>
    obtain ⟨t', there', edits⟩ := Changes.exists_edits (r.changes_in_place copies p).after found
    cases there.symm.trans there'
    clear there there'
    induction edits with
    | refl => exact .inl rfl
    | tail _ last ih =>
      obtain ⟨deed, ⟨may, place⟩, edited⟩ := last
      have spared := spares_eq_of_may may edited
      right
      obtain rfl | ⟨-, before⟩ := ih
      · exact ⟨place, spared⟩
      · exact ⟨place, spared.trans before⟩
  | some host =>
    obtain same | ⟨flat, nearest, cloning⟩ := formed.clonesUnder (r.clones copies p).after
    · rw [after, same, found] at there
      cases there
      exact .inl rfl
    · have grown := (cloning.grown (formed.hosts nearest)).old x s found
      cases there.symm.trans grown
      split
      · rename_i here
        subst here
        right
        cases r with
        | cloneClosure | cloneUnder | cloneOperand | cloneGuard | cloneInstr | cloneGraph =>
          cases copies
          rw [place?, nearest]
          exact ⟨rfl, rfl⟩
        | _ => cases copies
      · exact .inl rfl

/-- A local is declared on the chain of the scope that is asked for it. -/
theorem mem_chain_of_place? (formed : p.WellFormed) (r : Request α) {id : ScopeId}
    (asks : r.asksLocal? = some id) (place : r.place? p = some x) (found : p.scope? x = some s) :
    ∃ chain, p.Chain id chain ∧ x ∈ chain := by
  have declared {id : ScopeId} {depth : Nat} (declares : p.declares? id depth = some x) :
      ∃ chain, p.Chain id chain ∧ x ∈ chain := by
    obtain ⟨⟨site, kind⟩, walk, rfl⟩ := Option.map_eq_some_iff.1 declares
    exact formed.exists_chain_declarationSite (toOption_eq_some_iff.1 walk)
  cases r with
  | newLocal =>
    cases asks
    exact declared place
  | getLocal =>
    cases asks
    obtain ⟨host, enters, declares⟩ := Option.bind_eq_some_iff.1 place
    obtain ⟨chain, chained, member⟩ := formed.exists_chain_lookupSite (toOption_eq_some_iff.1 enters)
    obtain ⟨chain', chained', member'⟩ := declared declares
    exact ⟨chain, chained, chained.mem_of_mem member chained' member'⟩
  | newFlip =>
    cases asks
    cases place
    obtain ⟨chain, chained⟩ := formed.exists_chain found
    exact ⟨chain, chained, chained.self_mem⟩
  | implicitBlock =>
    cases asks
    rw [place?, declaresBlock?] at place
    split at place
    · rename_i flat nearest
      split at place
      · cases place
        obtain ⟨chain, chained, last⟩ := exists_chain_of_nearestFlat nearest
        exact ⟨chain, chained, List.mem_of_getLast? last⟩
      · exact declared place
    · cases place
  | _ => cases asks

end Request

namespace Program

variable {α : Type} {p : Program}

/--
Whatever is asked of a reachable program, and whatever the outcome, every scope
that is there stays what it was made as, keeps what was put into it in front of
what comes, and counts on.  It changes only where the request has its place, and
only in the part that the request is about; for a request of a local this is one
scope on the chain of the scope that is asked.
-/
theorem extends_in_one_place (reachable : p.Reachable) (r : Request α) :
    ∀ x s, p.scope? x = some s → ∃ t, (p.after r.run).scope? x = some t ∧ s.Extends t ∧
      (t ≠ s → r.place? p = some x ∧ r.spares t = r.spares s ∧
        ∀ id, r.asksLocal? = some id → ∃ chain, p.Chain id chain ∧ x ∈ chain) := by
  intro x s found
  have formed := reachable.wellFormed
  obtain ⟨t, there, extended⟩ := formed.tracks Scope.lasting_extends r x s found
  refine ⟨t, there, extended, fun changed => ?_⟩
  obtain rfl | ⟨place, spared⟩ := r.spares_or_eq formed found there
  · exact absurd rfl changed
  · exact ⟨place, spared, fun id asks => r.mem_chain_of_place? formed asks place found⟩

/-- The loop body asks for a local, and the closure around it alone gets one. -/
theorem extends_in_one_place_loopInClosure :
    ∃ s t, loopInClosure.scope? ⟨1⟩ = some s ∧
      (loopInClosure.after (newLocal ⟨2⟩ "y" 0)).scope? ⟨1⟩ = some t ∧ t ≠ s ∧ s.Extends t ∧
      { t with locals := {} } = { s with locals := {} } ∧
      ∃ chain, loopInClosure.Chain ⟨2⟩ chain ∧ ⟨1⟩ ∈ chain := by
  have bare : (loopInClosure.scope? ⟨1⟩).any (fun s => (s.locals.get? "y").isNone) = true := by
    decide +kernel
  have bound : ((loopInClosure.after (newLocal ⟨2⟩ "y" 0)).scope? ⟨1⟩).any
      (fun t => (t.locals.get? "y").isSome) = true := by decide +kernel
  obtain ⟨s, found, unbound⟩ := (Option.any_eq_true _ _).1 bare
  obtain ⟨t, there, extended, inPlace⟩ :=
    extends_in_one_place reachable_loopInClosure (.newLocal ⟨2⟩ "y" 0) ⟨1⟩ s found
  obtain ⟨t', there', declared⟩ := (Option.any_eq_true _ _).1 bound
  cases there.symm.trans there'
  have changed : t ≠ s := by
    rintro rfl
    rw [Option.isSome_iff_ne_none] at declared
    exact declared (Option.isNone_iff_eq_none.1 unbound)
  obtain ⟨-, spared, chained⟩ := inPlace changed
  exact ⟨s, t, found, there, changed, extended, spared, chained ⟨2⟩ rfl⟩

end Program

end ClosureIR
