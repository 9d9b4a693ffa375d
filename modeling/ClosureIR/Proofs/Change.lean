import ClosureIR.Program.Flow
import ClosureIR.Renaming.Prepare
import ClosureIR.Proofs.Lexical.Step
import Mathlib.Logic.Relation

/-!
# Elementary changes

Whatever an operation does to a program, it does in elementary changes: it
edits one scope that is there, or it adds one.  An invariant that every change
keeps holds after every operation, also after one that fails half way.  Which
scopes an operation edits, and how, is said along with it.
-/

namespace ClosureIR

open Relation

inductive Deed where
  | name
  | temporary
  | number
  | declare
  | append (i : Instr)
  | graph
  | inline
  | parameters

def Deed.Counts : Deed → Prop
  | .name | .temporary | .number => True
  | _ => False

namespace Scope

/-- What may become of the scope at place `id` in one go. -/
inductive Edit (id : ScopeId) (s : Scope) : Deed → Scope → Prop where
  | name {stem name : String} {after : Scope} (minted : s.mintName? stem = some (name, after))
      (free : s.isClosure = true → s.isInlined = false) : Edit id s .name after
  | temporary {index : Nat} {after : Scope} (minted : s.mintTempIndex? = some (index, after))
      (free : s.isClosure = true → s.isInlined = false) : Edit id s .temporary after
  | number {n : Nat} {after : Scope} (minted : s.mintClosureNumber? = some (n, after)) :
      Edit id s .number after
  | declare {name : String} {kind : LocalKind} {table : LocalTable}
      (site : s.kind.declares? = some kind)
      (stored : (s.locals.store ⟨name, 0, s.locals.nextSlot, id, kind⟩).advance? = some table) :
      Edit id s .declare { s with locals := table }
  /-- A declaration whose slot was the last one. -/
  | overflow {name : String} {kind : LocalKind} (site : s.kind.declares? = some kind)
      (full : (s.locals.store ⟨name, 0, s.locals.nextSlot, id, kind⟩).advance? = none) :
      Edit id s .declare { s with locals := s.locals.store ⟨name, 0, s.locals.nextSlot, id, kind⟩ }
  | append (i : Instr) (live : s.isInlined = false) : Edit id s (.append i) (s.append i)
  | graph {fresh : Nat → Label} {g : Graph} (live : s.isInlined = false)
      (built : Graph.build id s.name s.instrs fresh = .ok g) :
      Edit id s .graph { s with graph := some g }
  | inline : Edit id s .inline (s.withClosure fun data => { data with isInlined := true })
  | parameters (names : List String) :
      Edit id s .parameters (s.withClosure fun data => { data with parameters := names })

/-- Whatever a scope hands out, only its counters move on. -/
theorem Edit.of_counts {id : ScopeId} {s after : Scope} {deed : Deed} (edited : s.Edit id deed after)
    (counts : deed.Counts) : ∃ names temporaries closures, s.closures ≤ closures ∧
      after = { s with names, temporaries, closures } := by
  cases edited with
  | name minted =>
    obtain ⟨-, -, rfl⟩ := mintName?_eq_some_iff.1 minted
    exact ⟨_, _, _, Nat.le_refl _, rfl⟩
  | temporary minted =>
    obtain ⟨-, -, rfl⟩ := mintTempIndex?_eq_some_iff.1 minted
    exact ⟨_, _, _, Nat.le_refl _, rfl⟩
  | number minted =>
    obtain ⟨-, -, rfl⟩ := mintClosureNumber?_eq_some_iff.1 minted
    exact ⟨_, _, _, Nat.le_succ _, rfl⟩
  | _ => cases counts

end Scope

namespace Program

/--
One elementary change, with an edit that is allowed.  A closure is added
together with the number that it takes.
-/
inductive Change (may : ScopeId → Deed → Prop) (p : Program) : Program → Prop where
  | edit {id : ScopeId} {deed : Deed} {s after : Scope} (found : p.scope? id = some s)
      (edit : s.Edit id deed after) (allowed : may id deed) : Change may p (p.replace id after)
  | script (fileName : String) : Change may p (p.push (.ofScript fileName p.nextId))
  | method {parent : ScopeId} {around : Scope} (found : p.scope? parent = some around)
      (name : String) (line : Nat) (static : Option StaticScope) :
      Change may p (p.push (.ofMethod parent around.fileName name line static p.nextId))
  | block {parent flat : ScopeId} {around outer after : Scope} {number depth : Nat}
      (found : p.scope? parent = some around) (nearest : p.nearestFlat parent = .ok flat)
      (host : p.scope? flat = some outer) (minted : outer.mintClosureNumber? = some (number, after))
      (deep : (p.replace flat after).depthUnder parent = .ok depth) (forLoop : Bool) (line : Nat)
      (static : Option StaticScope) (signature : BlockSignature) (allowed : may flat .number) :
      Change may p ((p.replace flat after).push
        (.ofBlock p.options parent around.fileName forLoop line static signature number depth
          p.nextId))
  | evalUnit {parent flat : ScopeId} {outer after : Scope} {number depth : Nat}
      (nearest : p.nearestFlat parent = .ok flat) (host : p.scope? flat = some outer)
      (minted : outer.mintClosureNumber? = some (number, after))
      (deep : (p.replace flat after).depthUnder parent = .ok depth) (fileName : String) (line : Nat)
      (static : Option StaticScope) (stem : String) (allowed : may flat .number) :
      Change may p ((p.replace flat after).push
        (.ofEvalUnit parent fileName line static stem number depth p.nextId))

abbrev Changes (may : ScopeId → Deed → Prop) : Program → Program → Prop := ReflTransGen (Change may)

def anything (_ : ScopeId) (_ : Deed) : Prop := True

theorem Change.mono {may may' : ScopeId → Deed → Prop} {p q : Program} (change : p.Change may q)
    (weaker : ∀ x deed, may x deed → may' x deed) : p.Change may' q := by
  cases change with
  | edit found edited allowed => exact .edit found edited (weaker _ _ allowed)
  | script fileName => exact .script fileName
  | method found name line static => exact .method found name line static
  | block found nearest host minted deep forLoop line static signature allowed =>
    exact .block found nearest host minted deep forLoop line static signature (weaker _ _ allowed)
  | evalUnit nearest host minted deep fileName line static stem allowed =>
    exact .evalUnit nearest host minted deep fileName line static stem (weaker _ _ allowed)

theorem Changes.mono {may may' : ScopeId → Deed → Prop} {p q : Program} (changes : p.Changes may q)
    (weaker : ∀ x deed, may x deed → may' x deed) : p.Changes may' q :=
  ReflTransGen.mono (fun _ _ change => change.mono weaker) _ _ changes

theorem replace_replace (p : Program) (id : ScopeId) (s t : Scope) :
    (p.replace id s).replace id t = p.replace id t := by
  rw [replace, replace, Array.setIfInBounds_setIfInBounds]
  rfl

theorem scope?_replace_self {p : Program} {id : ScopeId} {s : Scope} (found : p.scope? id = some s)
    (t : Scope) : (p.replace id t).scope? id = some t := by
  simp [scope?_replace, found]

end Program

namespace BuildM

open Program

variable {α β : Type} {p : Program}

theorem yields_mint {good : α → Program → Prop} {bad : Fault → Program → Prop} {id : ScopeId}
    {f : Scope → Option (α × Scope)}
    (minted : ∀ s a after, p.scope? id = some s → f s = some (a, after) →
      good a (p.replace id after))
    (full : ∀ s, p.scope? id = some s → f s = none → bad (.misused .wordOverflow) p)
    (missing : p.scope? id = none → bad (.misused (.noSuchScope p.scopes.size id.index)) p) :
    (mint id f).Yields p good bad := by
  refine yields_ask_bind.2 ⟨fun s found => ?_, fun m absent => ?_⟩
  · rw [scope_eq_ok_iff] at found
    cases handed : f s with
    | none => simpa [handed] using full s found handed
    | some given =>
      simp only
      exact minted s given.1 given.2 found (by rw [handed])
  · obtain ⟨nowhere, rfl⟩ := scope_eq_error_iff.1 absent
    exact missing nowhere

abbrev Leaves (op : BuildM α) (p : Program) (left : Program → Prop) : Prop :=
  op.Yields p (fun _ q => left q) fun _ q => left q

theorem Leaves.weaken {op : BuildM α} {left left' : Program → Prop} (leaves : op.Leaves p left)
    (weaker : ∀ q, left q → left' q) : op.Leaves p left' :=
  Yields.mono leaves (fun _ => weaker) fun _ => weaker

/-- Whatever its outcome, all that the operation does is a row of steps. -/
def Through (R : Program → Program → Prop) (op : BuildM α) : Prop :=
  ∀ p, op.Leaves p fun q => ReflTransGen R p q

abbrev Elementary (may : ScopeId → Deed → Prop) (op : BuildM α) : Prop := op.Through (Change may)

section Through

variable {R R' : Program → Program → Prop}

theorem Through.mono {op : BuildM α} (through : op.Through R) (weaker : ∀ p q, R p q → R' p q) :
    op.Through R' :=
  fun p => (through p).mono (fun _ _ => ReflTransGen.mono weaker _ _)
    fun _ _ => ReflTransGen.mono weaker _ _

theorem Through.bind {op : BuildM α} {next : α → BuildM β} (first : op.Through R)
    (others : ∀ a, (next a).Through R) : (op >>= next).Through R := by
  intro p
  refine yields_bind.2 ((first p).mono (fun a q done => ?_) fun _ _ done => done)
  exact (others a q).mono (fun _ _ more => done.trans more) fun _ _ more => done.trans more

theorem through_pure (a : α) : (pure a : BuildM α).Through R := fun _ => .refl

theorem through_refuse (r : Refusal) : (refuse r : BuildM α).Through R := fun _ => .refl

theorem through_ofMisuse (e : Except Misuse α) : (ofMisuse e).Through R :=
  fun _ => yields_ofMisuse.2 ⟨fun _ _ => .refl, fun _ _ => .refl⟩

theorem through_ask (f : Program → Except Misuse α) : (ask f).Through R :=
  fun _ => yields_ask.2 ⟨fun _ _ => .refl, fun _ _ => .refl⟩

end Through

/-- Handing something out is one edit, where the scope is there and its counter can move on. -/
theorem leaves_mint {may : ScopeId → Deed → Prop} {id : ScopeId} {f : Scope → Option (α × Scope)}
    {deed : Deed} (edits : ∀ (s : Scope) a after, p.scope? id = some s → f s = some (a, after) →
      s.Edit id deed after)
    (allowed : may id deed) : (mint id f).Leaves p (p.Changes may) :=
  yields_mint
    (fun s a after found minted => .single (.edit found (edits s a after found minted) allowed))
    (fun _ _ _ => .refl) fun _ => .refl

theorem elementary_adjust {may : ScopeId → Deed → Prop} {id : ScopeId} {f : Scope → Scope}
    {deed : Deed} (edits : ∀ s : Scope, s.Edit id deed (f s)) (allowed : may id deed) :
    (adjust id f).Elementary may := by
  intro p
  refine yields_ask_bind.2 ⟨fun s found => ?_, fun _ _ => .refl⟩
  exact .single (.edit (scope_eq_ok_iff.1 found) (edits s) allowed)

end BuildM

namespace Program

open BuildM

variable (id : ScopeId)

/-! ## Names, temporaries and closure numbers -/

theorem through_requireClosure {R : Program → Program → Prop} : (requireClosure id).Through R := by
  apply (through_ask _).bind
  intro s
  split
  · exact through_pure _
  · exact through_refuse _

theorem through_requireGraph {R : Program → Program → Prop} : (requireGraph id).Through R := by
  apply (through_ask _).bind
  intro s
  split
  · exact through_pure _
  · exact through_refuse _

/-- What a scope hands out after it was found alive. -/
theorem elementary_live_mint {α β : Type} {may : ScopeId → Deed → Prop}
    {f : Scope → Option (α × Scope)} {deed : Deed} {give : Scope → α → β}
    (edits : ∀ (s : Scope) a after, s.isInlined = false → f s = some (a, after) →
      s.Edit id deed after)
    (allowed : may id deed) :
    (do
      let s ← requireLive id
      let a ← mint id f
      return give s a : BuildM β).Elementary may := by
  intro p
  refine yields_ask_bind.2 ⟨fun s alive => ?_, fun _ _ => .refl⟩
  obtain ⟨found, live⟩ := liveScope_eq_ok_iff.1 alive
  refine yields_bind.2 (leaves_mint (fun t a after there minted => ?_) allowed)
  cases found.symm.trans there
  exact edits s a after live minted

theorem elementary_newLabelWith (stem : String) :
    (newLabelWith id stem).Elementary fun x deed => x = id ∧ deed = .name :=
  elementary_live_mint id (fun _ _ _ live minted => .name minted fun _ => live) ⟨rfl, rfl⟩

theorem elementary_newLabel : (newLabel id).Elementary fun x deed => x = id ∧ deed = .name :=
  (through_ask _).bind fun _ => elementary_newLabelWith id _

theorem elementary_newLabels (n : Nat) :
    (newLabels id n).Elementary fun x deed => x = id ∧ deed = .name := by
  induction n with
  | zero => exact through_pure _
  | succ n ih => exact (elementary_newLabel id).bind fun _ => ih.bind fun _ => through_pure _

theorem elementary_newTemp : (newTemp id).Elementary fun x deed => x = id ∧ deed = .temporary :=
  elementary_live_mint id (fun _ _ _ live minted => .temporary minted fun _ => live) ⟨rfl, rfl⟩

theorem elementary_newNamedTemp (name : String) :
    (newNamedTemp id name).Elementary fun x deed => x = id ∧ deed = .temporary :=
  elementary_live_mint id (fun _ _ _ live minted => .temporary minted fun _ => live) ⟨rfl, rfl⟩

variable (p : Program)

theorem changes_newClosureNumber : (newClosureNumber id).Leaves p
    (p.Changes fun x deed => p.nearestFlat id = .ok x ∧ deed = .number) :=
  yields_ask_bind.2 ⟨fun _ nearest =>
    leaves_mint (fun _ _ _ _ minted => .number minted) ⟨nearest, rfl⟩, fun _ _ => .refl⟩

/-! ## Locals -/

def DeclaresFrom (p : Program) (id : ScopeId) (depth : Nat) (site : ScopeId) : Prop :=
  (∃ s, p.liveScope id = .ok s) ∧ ∃ kind, p.declarationSite id depth = .ok (site, kind)

/-- The declaration of a local, where the scope is there: its two writes are one. -/
theorem yields_declare (id : ScopeId) {p : Program} {s : Scope} {name : String} {kind : LocalKind}
    {good : LocalVar → Program → Prop} {bad : Fault → Program → Prop} (found : p.scope? id = some s)
    (stored : ∀ table, (s.locals.store ⟨name, 0, s.locals.nextSlot, id, kind⟩).advance? = some table →
      good ⟨name, 0, s.locals.nextSlot, id, kind⟩ (p.replace id { s with locals := table }))
    (full : (s.locals.store ⟨name, 0, s.locals.nextSlot, id, kind⟩).advance? = none →
      bad (.misused .wordOverflow)
        (p.replace id { s with locals := s.locals.store ⟨name, 0, s.locals.nextSlot, id, kind⟩ })) :
    (declare id name kind).Yields p good bad := by
  refine yields_ask_bind.2 ⟨fun t there => ?_, fun _ missing => ?_⟩
  · cases found.symm.trans (scope_eq_ok_iff.1 there)
    apply yields_bind.2
    rw [yields_store]
    split
    · rename_i table advanced
      rw [yields_bind, yields_store, replace_replace]
      exact stored table advanced
    · rename_i overflow
      exact full overflow
  · cases found.symm.trans (scope_eq_error_iff.1 missing).1

theorem changes_newLocal (name : String) (depth : Nat) : (newLocal id name depth).Leaves p
    (p.Changes fun x deed => deed = .declare ∧ p.DeclaresFrom id depth x) := by
  refine yields_ask_bind.2 ⟨fun s live => yields_ask_bind.2 ⟨?_, fun _ _ => .refl⟩, fun _ _ => .refl⟩
  rintro ⟨site, kind⟩ walk
  obtain ⟨t, found, declares⟩ := declares?_of_declarationSite walk
  have allowed : Deed.declare = .declare ∧ p.DeclaresFrom id depth site :=
    ⟨rfl, ⟨s, live⟩, kind, walk⟩
  apply yields_declare site found
  · exact fun table stored => .single (.edit found (.declare declares stored) allowed)
  · exact fun full => .single (.edit found (.overflow declares full) allowed)

theorem changes_findOrDeclare (name : String) (depth : Nat) : (findOrDeclare id name depth).Leaves p
    (p.Changes fun x deed => deed = .declare ∧ p.DeclaresFrom id depth x) := by
  refine yields_ask_bind.2 ⟨fun bound _ => ?_, fun _ _ => .refl⟩
  split
  · exact .refl
  · exact changes_newLocal id p name depth

theorem changes_getLocal (name : String) (depth : Nat) : (getLocal id name depth).Leaves p
    (p.Changes fun x deed =>
      deed = .declare ∧ ∃ host, p.lookupSite id = .ok host ∧ p.DeclaresFrom host depth x) := by
  refine yields_ask_bind.2 ⟨fun host enters => ?_, fun _ _ => .refl⟩
  refine yields_ask_bind.2 ⟨fun s _ => yields_bind.2 ?_, fun _ _ => .refl⟩
  refine Leaves.weaken (changes_findOrDeclare host p name depth) fun q changes => changes.mono ?_
  exact fun _ _ => And.imp_right fun declares => ⟨host, enters, declares⟩

/-- A method or script declares its locals itself. -/
theorem DeclaresFrom.eq_of_flat {id site : ScopeId} {p : Program} {s : Scope} {depth : Nat}
    (declares : p.DeclaresFrom id depth site) (found : p.scope? id = some s)
    (flat : s.isClosure = false) : site = id := by
  obtain ⟨-, kind, walk⟩ := declares
  have ends : s.kind.climb? depth = none := by
    cases climbs : s.kind.climb? depth with
    | none => rfl
    | some left =>
      have closed : s.isClosure = true := ScopeKind.isClosure_of_climb? climbs
      rw [flat] at closed
      cases closed
  obtain ⟨_, may⟩ := ScopeKind.exists_declares? ends
  cases (declarationSite_of_end found ends may).symm.trans walk
  rfl

theorem changes_newFlip : (newFlip id).Leaves p (p.Changes fun x deed =>
    x = id ∧ (∃ s, p.scope? id = some s ∧ s.isClosure = false) ∧
      (deed = .name ∨ deed = .declare)) := by
  refine yields_ask_bind.2 ⟨fun s there => ?_, fun _ _ => .refl⟩
  have found := scope_eq_ok_iff.1 there
  split
  · rename_i flips
    have flat : s.isClosure = false := by simpa [Scope.holdsFlips] using flips
    refine yields_bind.2 (yields_mint (fun t name after there minted => ?_) (fun _ _ _ => .refl)
      fun _ => .refl)
    cases found.symm.trans there
    have named : s.Edit id .name after := .name minted fun closed => by
      rw [flat] at closed
      cases closed
    have here := scope?_replace_self found after
    obtain ⟨-, -, rfl⟩ := Scope.mintName?_eq_some_iff.1 minted
    refine Leaves.weaken (changes_newLocal id _ name 0) fun q changes => ?_
    refine .head (.edit found named ⟨rfl, ⟨s, found, flat⟩, .inl rfl⟩) (changes.mono ?_)
    rintro x deed ⟨rfl, declares⟩
    exact ⟨declares.eq_of_flat here flat, ⟨s, found, flat⟩, .inr rfl⟩
  · exact .refl

theorem changes_implicitBlock : (implicitBlock id).Leaves p (p.Changes fun x deed =>
    deed = .declare ∧ ((∃ flat, p.nearestFlat id = .ok flat ∧ p.DeclaresFrom flat 0 x) ∨
      p.DeclaresFrom id 0 x)) := by
  refine yields_bind.2 (yields_ask_bind.2 ⟨fun s _ => ?_, fun _ _ => .refl⟩)
  split
  · refine yields_ask_bind.2 ⟨fun bound _ => ?_, fun _ _ => .refl⟩
    split
    · exact .refl
    · refine yields_ask_bind.2 ⟨fun flat nearest => ?_, fun _ _ => .refl⟩
      refine yields_ask_bind.2 ⟨fun t _ => ?_, fun _ _ => .refl⟩
      split
      · refine yields_bind.2 (Leaves.weaken (changes_newLocal flat p blockName 0) fun q changes => ?_)
        exact changes.mono fun _ _ => And.imp_right fun declares => .inl ⟨flat, nearest, declares⟩
      · refine Leaves.weaken (changes_newLocal id p blockName 0) fun q changes => ?_
        exact changes.mono fun _ _ => And.imp_right .inr
  · exact .refl

/-! ## Scopes, instructions and graphs -/

theorem elementary_newScript {may : ScopeId → Deed → Prop} (fileName : String) :
    (newScript fileName).Elementary may :=
  fun _ => .single (.script fileName)

theorem elementary_newMethod {may : ScopeId → Deed → Prop} (name : String) (line : Nat)
    (static : Option StaticScope) : (newMethod id name line static).Elementary may := by
  intro p
  refine yields_ask_bind.2 ⟨fun around found => ?_, fun _ _ => .refl⟩
  exact .single (.method (scope_eq_ok_iff.1 found) name line static)

theorem changes_newClosure (forLoop : Bool) (line : Nat) (static : Option StaticScope)
    (signature : BlockSignature) : (newClosure id forLoop line static signature).Leaves p
      (p.Changes fun x deed => p.nearestFlat id = .ok x ∧ deed = .number) := by
  refine yields_ask_bind.2 ⟨fun around found => ?_, fun _ _ => .refl⟩
  rw [scope_eq_ok_iff] at found
  refine yields_bind.2 (yields_ask_bind.2 ⟨fun flat nearest => ?_, fun _ _ => .refl⟩)
  refine yields_mint (fun outer number after host minted => ?_) (fun _ _ _ => .refl) fun _ => .refl
  refine yields_ask_bind.2 ⟨fun depth deep => ?_, fun _ _ => ?_⟩
  · rw [yields_bind, yields_get, yields_addScope, nextId_replace]
    exact .single (.block found nearest host minted deep forLoop line static signature ⟨nearest, rfl⟩)
  · exact .single (.edit host (.number minted) ⟨nearest, rfl⟩)

theorem changes_newEvalUnit (fileName : String) (line : Nat) (static : Option StaticScope)
    (stem : String) : (newEvalUnit id fileName line static stem).Leaves p
      (p.Changes fun x deed => p.nearestFlat id = .ok x ∧ deed = .number) := by
  refine yields_bind.2 (yields_ask_bind.2 ⟨fun flat nearest => ?_, fun _ _ => .refl⟩)
  refine yields_mint (fun outer number after host minted => ?_) (fun _ _ _ => .refl) fun _ => .refl
  refine yields_ask_bind.2 ⟨fun depth deep => ?_, fun _ _ => ?_⟩
  · rw [yields_addScope, nextId_replace]
    exact .single (.evalUnit nearest host minted deep fileName line static stem ⟨nearest, rfl⟩)
  · exact .single (.edit host (.number minted) ⟨nearest, rfl⟩)

theorem elementary_markInlined : (markInlined id).Elementary fun x deed => x = id ∧ deed = .inline :=
  (through_requireClosure id).bind fun _ => elementary_adjust (fun _ => .inline) ⟨rfl, rfl⟩

theorem elementary_setParameters (names : List String) :
    (setParameters id names).Elementary fun x deed => x = id ∧ deed = .parameters :=
  (through_requireClosure id).bind fun _ =>
    elementary_adjust (fun _ => .parameters names) ⟨rfl, rfl⟩

theorem elementary_addInstr (i : Instr) :
    (addInstr id i).Elementary fun x deed => x = id ∧ deed = .append i := by
  intro p
  refine yields_ask_bind.2 ⟨fun s found => ?_, fun _ _ => .refl⟩
  obtain ⟨found, live⟩ := liveScope_eq_ok_iff.1 found
  exact .single (.edit found (.append i live) ⟨rfl, rfl⟩)

/-- New labels move the counters of names on and change nothing else in the scope. -/
theorem yields_newLabels {p : Program} {s : Scope} (found : p.scope? id = some s) (n : Nat) :
    (newLabels id n).Yields p (fun _ q => ∃ names, q.scope? id = some { s with names })
      fun _ _ => True := by
  induction n generalizing p s with
  | zero => exact ⟨s.names, found⟩
  | succ n ih =>
    refine yields_bind.2 (yields_ask_bind.2 ⟨fun _ _ => ?_, fun _ _ => trivial⟩)
    refine yields_ask_bind.2 ⟨fun _ _ => yields_bind.2 ?_, fun _ _ => trivial⟩
    refine yields_mint (fun t name after here minted => ?_) (fun _ _ _ => trivial) fun _ => trivial
    cases found.symm.trans here
    obtain ⟨-, -, rfl⟩ := Scope.mintName?_eq_some_iff.1 minted
    refine yields_bind.2 ((ih (scope?_replace_self found _)).mono ?_ fun _ _ _ => trivial)
    exact fun _ _ rest => rest

theorem elementary_buildGraph :
    (buildGraph id).Elementary fun x deed => x = id ∧ (deed = .name ∨ deed = .graph) := by
  intro p
  refine yields_ask_bind.2 ⟨fun s live => ?_, fun _ _ => .refl⟩
  obtain ⟨found, live⟩ := liveScope_eq_ok_iff.1 live
  have labelled : (newLabels id (Graph.labelsNeeded s.instrs)).Elementary
      fun x deed => x = id ∧ (deed = .name ∨ deed = .graph) :=
    (elementary_newLabels id _).mono
      fun _ _ change => change.mono fun _ _ ⟨here, name⟩ => ⟨here, .inl name⟩
  refine yields_bind.2 (((labelled p).and (yields_newLabels id found _)).mono
    (fun labels q done => ?_) fun _ _ done => done.1)
  obtain ⟨done, names, here⟩ := done
  refine yields_bind.2 (yields_ofRefusal.2 ⟨fun g built => ?_, fun _ _ => done⟩)
  refine yields_bind.2 (yields_ask_bind.2 ⟨fun t there => ?_, fun _ _ => done⟩)
  cases here.symm.trans (scope_eq_ok_iff.1 there)
  exact done.tail (.edit here (.graph live built) ⟨rfl, .inr rfl⟩)

end Program

namespace Renaming

open BuildM Program

theorem elementary_freshTemp (host : ScopeId) (t : Temporary) :
    (freshTemp host t).Elementary fun x deed => x = host ∧ deed = .temporary := by
  unfold freshTemp
  split
  · exact elementary_newNamedTemp _ _
  · exact elementary_newTemp _
  · exact elementary_newTemp _

def prepares (host : ScopeId) (x : ScopeId) (deed : Deed) : Prop :=
  x = host ∧ (deed = .name ∨ deed = .temporary)

theorem yields_cover_host (r : Renaming) (n : Mention) (p : Program) :
    (r.cover n).Yields p (fun next q => next.host = r.host ∧ p.Changes (prepares r.host) q)
      fun _ q => p.Changes (prepares r.host) q := by
  cases n with
  | label l =>
    by_cases known : r.labels.contains l = true
    · rw [cover, if_pos known]
      exact ⟨rfl, .refl⟩
    · rw [cover, if_neg known]
      have fresh : (newLabel r.host).Elementary (prepares r.host) :=
        (elementary_newLabel r.host).mono
          fun _ _ change => change.mono fun _ _ ⟨here, name⟩ => ⟨here, .inl name⟩
      exact yields_bind.2 ((fresh p).mono (fun _ _ changes => ⟨rfl, changes⟩) fun _ _ changes => changes)
  | temp t =>
    by_cases known : r.vars.contains (.ofTemp t) = true
    · rw [cover, if_pos known]
      exact ⟨rfl, .refl⟩
    · rw [cover, if_neg known]
      have fresh : (freshTemp r.host t).Elementary (prepares r.host) :=
        (elementary_freshTemp r.host t).mono
          fun _ _ change => change.mono fun _ _ ⟨here, temporary⟩ => ⟨here, .inr temporary⟩
      exact yields_bind.2 ((fresh p).mono (fun _ _ changes => ⟨rfl, changes⟩) fun _ _ changes => changes)

/-- Covering one name after the other, a preparation stays with its host. -/
theorem yields_coverAll_host (r : Renaming) (ns : List Mention) (p : Program) :
    (r.coverAll ns).Yields p (fun next q => next.host = r.host ∧ p.Changes (prepares r.host) q)
      fun _ q => p.Changes (prepares r.host) q := by
  induction ns generalizing r p with
  | nil => exact ⟨rfl, .refl⟩
  | cons n rest ih =>
    refine yields_bind.2 ((yields_cover_host r n p).mono ?_ fun _ _ changes => changes)
    rintro next q ⟨host, changes⟩
    refine (ih next q).mono ?_ ?_
    · rw [host]
      exact fun _ u ⟨host', more⟩ => ⟨host', changes.trans more⟩
    · rw [host]
      exact fun _ u more => changes.trans more

theorem elementary_coverAll (ns : List Mention) (r : Renaming) :
    (r.coverAll ns).Elementary (prepares r.host) := fun p =>
  (r.yields_coverAll_host ns p).mono (fun _ _ done => done.2) fun _ _ changes => changes

end Renaming

end ClosureIR
