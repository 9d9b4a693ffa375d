import ClosureIR.Proofs.Reachable

/-!
# Inlined closures are frozen

Once a closure was inlined it takes no instructions, keeps its graph and its
parameters, and hands out nothing.  What is asked of it fails and changes
nothing.  Its table of locals can still grow, in one way alone: when a scope
inside declares a local on a walk that ends at the inlined closure.
-/

namespace ClosureIR

open BuildM Relation

namespace Scope

/-- The scope has become `t`, with the code and the counters that it had, and it is inlined. -/
structure Frozen (s t : Scope) : Prop where
  kind : t.kind = s.kind
  instrs : t.instrs = s.instrs
  graph : t.graph = s.graph
  blockArgs : t.blockArgs = s.blockArgs
  temporaries : t.temporaries = s.temporaries
  names : t.names = s.names
  inlined : t.isInlined = true

variable {id : ScopeId} {s t u : Scope} {deed : Deed}

theorem Frozen.refl (inlined : s.isInlined = true) : s.Frozen s :=
  ⟨rfl, rfl, rfl, rfl, rfl, rfl, inlined⟩

theorem Frozen.trans (first : s.Frozen t) (second : t.Frozen u) : s.Frozen u where
  kind := second.kind.trans first.kind
  instrs := second.instrs.trans first.instrs
  graph := second.graph.trans first.graph
  blockArgs := second.blockArgs.trans first.blockArgs
  temporaries := second.temporaries.trans first.temporaries
  names := second.names.trans first.names
  inlined := second.inlined

/-- Closure data may change where the parameters received stay and the closure stays inlined. -/
theorem Frozen.withClosure {f : ClosureData → ClosureData} (inlined : s.isInlined = true)
    (args : ∀ data, (f data).blockArgs = data.blockArgs)
    (still : ∀ data, data.isInlined = true → (f data).isInlined = true) :
    s.Frozen (s.withClosure f) := by
  refine ⟨rfl, rfl, rfl, ?_, rfl, rfl, ?_⟩
  · exact s.blockArgs_withClosure args
  · cases closed : s.closure with
    | none => simp [Scope.isInlined, closed] at inlined
    | some data =>
      have dead : data.isInlined = true := by simpa [Scope.isInlined, closed] using inlined
      simpa [Scope.withClosure, Scope.isInlined, closed] using still data dead

/-- No edit thaws a closure, and only declarations touch its table. -/
theorem Edit.frozen (edited : s.Edit id deed t) (closed : s.isClosure = true)
    (inlined : s.isInlined = true) : s.Frozen t ∧ (deed ≠ .declare → t.locals = s.locals) := by
  have dead {P : Prop} (live : s.isInlined = false) : P := by
    rw [inlined] at live
    cases live
  cases edited with
  | name minted free => exact dead (free closed)
  | temporary minted free => exact dead (free closed)
  | number minted =>
    obtain ⟨-, -, rfl⟩ := mintClosureNumber?_eq_some_iff.1 minted
    exact ⟨⟨rfl, rfl, rfl, rfl, rfl, rfl, inlined⟩, fun _ => rfl⟩
  | declare | overflow =>
    exact ⟨⟨rfl, rfl, rfl, rfl, rfl, rfl, inlined⟩, fun other => absurd rfl other⟩
  | append i live => exact dead live
  | graph live built => exact dead live
  | inline => exact ⟨.withClosure inlined (fun _ => rfl) fun _ _ => rfl, fun _ => rfl⟩
  | parameters names => exact ⟨.withClosure inlined (fun _ => rfl) fun _ same => same, fun _ => rfl⟩

end Scope

namespace Program

variable {p q : Program} {id : ScopeId} {s : Scope} {may : ScopeId → Deed → Prop}

/-- The inlined scope `s` at place `id` is frozen in `q`, and so is its table unless `declares`. -/
def Freezes (q : Program) (id : ScopeId) (s : Scope) (declares : Prop) : Prop :=
  ∃ t, q.scope? id = some t ∧ s.Frozen t ∧ (¬ declares → t.locals = s.locals)

theorem Freezes.refl {declares : Prop} (found : p.scope? id = some s) (inlined : s.isInlined = true) :
    p.Freezes id s declares :=
  ⟨s, found, .refl inlined, fun _ => rfl⟩

theorem WellFormed.isClosure_of_isInlined (formed : p.WellFormed) (found : p.scope? id = some s)
    (inlined : s.isInlined = true) : s.isClosure = true := by
  cases closed : s.closure with
  | none => simp [Scope.isInlined, closed] at inlined
  | some data => exact (formed id s found).isClosure_of_closure closed

/-- An edit freezes the scope, be it there or elsewhere. -/
theorem WellFormed.freezes_edit (formed : p.WellFormed) (found : p.scope? id = some s)
    (inlined : s.isInlined = true) {x : ScopeId} {deed : Deed} {u after : Scope}
    (there : p.scope? x = some u) (edited : u.Edit x deed after) (allowed : may x deed) :
    (p.replace x after).Freezes id s (may id .declare) := by
  by_cases here : id = x
  · subst here
    cases found.symm.trans there
    obtain ⟨frozen, locals⟩ := edited.frozen (formed.isClosure_of_isInlined found inlined) inlined
    refine ⟨after, scope?_replace_self found after, frozen, fun never => locals ?_⟩
    rintro rfl
    exact never allowed
  · have kept : (p.replace x after).scope? id = some s := by
      rw [scope?_replace, if_neg here]
      exact found
    exact .refl kept inlined

theorem Freezes.push {declares : Prop} (freezes : p.Freezes id s declares) (c : Scope) :
    (p.push c).Freezes id s declares := by
  obtain ⟨t, there, rest⟩ := freezes
  refine ⟨t, ?_, rest⟩
  rw [scope?_push_of_ne, there]
  rintro rfl
  exact Nat.lt_irrefl _ (lt_size_of_scope? there)

theorem WellFormed.freezes_change (formed : p.WellFormed) (found : p.scope? id = some s)
    (inlined : s.isInlined = true) (change : p.Change may q) : q.Freezes id s (may id .declare) := by
  cases change with
  | edit there edited allowed => exact formed.freezes_edit found inlined there edited allowed
  | script fileName => exact (Freezes.refl found inlined).push _
  | method around name line static => exact (Freezes.refl found inlined).push _
  | block around nearest host minted deep forLoop line static signature allowed =>
    exact (formed.freezes_edit found inlined host (.number minted) allowed).push _
  | evalUnit nearest host minted deep fileName line static stem allowed =>
    exact (formed.freezes_edit found inlined host (.number minted) allowed).push _

/-- So does a row of changes. -/
theorem WellFormed.freezes_changes (formed : p.WellFormed) (found : p.scope? id = some s)
    (inlined : s.isInlined = true) (changes : p.Changes may q) : q.Freezes id s (may id .declare) := by
  induction changes with
  | refl => exact .refl found inlined
  | tail before last ih =>
    obtain ⟨t, there, frozen, locals⟩ := ih
    obtain ⟨u, here, more, locals'⟩ :=
      (formed.changes before).freezes_change there frozen.inlined last
    exact ⟨u, here, frozen.trans more, fun never => (locals' never).trans (locals never)⟩

/-- Whatever is asked, the scope stays frozen, and its table stays unless a local may be declared in it. -/
theorem WellFormed.freezes_request {α : Type} (formed : p.WellFormed) (found : p.scope? id = some s)
    (inlined : s.isInlined = true) (r : Request α) :
    (p.after r.run).Freezes id s (r.may p id .declare) := by
  cases copies : r.cloneHost? with
  | none => exact formed.freezes_changes found inlined (r.changes copies p).after
  | some host =>
    obtain same | ⟨flat, nearest, cloning⟩ := formed.clonesUnder (r.clones copies p).after
    · rw [after, same]
      exact .refl found inlined
    · have hosts := formed.hosts nearest
      have closed := formed.isClosure_of_isInlined found inlined
      exact .refl ((cloning.grown hosts).keeps_closure hosts found closed) inlined

end Program

namespace Request

variable {α : Type} {p : Program} {id : ScopeId} {s : Scope}

/-- What is asked of the scope itself, as of a scope that lives on its own. -/
def asks : Request α → ScopeId → Prop
  | newLabel x, id | newLabelWith x _, id | newTemp x, id | newNamedTemp x _, id
  | newLocal x _ _, id | getLocal x _ _, id | addInstr x _, id | buildGraph x, id => x = id
  | cloneClosure source _, id | cloneUnder _ source, id => source = id
  | _, _ => False

/-- An inlined closure refuses all that is asked of it, and nothing changes. -/
theorem runOn_of_asks (r : Request α) (asks : r.asks id) (found : p.scope? id = some s)
    (inlined : s.isInlined = true) : r.run.runOn p = (.error (.misused (.inlined s.name)), p) := by
  have dead : p.liveScope id = .error (.inlined s.name) := by
    rw [Program.liveScope_of_scope? found, if_pos inlined]
  have refused {β : Type} (next : Scope → BuildM β) :
      (Program.requireLive id >>= next).runOn p = (.error (.misused (.inlined s.name)), p) := by
    rw [runOn_bind, Program.requireLive, runOn_ask, dead]
    rfl
  cases r with
  | newLabelWith | newTemp | newNamedTemp | newLocal | addInstr | buildGraph =>
    cases asks
    exact refused _
  | newLabel x =>
    cases asks
    rw [run, Program.newLabel, runOn_bind, runOn_ask, Program.scope_eq_ok_iff.2 found]
    exact refused _
  | getLocal x name depth =>
    cases asks
    rw [run, Program.getLocal, runOn_bind, runOn_ask, Program.lookupSite_of_inlined found inlined]
    rfl
  | cloneClosure source parent =>
    cases asks
    rw [run, Program.cloneClosure, Program.cloneUnder, runOn_bind, runOn_get]
    exact refused _
  | cloneUnder r source =>
    cases asks
    rw [run, Program.cloneUnder, runOn_bind, runOn_get]
    exact refused _
  | _ => cases asks

/-- So none of that may declare a local anywhere. -/
theorem not_may_declare_of_asks (r : Request α) (asks : r.asks id) (found : p.scope? id = some s)
    (inlined : s.isInlined = true) (x : ScopeId) : ¬ r.may p x .declare := by
  intro allowed
  cases r with
  | newLocal y name depth =>
    cases asks
    obtain ⟨-, ⟨t, live⟩, -⟩ := allowed
    simp [Program.liveScope_of_scope? found, inlined] at live
  | getLocal y name depth =>
    cases asks
    obtain ⟨-, host, enters, -⟩ := allowed
    rw [Program.lookupSite_of_inlined found inlined] at enters
    cases enters
  | buildGraph y =>
    obtain ⟨-, named | drawn⟩ := allowed
    · cases named
    · cases drawn
  | newLabel | newLabelWith | newTemp | newNamedTemp | addInstr | cloneClosure | cloneUnder =>
    obtain ⟨-, never⟩ := allowed
    cases never
  | _ => cases asks

end Request

namespace Program

variable {p q : Program} {id : ScopeId} {s : Scope}

/-- The programs that answers to requests lead to, as long as none of these requests is excluded. -/
inductive Later (excluded : Program → ∀ {α : Type}, Request α → Prop) (p : Program) : Program → Prop where
  | refl : Later excluded p p
  | answer {α : Type} {q : Program} (before : Later excluded p q) (r : Request α)
      (regular : ¬ excluded q r) : Later excluded p (q.after r.run)

theorem Later.reachable {excluded : Program → ∀ {α : Type}, Request α → Prop} (later : p.Later excluded q)
    (reachable : p.Reachable) : q.Reachable := by
  induction later with
  | refl => exact reachable
  | answer before r regular ih => exact ih.step r

/-- The scope stays frozen through all answers. -/
theorem Later.freezes {excluded : Program → ∀ {α : Type}, Request α → Prop}
    (later : p.Later excluded q) (reachable : p.Reachable) (found : p.scope? id = some s)
    (inlined : s.isInlined = true) : q.Freezes id s
      (∃ (q : Program) (α : Type) (r : Request α), ¬ excluded q r ∧ r.may q id .declare) := by
  induction later with
  | refl => exact .refl found inlined
  | answer before r regular ih =>
    obtain ⟨t, there, frozen, locals⟩ := ih
    obtain ⟨u, here, more, locals'⟩ :=
      (before.reachable reachable).wellFormed.freezes_request there frozen.inlined r
    refine ⟨u, here, frozen.trans more, fun never => ?_⟩
    exact (locals' fun declares => never ⟨_, _, r, regular, declares⟩).trans (locals never)

/--
Once a closure was inlined, no request ever changes its code, its parameters or
what it has handed out, and its table changes only by a request of another scope
that may declare a local in it.  Whatever is asked of the closure itself fails
and changes nothing.
-/
theorem frozen_of_inlined (reachable : p.Reachable) (found : p.scope? id = some s)
    (inlined : s.isInlined = true) :
    (∀ q, p.Later (fun _ _ _ => False) q → ∃ t, q.scope? id = some t ∧ s.Frozen t) ∧
      (∀ q, p.Later (fun q _ r => r.may q id .declare) q →
        ∃ t, q.scope? id = some t ∧ s.Frozen t ∧ t.locals = s.locals) ∧
      ∀ {α : Type} (r : Request α), r.asks id →
        ¬ r.may p id .declare ∧ r.run.runOn p = (.error (.misused (.inlined s.name)), p) := by
  refine ⟨fun q later => ?_, fun q later => ?_, fun r asks => ?_⟩
  · obtain ⟨t, there, frozen, -⟩ := later.freezes reachable found inlined
    exact ⟨t, there, frozen⟩
  · obtain ⟨t, there, frozen, locals⟩ := later.freezes reachable found inlined
    refine ⟨t, there, frozen, locals ?_⟩
    rintro ⟨q, α, r, regular, declares⟩
    exact regular declares
  · exact ⟨r.not_may_declare_of_asks asks found inlined id, r.runOn_of_asks asks found inlined⟩

/-- The closure around the loop body, inlined, while the loop body makes a temporary. -/
theorem frozen_loopInClosure :
    ∃ s, (loopInClosure.after (markInlined ⟨1⟩)).scope? ⟨1⟩ = some s ∧ s.isInlined = true ∧
      (∃ t, ((loopInClosure.after (markInlined ⟨1⟩)).after (newTemp ⟨2⟩)).scope? ⟨1⟩ = some t ∧
        s.Frozen t ∧ t.locals = s.locals) ∧
      (newTemp ⟨1⟩).runOn (loopInClosure.after (markInlined ⟨1⟩)) =
        (.error (.misused (.inlined s.name)), loopInClosure.after (markInlined ⟨1⟩)) := by
  have dead : ((loopInClosure.after (markInlined ⟨1⟩)).scope? ⟨1⟩).any (·.isInlined) = true := by
    decide +kernel
  obtain ⟨s, found, inlined⟩ := (Option.any_eq_true _ _).1 dead
  have reachable := reachable_loopInClosure.step (.markInlined ⟨1⟩)
  obtain ⟨-, locals, refuses⟩ := frozen_of_inlined reachable found inlined
  have later : Later (fun q _ r => r.may q ⟨1⟩ .declare) (loopInClosure.after (markInlined ⟨1⟩))
      ((loopInClosure.after (markInlined ⟨1⟩)).after (newTemp ⟨2⟩)) :=
    .answer .refl (.newTemp ⟨2⟩) fun ⟨_, never⟩ => by cases never
  exact ⟨s, found, inlined, locals _ later, (refuses (.newTemp ⟨1⟩) rfl).2⟩

/-- The loop body declares a local in the inlined closure around it. -/
theorem not_forall_locals_frozen :
    ¬ ∀ (p : Program) (id : ScopeId) (s : Scope), p.Reachable → p.scope? id = some s →
      s.isInlined = true → ∀ {α : Type} (r : Request α),
        ∃ t, (p.after r.run).scope? id = some t ∧ t.locals = s.locals := by
  intro always
  have dead : ((loopInClosure.after (markInlined ⟨1⟩)).scope? ⟨1⟩).any (fun s =>
      s.isInlined && (s.locals.get? "y").isNone) = true := by decide +kernel
  have declared : (((loopInClosure.after (markInlined ⟨1⟩)).after (newLocal ⟨2⟩ "y" 0)).scope? ⟨1⟩).any
      (fun t => (t.locals.get? "y").isSome) = true := by decide +kernel
  obtain ⟨s, found, known⟩ := (Option.any_eq_true _ _).1 dead
  rw [Bool.and_eq_true] at known
  obtain ⟨t, there, same⟩ := always _ ⟨1⟩ s (reachable_loopInClosure.step (.markInlined ⟨1⟩)) found
    known.1 (.newLocal ⟨2⟩ "y" 0)
  obtain ⟨t', there', bound⟩ := (Option.any_eq_true _ _).1 declared
  cases there.symm.trans there'
  rw [same, Option.isSome_iff_ne_none] at bound
  exact bound (Option.isNone_iff_eq_none.1 known.2)

end Program

end ClosureIR
