import ClosureIR.Proofs.Reachable

/-!
# What holds of every scope by itself

Some properties concern one scope at its place and no other.  When new scopes
have such a property, changes keep it, and it passes from a closure to its
clones, finished or not, all scopes of all programs that are reached have it.
-/

namespace ClosureIR

namespace Scope

/-- A property of the scope at a place, under the options of its program, that every operation respects. -/
structure Invariant (P : Options → ScopeId → Scope → Prop) : Prop where
  script : ∀ options fileName id, P options id (.ofScript fileName id)
  method : ∀ options parent fileName name line static id,
    P options id (.ofMethod parent fileName name line static id)
  block : ∀ options parent fileName forLoop line static signature number depth id,
    P options id (.ofBlock options parent fileName forLoop line static signature number depth id)
  evalUnit : ∀ options parent fileName line static stem number depth id,
    P options id (.ofEvalUnit parent fileName line static stem number depth id)
  counters : ∀ {options id s} names temporaries closures, P options id s →
    P options id { s with names, temporaries, closures }
  declare : ∀ {options id s} name kind nextSlot, P options id s → s.kind.declares? = some kind →
    -- The next slot is the one after, or the counter is at its last value.
    (nextSlot + 1 < Counter.bound → nextSlot = s.locals.nextSlot + 1) →
    P options id { s with
      locals := { s.locals.store ⟨name, 0, s.locals.nextSlot, id, kind⟩ with nextSlot } }
  append : ∀ {options id s} i, P options id s → P options id (s.append i)
  graph : ∀ {options id s fresh g}, P options id s → Graph.build id s.name s.instrs fresh = .ok g →
    P options id { s with graph := some g }
  inline : ∀ {options id s}, P options id s →
    P options id (s.withClosure fun data => { data with isInlined := true })
  parameters : ∀ {options id s} names, P options id s →
    P options id (s.withClosure fun data => { data with parameters := names })
  shell : ∀ {options source id s data} parent number, P options source s → s.isClosure = true →
    s.closure = some data → P options id (s.cloneShell data parent number id)
  clone : ∀ {options source id parent s c m sub}, P options source s → s.isClosure = true →
    s.ClonedAs c parent id m sub → P options id c

namespace Invariant

variable {P : Options → ScopeId → Scope → Prop} {options : Options} {id : ScopeId} {s after : Scope}
  {deed : Deed}

/-- No edit breaks it. -/
theorem edit (invariant : Invariant P) (holds : P options id s) (edited : s.Edit id deed after) :
    P options id after := by
  have counted := edited.of_counts
  cases edited with
  | name | temporary | number =>
    obtain ⟨_, _, _, -, rfl⟩ := counted trivial
    exact invariant.counters _ _ _ holds
  | declare site stored =>
    obtain ⟨slot, next, rfl⟩ := Option.map_eq_some_iff.1 stored
    exact invariant.declare _ _ slot holds site fun _ => (Counter.next?_eq_some_iff.1 next).1
  | overflow site full =>
    apply invariant.declare _ _ s.locals.nextSlot holds site
    intro small
    have last := Counter.next?_eq_none_iff.1 (Option.map_eq_none_iff.1 full)
    exact absurd small (Nat.not_lt.2 last)
  | append i live => exact invariant.append i holds
  | graph live built => exact invariant.graph holds built
  | inline => exact invariant.inline holds
  | parameters names => exact invariant.parameters names holds

end Invariant

/--
What holds of every graph that is built, and passes from the graph of a closure
to that of a clone, holds of every graph that a scope keeps.
-/
theorem invariant_of_graphs {P : Graph → Prop}
    (built : ∀ {id scopeName is fresh g}, Graph.build id scopeName is fresh = .ok g → P g)
    (copied : ∀ {s c clone m sub g g'}, ClonedBody s c clone m sub g g' → P g → P g') :
    Invariant fun _ _ s => ∀ g, s.graph = some g → P g where
  script _ _ _ _ kept := by cases kept
  method _ _ _ _ _ _ _ _ kept := by cases kept
  block _ _ _ _ _ _ _ _ _ _ _ kept := by cases kept
  evalUnit _ _ _ _ _ _ _ _ _ _ kept := by cases kept
  counters _ _ _ holds := holds
  declare _ _ _ holds _ _ := holds
  append _ holds := holds
  graph _ drawn g kept := by
    cases kept
    exact built drawn
  inline holds := holds
  parameters _ holds := holds
  shell _ _ _ _ _ _ kept := by cases kept
  clone holds _ cloned g' kept := by
    obtain ⟨g, _, _, _, body, -⟩ := cloned.body
    cases body.graph.symm.trans kept
    exact copied body (holds g body.source)

end Scope

namespace Program

variable {P : Options → ScopeId → Scope → Prop} {p q : Program} {flat : ScopeId}

def Everywhere (P : Options → ScopeId → Scope → Prop) (p : Program) : Prop :=
  ∀ id s, p.scope? id = some s → P p.options id s

namespace Everywhere

theorem replace (holds : p.Everywhere P) {id : ScopeId} {s : Scope} (here : P p.options id s) :
    (p.replace id s).Everywhere P := by
  intro other t found
  obtain ⟨rfl, rfl⟩ | old := scope?_replace_cases found
  · exact here
  · exact holds other t old

theorem push (holds : p.Everywhere P) {s : Scope} (here : P p.options p.nextId s) :
    (p.push s).Everywhere P := by
  intro id t found
  obtain ⟨rfl, rfl⟩ | old := scope?_push_cases found
  · exact here
  · exact holds id t old

theorem change {may : ScopeId → Deed → Prop} (holds : p.Everywhere P)
    (invariant : Scope.Invariant P) (change : p.Change may q) : q.Everywhere P := by
  cases change with
  | edit found edited => exact holds.replace (invariant.edit (holds _ _ found) edited)
  | script fileName => exact holds.push (invariant.script ..)
  | method found name line static => exact holds.push (invariant.method ..)
  | block found nearest host minted deep forLoop line static signature =>
    have numbered := holds.replace (invariant.edit (holds _ _ host) (.number minted))
    apply numbered.push
    rw [nextId_replace]
    exact invariant.block ..
  | evalUnit nearest host minted deep fileName line static stem =>
    have numbered := holds.replace (invariant.edit (holds _ _ host) (.number minted))
    apply numbered.push
    rw [nextId_replace]
    exact invariant.evalUnit ..

/-- What passes from a closure to its clones, finished or not, they have from it, as it is older. -/
theorem inherited (holds : p.Everywhere P)
    (counters : ∀ {options id s} names temporaries closures, P options id s →
      P options id { s with names, temporaries, closures })
    (shell : ∀ {options source id s data} parent number, P options source s → s.isClosure = true →
      s.closure = some data → P options id (s.cloneShell data parent number id))
    (clone : ∀ {options source id parent s c m sub}, P options source s → s.isClosure = true →
      s.ClonedAs c parent id m sub → P options id c)
    (hosts : p.Hosts flat) (cloning : p.Cloning flat q) : q.Everywhere P := by
  have grown := cloning.grown hosts
  intro id c found
  induction h : id.index using Nat.strongRecOn generalizing id c with
  | ind n ih =>
    rcases Nat.lt_or_ge id.index p.scopes.size with inside | beyond
    · obtain ⟨s, there⟩ := exists_scope? inside
      have here := holds id s there
      rw [← grown.options] at here
      cases (grown.old id s there).symm.trans found
      split
      · exact counters s.names s.temporaries _ here
      · exact here
    · cases graph : c.graph with
      | none =>
        cases cloning.shelled hosts id c beyond found graph with
        | intro source newer isClosure _ closed shelled =>
          obtain ⟨names, temporaries, rfl⟩ := shelled
          have here := ih _ (h ▸ newer) _ _ source rfl
          exact counters names temporaries _ (shell _ _ here isClosure closed)
      | some g =>
        obtain ⟨parent, owner, source, cloned⟩ := cloning.traced hosts id c beyond found (by simp [graph])
        cases cloned with
        | intro source made newer copyable owners cloned nested =>
          cases made.symm.trans found
          exact clone (ih _ (h ▸ newer) _ _ source rfl) copyable.closure cloned

theorem cloning (holds : p.Everywhere P) (invariant : Scope.Invariant P) (hosts : p.Hosts flat)
    (cloning : p.Cloning flat q) : q.Everywhere P :=
  holds.inherited invariant.counters invariant.shell invariant.clone hosts cloning

end Everywhere

/-- All scopes of all programs that are reached have it. -/
theorem Reachable.everywhere (reachable : p.Reachable) (invariant : Scope.Invariant P) :
    p.Everywhere P := by
  have start (options : Options) : Everywhere P { options } := by
    intro id s found
    simp [scope?] at found
  exact (reachable.invariant start (fun _ _ _ holds change => holds.change invariant change)
    fun _ _ _ hosts holds cloning => holds.cloning invariant hosts cloning).2

end Program

end ClosureIR
