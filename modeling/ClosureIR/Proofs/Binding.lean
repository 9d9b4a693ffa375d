import ClosureIR.Proofs.Descriptor
import ClosureIR.Proofs.Identity

/-!
# Descriptors and the scopes that they name

A new block binds its descriptor to itself.  A clone gets the descriptor of its
source as it is, and never another one.  So a descriptor that is bound names the
block that was made with it, from which all others that have it were cloned.
-/

namespace ClosureIR

open BuildM Relation

namespace Scope

def boundTo? (s : Scope) : Option ScopeId := s.staticScope.bind (·.boundTo)

/-- What the descriptor is bound to where only new blocks bind theirs, and only to themselves. -/
def freshBinding? (options : Options) (id : ScopeId) (s : Scope) : Option ScopeId :=
  if options.irOnly = false ∧ s.kind = .closure then s.staticScope.map fun _ => id else none

end Scope

namespace Request

variable {α : Type}

/-- The descriptor that a request hands over, if it hands over one, is not bound yet. -/
def Unbound : Request α → Prop
  | newMethod _ _ _ static | newClosure _ _ _ static _ | newEvalUnit _ _ _ static _ =>
    static.bind (·.boundTo) = none
  | _ => True

def Makes (options : Options) : Request α → ScopeId → Scope → Prop
  | newClosure _ forLoop _ static _, id, s =>
    s.kind = (if forLoop then .forLoopBody else .closure) ∧
      s.staticScope = if options.irOnly || forLoop then static else static.map (·.bindTo id)
  | newEvalUnit _ _ _ static _, _, s => s.kind = .evalUnit ∧ s.staticScope = static
  | _, _, _ => False

/-- A descriptor that comes unbound is bound by new blocks alone. -/
theorem Makes.boundTo?_eq {r : Request α} {options : Options} {id : ScopeId} {s : Scope}
    (makes : r.Makes options id s) (unbound : r.Unbound) :
    s.boundTo? = s.freshBinding? options id := by
  cases r with
  | newClosure parent forLoop line static signature =>
    obtain ⟨kind, descriptor⟩ := makes
    have bare : static.bind (·.boundTo) = none := unbound
    rw [Scope.boundTo?, Scope.freshBinding?, kind, descriptor]
    cases options.irOnly with
    | true => simpa using bare
    | false =>
      cases forLoop with
      | true => simpa using bare
      | false => cases static <;> rfl
  | newEvalUnit parent fileName line static stem =>
    obtain ⟨kind, rfl⟩ := makes
    rw [Scope.freshBinding?, kind, if_neg (by simp)]
    exact unbound
  | _ => cases makes

end Request

namespace Program

variable {p q : Program} {id source clone flat : ScopeId} {s t c : Scope}
  {may : ScopeId → Deed → Prop}

/-! ## New closures -/

theorem flat_of_change (silent : ∀ x, ¬ may x .number) (change : p.Change may q)
    (absent : p.scope? id = none) (found : q.scope? id = some t) : t.isClosure = false := by
  cases change with
  | edit => cases (scope?_replace_of_missing absent _ _).symm.trans found
  | script | method =>
    obtain ⟨-, rfl⟩ := eq_of_scope?_push absent found
    rfl
  | block _ _ _ _ _ _ _ _ _ allowed => exact absurd allowed (silent _)
  | evalUnit _ _ _ _ _ _ _ _ allowed => exact absurd allowed (silent _)

/-- Without taking a number, nobody makes a closure. -/
theorem flat_of_changes (silent : ∀ x, ¬ may x .number) (changes : p.Changes may q)
    (absent : p.scope? id = none) (found : q.scope? id = some t) : t.isClosure = false := by
  refine changes.of_missing Scope.lasting_core ?_ (flat_of_change silent) absent found
  intro s t same flat
  rwa [Scope.isClosure, Scope.kind_eq_of_core same]

def Adds (made : ScopeId → Scope → Prop) (p q : Program) : Prop :=
  ∀ id t, p.scope? id = none → q.scope? id = some t → t.isClosure = true → made id t

variable {made : ScopeId → Scope → Prop}

theorem Adds.refl (made : ScopeId → Scope → Prop) (p : Program) : Adds made p p :=
  fun _ _ absent found _ => by cases absent.symm.trans found

theorem Adds.replace (made : ScopeId → Scope → Prop) (p : Program) (x : ScopeId) (c : Scope) :
    Adds made p (p.replace x c) :=
  fun _ _ absent found _ => by cases (scope?_replace_of_missing absent _ _).symm.trans found

/-- A counter moves on, and one scope is added. -/
theorem Adds.push {x : ScopeId} {after : Scope} (here : made p.nextId c) :
    Adds made p ((p.replace x after).push c) := by
  intro id t absent found _
  obtain ⟨rfl, rfl⟩ := eq_of_scope?_push (scope?_replace_of_missing absent _ _) found
  rwa [nextId_replace]

theorem adds_newClosure (parent : ScopeId) (forLoop : Bool) (line : Nat)
    (static : Option StaticScope) (signature : BlockSignature) (p : Program) :
    (newClosure parent forLoop line static signature).Leaves p
      (Adds ((Request.newClosure parent forLoop line static signature).Makes p.options) p) := by
  refine yields_ask_bind.2 ⟨fun around _ => ?_, fun _ _ => .refl _ p⟩
  refine yields_bind.2 (yields_ask_bind.2 ⟨fun flat _ => ?_, fun _ _ => .refl _ p⟩)
  refine yields_mint (fun outer number after _ _ => ?_) (fun _ _ _ => .refl _ p) fun _ => .refl _ p
  refine yields_ask_bind.2 ⟨fun depth _ => ?_, fun _ _ => .replace _ p _ _⟩
  rw [yields_bind, yields_get, yields_addScope, nextId_replace]
  exact .push ⟨rfl, rfl⟩

theorem adds_newEvalUnit (parent : ScopeId) (fileName : String) (line : Nat)
    (static : Option StaticScope) (stem : String) (p : Program) :
    (newEvalUnit parent fileName line static stem).Leaves p
      (Adds ((Request.newEvalUnit parent fileName line static stem).Makes p.options) p) := by
  refine yields_bind.2 (yields_ask_bind.2 ⟨fun flat _ => ?_, fun _ _ => .refl _ p⟩)
  refine yields_mint (fun outer number after _ _ => ?_) (fun _ _ _ => .refl _ p) fun _ => .refl _ p
  refine yields_ask_bind.2 ⟨fun depth _ => ?_, fun _ _ => .replace _ p _ _⟩
  rw [yields_addScope, nextId_replace]
  exact .push ⟨rfl, rfl⟩

/-- A request that does not clone makes its new closures with the descriptor that it was given. -/
theorem adds_request {α : Type} (r : Request α) (makes : r.cloneHost? = none) (p : Program) :
    r.run.Leaves p (Adds (r.Makes p.options) p) := by
  have none {may : ScopeId → Deed → Prop} (silent : ∀ x, ¬ may x .number)
      (changes : r.run.Leaves p (p.Changes may)) : r.run.Leaves p (Adds (r.Makes p.options) p) := by
    refine changes.weaken fun q changes id t absent found closed => ?_
    rw [flat_of_changes silent changes absent found] at closed
    cases closed
  cases r with
  | newClosure parent forLoop line static signature =>
    exact adds_newClosure parent forLoop line static signature p
  | newEvalUnit parent fileName line static stem =>
    exact adds_newEvalUnit parent fileName line static stem p
  | newClosureNumber id =>
    refine yields_ask_bind.2 ⟨fun flat _ => ?_, fun _ _ => .refl _ p⟩
    exact yields_mint (fun _ _ _ _ _ => .replace _ p _ _) (fun _ _ _ => .refl _ p) fun _ => .refl _ p
  | cloneClosure | cloneUnder | cloneOperand | cloneGuard | cloneInstr | cloneGraph => cases makes
  | _ =>
    -- None of the others may take a number.
    refine none (fun x allowed => ?_) (Request.changes _ makes p)
    simp [Request.may, Renaming.prepares] at allowed

/-- A closure that cloning adds has its kind and its descriptor from an older closure. -/
theorem Cloning.exists_source (cloning : p.Cloning flat q) (hosts : p.Hosts flat)
    (absent : p.scope? id = none) (found : q.scope? id = some c) :
    ∃ source s, source.index < id.index ∧ q.scope? source = some s ∧ s.isClosure = true ∧
      c.kind = s.kind ∧ c.staticScope = s.staticScope := by
  have beyond := size_le_of_missing absent
  cases graph : c.graph with
  | none =>
    cases cloning.shelled hosts id c beyond found graph with
    | intro source newer isClosure _ closed shelled =>
      obtain ⟨_, _, rfl⟩ := shelled
      exact ⟨_, _, newer, source, isClosure, rfl, rfl⟩
  | some g =>
    obtain ⟨parent, owner, source, cloned⟩ := cloning.traced hosts id c beyond found (by simp [graph])
    cases cloned with
    | intro source made newer copyable owners cloned nested =>
      cases made.symm.trans found
      exact ⟨_, _, newer, source, copyable.closure, cloned.kind, cloned.staticScope⟩

theorem WellFormed.exists_source {α : Type} (formed : p.WellFormed) (r : Request α)
    (copies : r.cloneHost? ≠ none) (absent : p.scope? id = none)
    (found : (p.after r.run).scope? id = some c) :
    ∃ source s, source.index < id.index ∧ (p.after r.run).scope? source = some s ∧
      s.isClosure = true ∧ c.kind = s.kind ∧ c.staticScope = s.staticScope := by
  obtain ⟨host, copies⟩ := Option.ne_none_iff_exists'.1 copies
  obtain same | ⟨flat, nearest, cloning⟩ := formed.clonesUnder (r.clones copies p).after
  · rw [after, same, absent] at found
    cases found
  · exact cloning.exists_source (formed.hosts nearest) absent found

/-! ## Bound descriptors -/

/--
If the descriptor of the scope at place `id` is bound, then to a block that has
the same descriptor: this scope itself, or an older one.
-/
def BoundToBlock (p : Program) (id : ScopeId) (s : Scope) : Prop :=
  ∀ x, s.boundTo? = some x → p.options.irOnly = false ∧ s.kind = .closure ∧ x.index ≤ id.index ∧
    ∃ t, p.scope? x = some t ∧ t.kind = .closure ∧ t.staticScope = s.staticScope

namespace BoundToBlock

/-- A new block names itself, and other new closures name nothing. -/
theorem fresh (found : p.scope? id = some s)
    (bound : s.boundTo? = s.freshBinding? p.options id) : p.BoundToBlock id s := by
  intro x names
  rw [bound, Scope.freshBinding?] at names
  split at names
  · rename_i block
    obtain ⟨-, -, rfl⟩ := Option.map_eq_some_iff.1 names
    exact ⟨block.1, block.2, Nat.le_refl _, s, found, block.2, rfl⟩
  · cases names

/-- Descriptors stay as they are. -/
theorem continues (bound : p.BoundToBlock id s) (continues : p.Continues q)
    (options : q.options = p.options) (same : t.core = s.core) : q.BoundToBlock id t := by
  have kept := Scope.staticScope_eq_of_core same
  intro x names
  rw [Scope.boundTo?, kept] at names
  obtain ⟨bodied, block, older, u, there, kind, shared⟩ := bound x names
  obtain ⟨u', there', same'⟩ := continues x u there
  refine ⟨options ▸ bodied, (Scope.kind_eq_of_core same).trans block, older, u', there',
    (Scope.kind_eq_of_core same').trans kind, ?_⟩
  rw [Scope.staticScope_eq_of_core same', shared, kept]

/-- A clone is bound where its source is. -/
theorem inherit (bound : q.BoundToBlock source s) (newer : source.index < id.index)
    (kind : c.kind = s.kind) (descriptor : c.staticScope = s.staticScope) :
    q.BoundToBlock id c ∧ c.boundTo? ≠ some id := by
  have through (x : ScopeId) (names : c.boundTo? = some x) : s.boundTo? = some x := by
    rwa [Scope.boundTo?, descriptor] at names
  constructor
  · intro x names
    obtain ⟨bodied, block, older, u, there, block', shared⟩ := bound x (through x names)
    exact ⟨bodied, kind.trans block, Nat.le_of_lt (Nat.lt_of_le_of_lt older newer), u, there, block',
      shared.trans descriptor.symm⟩
  · intro names
    obtain ⟨-, -, older, -⟩ := bound id (through id names)
    exact absurd newer (Nat.not_lt.2 older)

end BoundToBlock

def BoundToBlocks (p : Program) : Prop :=
  ∀ id s, p.scope? id = some s → s.isClosure = true → p.BoundToBlock id s

/-- It is enough that a new closure is, as long as the older ones are. -/
theorem BoundToBlocks.extend (bound : p.BoundToBlocks) (continues : p.Continues q)
    (options : q.options = p.options)
    (new : ∀ id t, p.scope? id = none → q.scope? id = some t → t.isClosure = true →
      (∀ x s, x.index < id.index → q.scope? x = some s → s.isClosure = true → q.BoundToBlock x s) →
        q.BoundToBlock id t) : q.BoundToBlocks := by
  intro id t found closed
  induction h : id.index using Nat.strongRecOn generalizing id t with
  | ind n ih =>
    cases there : p.scope? id with
    | some s =>
      obtain ⟨t', found', same⟩ := continues id s there
      cases found.symm.trans found'
      have closed' : s.isClosure = true := by
        rwa [Scope.isClosure, ← Scope.kind_eq_of_core same]
      exact (bound id s there closed').continues continues options same
    | none =>
      apply new id t there found closed
      exact fun x s newer before closed' => ih x.index (h ▸ newer) x s before closed' rfl

/-- The programs that are reached when no descriptor that is handed over is bound yet. -/
inductive ReachableUnbound : Program → Prop where
  | start (options : Options) : ReachableUnbound { options }
  | step {α : Type} {p : Program} (before : ReachableUnbound p) (r : Request α)
      (unbound : r.Unbound) : ReachableUnbound (p.after r.run)

theorem ReachableUnbound.reachable (reached : p.ReachableUnbound) : p.Reachable := by
  induction reached with
  | start options => exact .start options
  | step _ r _ ih => exact ih.step r

theorem ReachableUnbound.boundToBlocks (reached : p.ReachableUnbound) : p.BoundToBlocks := by
  induction reached with
  | start options =>
    intro id s found
    simp [scope?] at found
  | @step α p before r unbound ih =>
    have formed := before.reachable.wellFormed
    have options := formed.options_after r
    apply ih.extend (formed.continues r) options
    intro id t absent found closed older
    cases copies : r.cloneHost? with
    | none =>
      have makes := (adds_request r copies p).after id t absent found closed
      exact .fresh found (options ▸ makes.boundTo?_eq unbound)
    | some host =>
      obtain ⟨source, s, newer, before, closed', kind, descriptor⟩ :=
        formed.exists_source r (by simp [copies]) absent found
      exact ((older source s newer before closed').inherit newer kind descriptor).1

/--
Descriptors that come unbound are bound by new blocks, each to itself as its
block body is; other new closures leave theirs unbound, and nothing changes a
descriptor.  A clone has that of its source and so never one that names it: it
names the block, no newer than the source, from which both come.
-/
theorem boundToBlocks_of_reachable (reached : p.ReachableUnbound) :
    (∀ id s, p.scope? id = some s → s.isClosure = true →
      p.BoundToBlock id s ∧ ∀ body, s.blockBody = some body → body.closure = id) ∧
    (∀ parent owner source clone s c, p.IsClone parent owner source clone →
      p.scope? source = some s → p.scope? clone = some c →
        c.staticScope = s.staticScope ∧ c.boundTo? ≠ some clone) ∧
    ∀ {α : Type} (r : Request α), r.Unbound →
      (∀ id s, p.scope? id = some s →
        ∃ t, (p.after r.run).scope? id = some t ∧ t.staticScope = s.staticScope) ∧
      ∀ id t, p.scope? id = none → (p.after r.run).scope? id = some t → t.isClosure = true →
        if r.cloneHost? = none then t.boundTo? = t.freshBinding? p.options id
        else t.boundTo? ≠ some id ∧ ∃ source s, source.index < id.index ∧
          (p.after r.run).scope? source = some s ∧ t.kind = s.kind ∧ t.staticScope = s.staticScope := by
  have formed := reached.reachable.wellFormed
  have bound := reached.boundToBlocks
  refine ⟨fun id s found closed => ⟨bound id s found closed, ?_⟩, ?_, fun r unbound => ⟨?_, ?_⟩⟩
  · exact (reached.reachable.everywhere Scope.invariant_namesItself id s found).body
  · rintro parent owner source clone s c ⟨found, made, newer, copyable, -, cloned, -⟩ found' made'
    cases found.symm.trans found'
    cases made.symm.trans made'
    refine ⟨cloned.staticScope, ?_⟩
    exact ((bound source s found copyable.closure).inherit newer cloned.kind cloned.staticScope).2
  · intro id s found
    obtain ⟨t, there, same⟩ := formed.continues r id s found
    exact ⟨t, there, Scope.staticScope_eq_of_core same⟩
  · intro id t absent found closed
    split
    · rename_i copies
      exact ((adds_request r copies p).after id t absent found closed).boundTo?_eq unbound
    · rename_i copies
      obtain ⟨source, s, newer, before, closed', kind, descriptor⟩ :=
        formed.exists_source r copies absent found
      have named := (reached.step r unbound).boundToBlocks source s before closed'
      exact ⟨(named.inherit newer kind descriptor).2, source, s, newer, before, kind, descriptor⟩

/-- A script with a block that has a descriptor, and a clone of the block beside it. -/
def boundClosure : Program :=
  ({} : Program)
    |>.after (newScript "main.rb")
    |>.after (newClosure ⟨0⟩ false 1 (some ⟨["a"], none⟩) {})
    |>.after (buildGraph ⟨1⟩)
    |>.after (cloneClosure ⟨1⟩ ⟨0⟩)

theorem reachableUnbound_boundClosure : boundClosure.ReachableUnbound :=
  ReachableUnbound.start {}
    |>.step (.newScript "main.rb") trivial
    |>.step (.newClosure ⟨0⟩ false 1 (some ⟨["a"], none⟩) {}) rfl
    |>.step (.buildGraph ⟨1⟩) trivial
    |>.step (.cloneClosure ⟨1⟩ ⟨0⟩) trivial

theorem bound_boundClosure :
    ∃ c, boundClosure.scope? ⟨2⟩ = some c ∧ c.isClosure = true ∧ c.boundTo? = some ⟨1⟩ := by
  have shape : (boundClosure.scope? ⟨2⟩).any (fun c =>
      c.isClosure && decide (c.boundTo? = some ⟨1⟩)) = true := by decide +kernel
  obtain ⟨c, found, known⟩ := (Option.any_eq_true _ _).1 shape
  rw [Bool.and_eq_true, decide_eq_true_eq] at known
  exact ⟨c, found, known⟩

/-- The block body of the clone names the clone, and its descriptor the block. -/
theorem boundToBlocks_boundClosure :
    ∃ c, boundClosure.scope? ⟨2⟩ = some c ∧ c.isClosure = true ∧ c.boundTo? = some ⟨1⟩ ∧
      boundClosure.BoundToBlock ⟨2⟩ c ∧ ∀ body, c.blockBody = some body → body.closure = ⟨2⟩ := by
  obtain ⟨c, found, closed, names⟩ := bound_boundClosure
  obtain ⟨bound, called⟩ :=
    (boundToBlocks_of_reachable reachableUnbound_boundClosure).1 ⟨2⟩ c found closed
  exact ⟨c, found, closed, names, bound, called⟩

/-- So not every bound descriptor names the closure that has it. -/
theorem not_forall_boundTo?_self :
    ¬ ∀ (p : Program) (id : ScopeId) (s : Scope), p.ReachableUnbound → p.scope? id = some s →
      s.isClosure = true → ∀ x, s.boundTo? = some x → x = id := by
  intro always
  obtain ⟨c, found, closed, names⟩ := bound_boundClosure
  cases always _ ⟨2⟩ c reachableUnbound_boundClosure found closed ⟨1⟩ names

end Program

end ClosureIR
