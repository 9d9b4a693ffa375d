import ClosureIR.Proofs.Flow.Edges
import ClosureIR.Proofs.Identity
import ClosureIR.Proofs.Lexical.Resolve

/-!
# Slots and their names

As long as no table is full, a slot is given away once.  It then belongs to one
name, although the name may later get another slot, and all locals with this
slot in tables and in instructions have this name.  Changes to a program keep
this, when the locals in appended instructions have the names of their slots.
-/

namespace ClosureIR

open BuildM Relation

/-- The names that the slots of scopes belong to. -/
abbrev Naming := ScopeId → Nat → Option String

namespace Naming

variable {N N' N'' : Naming} {v w : LocalVar} {id : ScopeId} {n : Nat} {name : String}

def Has (N : Naming) (v : LocalVar) : Prop := N v.owner v.slot = some v.name

def Le (N N' : Naming) : Prop := ∀ id n name, N id n = some name → N' id n = some name

theorem Le.refl (N : Naming) : N.Le N := fun _ _ _ has => has

theorem Le.trans (first : N.Le N') (second : N'.Le N'') : N.Le N'' :=
  fun id n name has => second id n name (first id n name has)

theorem Has.mono (has : N.Has v) (le : N.Le N') : N'.Has v := le _ _ _ has

/-- Locals in the same slot have the same name. -/
theorem Has.sameBinding (has : N.Has v) (has' : N.Has w) (owner : v.owner = w.owner)
    (slot : v.slot = w.slot) : v.SameBinding w := by
  refine ⟨owner, slot, ?_⟩
  rw [Has, owner, slot] at has
  exact Option.some.inj (has.symm.trans has')

def give (N : Naming) (id : ScopeId) (n : Nat) (name : String) : Naming :=
  fun x k => if x = id ∧ k = n then some name else N x k

theorem give_self (N : Naming) (id : ScopeId) (n : Nat) (name : String) :
    N.give id n name id n = some name := if_pos ⟨rfl, rfl⟩

theorem le_give (free : N id n = none) (name : String) : N.Le (N.give id n name) := by
  intro x k other has
  rw [give, if_neg]
  · exact has
  · rintro ⟨rfl, rfl⟩
    cases free.symm.trans has

end Naming

/-! ## One scope -/

namespace Scope

def Contains (s : Scope) (i : Instr) : Prop := i ∈ s.instrs ∨ ∃ g, s.graph = some g ∧ i ∈ g.instrs

/-- The locals that the scope at place `id` declares and mentions have the names of their slots. -/
structure Named (N : Naming) (id : ScopeId) (s : Scope) : Prop where
  table : ∀ name v, s.locals.get? name = some v → v.owner = id ∧ N.Has v
  code : ∀ i v, s.Contains i → .ofLocal v ∈ i.vars → N.Has v

variable {N N' : Naming} {id : ScopeId} {s t : Scope} {deed : Deed}

theorem Named.mono (named : s.Named N id) (le : N.Le N') : s.Named N' id where
  table name v bound := ⟨(named.table name v bound).1, (named.table name v bound).2.mono le⟩
  code i v contains mentions := (named.code i v contains mentions).mono le

theorem named_of_bare (empty : s.locals = {}) (instrs : s.instrs = []) (graph : s.graph = none) :
    s.Named N id where
  table name v bound := by
    rw [empty] at bound
    cases bound
  code i v contains _ := by
    obtain member | ⟨g, drawn, -⟩ := contains
    · rw [instrs] at member
      cases member
    · cases graph.symm.trans drawn

/-- A declaration gives the next slot to its name. -/
theorem Named.declare (named : s.Named N id) (free : N id s.locals.nextSlot = none) (name : String)
    (kind : LocalKind) (nextSlot : Nat) :
    Named (N.give id s.locals.nextSlot name) id { s with
      locals := { s.locals.store ⟨name, 0, s.locals.nextSlot, id, kind⟩ with nextSlot } } := by
  have more := named.mono (Naming.le_give free name)
  refine ⟨fun other v bound => ?_, more.code⟩
  by_cases same : other = name
  · subst same
    cases (LocalTable.get?_store_self s.locals ⟨other, 0, s.locals.nextSlot, id, kind⟩).symm.trans bound
    exact ⟨rfl, N.give_self id _ other⟩
  · have before := LocalTable.get?_store_of_ne s.locals ⟨name, 0, s.locals.nextSlot, id, kind⟩ same
    exact more.table other v (before.symm.trans bound)

theorem Named.append (named : s.Named N id) {i : Instr} (known : ∀ v, .ofLocal v ∈ i.vars → N.Has v) :
    (s.append i).Named N id where
  table := named.table
  code j v contains mentions := by
    obtain member | drawn := contains
    · rcases List.mem_append.1 member with old | new
      · exact named.code j v (.inl old) mentions
      · cases List.mem_singleton.1 new
        exact known v mentions
    · exact named.code j v (.inr drawn) mentions

theorem Named.build (named : s.Named N id) {fresh : Nat → Label} {g : Graph}
    (built : Graph.build id s.name s.instrs fresh = .ok g) :
    Named N id { s with graph := some g } where
  table := named.table
  code j v contains mentions := by
    obtain member | ⟨h, drawn, member⟩ := contains
    · exact named.code j v (.inl member) mentions
    · cases drawn
      rw [Graph.instrs, (Graph.laid_of_build built).instrs] at member
      exact named.code j v (.inl member) mentions

/-- An edit gives away the next slot at most, and then to the name that is declared. -/
theorem Edit.named (edited : s.Edit id deed t) (named : s.Named N id)
    (free : N id s.locals.nextSlot = none) (room : s.locals.nextSlot + 1 < Counter.bound)
    (known : ∀ i, deed = .append i → ∀ v, .ofLocal v ∈ i.vars → N.Has v) :
    ∃ N', N.Le N' ∧ t.Named N' id ∧
      ∀ x n name, N' x n = some name → N x n = some name ∨ x = id ∧ n < t.locals.nextSlot := by
  have unchanged (same : t.Named N id) : ∃ N', N.Le N' ∧ t.Named N' id ∧
      ∀ x n name, N' x n = some name → N x n = some name ∨ x = id ∧ n < t.locals.nextSlot :=
    ⟨N, .refl N, same, fun _ _ _ has => .inl has⟩
  have counted := edited.of_counts
  cases edited with
  | name | temporary | number =>
    obtain ⟨_, _, _, -, rfl⟩ := counted trivial
    exact unchanged ⟨named.table, named.code⟩
  | @declare name kind _ site stored =>
    obtain ⟨slot, next, rfl⟩ := Option.map_eq_some_iff.1 stored
    obtain ⟨rfl, -⟩ := Counter.next?_eq_some_iff.1 next
    refine ⟨_, N.le_give free name, named.declare free name kind _, fun x n other has => ?_⟩
    rw [Naming.give] at has
    split at has
    · rename_i here
      exact .inr ⟨here.1, here.2 ▸ Nat.lt_succ_self _⟩
    · exact .inl has
  | overflow site full =>
    have large := Counter.next?_eq_none_iff.1 (Option.map_eq_none_iff.1 full)
    exact absurd room (Nat.not_lt.2 large)
  | append i live => exact unchanged (named.append (known i rfl))
  | graph live built => exact unchanged (named.build built)
  | inline | parameters => exact unchanged ⟨named.table, named.code⟩

theorem lasting_slots : Lasting fun s t => s.locals.nextSlot ≤ t.locals.nextSlot where
  refl _ := Nat.le_refl _
  trans := Nat.le_trans
  edit edited := by
    have counted := edited.of_counts
    cases edited with
    | name | temporary | number =>
      obtain ⟨_, _, _, -, rfl⟩ := counted trivial
      exact Nat.le_refl _
    | declare site stored =>
      obtain ⟨slot, next, rfl⟩ := Option.map_eq_some_iff.1 stored
      obtain ⟨rfl, -⟩ := Counter.next?_eq_some_iff.1 next
      exact Nat.le_succ _
    | overflow | append | graph | inline | parameters => exact Nat.le_refl _
  counted _ _ := Nat.le_refl _

end Scope

/-! ## All scopes -/

namespace Program

def Room (p : Program) : Prop := ∀ id, ¬ p.FullAt id

/-- All scopes agree on the names of slots, and only slots that were given away have names. -/
structure Named (N : Naming) (p : Program) : Prop where
  scopes : ∀ id s, p.scope? id = some s → s.Named N id
  below : ∀ id n name, N id n = some name → ∃ s, p.scope? id = some s ∧ n < s.locals.nextSlot

variable {N N' : Naming} {p q : Program} {id : ScopeId} {s t : Scope} {may : ScopeId → Deed → Prop}

/-- Tables only get fuller. -/
theorem Room.earlier (room : q.Room)
    (tracks : p.Tracks (fun s t => s.locals.nextSlot ≤ t.locals.nextSlot) q) : p.Room := by
  rintro id ⟨s, found, full⟩
  obtain ⟨t, there, more⟩ := tracks id s found
  exact room id ⟨t, there, Nat.le_trans full (Nat.succ_le_succ more)⟩

theorem Room.lt_bound (room : p.Room) (found : p.scope? id = some s) :
    s.locals.nextSlot + 1 < Counter.bound :=
  Nat.not_le.1 fun full => room id ⟨s, found, full⟩

namespace Named

theorem start (options : Options) : Named (fun _ _ => none) { options } where
  scopes id s found := by simp [scope?] at found
  below id n name has := by cases has

/-- The next slot of a scope has no name. -/
theorem free (named : p.Named N) (found : p.scope? id = some s) : N id s.locals.nextSlot = none := by
  cases given : N id s.locals.nextSlot with
  | none => rfl
  | some name =>
    obtain ⟨t, there, below⟩ := named.below id _ name given
    cases found.symm.trans there
    exact absurd below (Nat.lt_irrefl _)

/-- Only slots of scopes that are there have names. -/
theorem inside (named : p.Named N) {v : LocalVar} (has : N.Has v) :
    v.owner.index < p.scopes.size := by
  obtain ⟨s, found, -⟩ := named.below _ _ _ has
  exact lt_size_of_scope? found

theorem replace (named : p.Named N) (le : N.Le N') (found : p.scope? id = some s)
    (here : t.Named N' id) (slots : s.locals.nextSlot ≤ t.locals.nextSlot)
    (only : ∀ x n name, N' x n = some name → N x n = some name ∨ x = id ∧ n < t.locals.nextSlot) :
    (p.replace id t).Named N' where
  scopes x u there := by
    obtain ⟨rfl, rfl⟩ | old := scope?_replace_cases there
    · exact here
    · exact (named.scopes x u old).mono le
  below x n name has := by
    rw [scope?_replace]
    split
    · rename_i same
      subst same
      refine ⟨t, by rw [found]; rfl, ?_⟩
      obtain before | ⟨-, below⟩ := only x n name has
      · obtain ⟨u, there, below⟩ := named.below x n name before
        cases found.symm.trans there
        exact Nat.lt_of_lt_of_le below slots
      · exact below
    · rename_i other
      obtain before | ⟨same, -⟩ := only x n name has
      · exact named.below x n name before
      · exact absurd same other

theorem push (named : p.Named N) (here : t.Named N p.nextId) : (p.push t).Named N where
  scopes x u there := by
    obtain ⟨rfl, rfl⟩ | old := scope?_push_cases there
    · exact here
    · exact named.scopes x u old
  below x n name has := by
    obtain ⟨u, there, below⟩ := named.below x n name has
    refine ⟨u, ?_, below⟩
    rw [scope?_push_of_ne, there]
    rintro rfl
    exact Nat.lt_irrefl _ (lt_size_of_scope? there)

theorem edit (named : p.Named N) (room : p.Room) {deed : Deed} (found : p.scope? id = some s)
    (edited : s.Edit id deed t)
    (known : ∀ i, deed = .append i → ∀ v, .ofLocal v ∈ i.vars → N.Has v) :
    ∃ N', N.Le N' ∧ (p.replace id t).Named N' := by
  obtain ⟨N', le, here, only⟩ :=
    edited.named (named.scopes id s found) (named.free found) (room.lt_bound found) known
  exact ⟨N', le, named.replace le found here (Scope.lasting_slots.edit edited) only⟩

theorem number (named : p.Named N) (room : p.Room) {n : Nat} (found : p.scope? id = some s)
    (minted : s.mintClosureNumber? = some (n, t)) : ∃ N', N.Le N' ∧ (p.replace id t).Named N' :=
  named.edit room found (.number minted) fun _ never => by cases never

theorem change (named : p.Named N) (room : p.Room) (change : p.Change may q)
    (known : ∀ x i, may x (.append i) → ∀ v, .ofLocal v ∈ i.vars → N.Has v) :
    ∃ N', N.Le N' ∧ q.Named N' := by
  cases change with
  | edit found edited allowed =>
    refine named.edit room found edited ?_
    rintro i rfl
    exact known _ i allowed
  | script fileName => exact ⟨N, .refl N, named.push (Scope.named_of_bare rfl rfl rfl)⟩
  | method found name line static =>
    exact ⟨N, .refl N, named.push (Scope.named_of_bare rfl rfl rfl)⟩
  | block found nearest host minted =>
    obtain ⟨N', le, numbered⟩ := named.number room host minted
    exact ⟨N', le, numbered.push (Scope.named_of_bare rfl rfl rfl)⟩
  | evalUnit nearest host minted =>
    obtain ⟨N', le, numbered⟩ := named.number room host minted
    exact ⟨N', le, numbered.push (Scope.named_of_bare rfl rfl rfl)⟩

/-- A row of changes keeps all names that were given, as long as no table is full in the end. -/
theorem changes (named : p.Named N) (changes : p.Changes may q) (room : q.Room)
    (known : ∀ x i, may x (.append i) → ∀ v, .ofLocal v ∈ i.vars → N.Has v) :
    ∃ N', N.Le N' ∧ q.Named N' := by
  induction changes with
  | refl => exact ⟨N, .refl N, named⟩
  | tail before last ih =>
    have earlier := room.earlier (.of_change Scope.lasting_slots last)
    obtain ⟨N', le, named'⟩ := ih earlier
    obtain ⟨N'', le', named''⟩ := named'.change earlier last fun x i allowed v mentions =>
      (known x i allowed v mentions).mono le
    exact ⟨N'', le.trans le', named''⟩

end Named

end Program

end ClosureIR
