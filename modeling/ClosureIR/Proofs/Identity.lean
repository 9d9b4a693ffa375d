import ClosureIR.Proofs.Reachable

/-!
# What a scope stays

Operations fill a scope and count what it hands out.  What it was made as never
changes: its place, kind, name, file, line and parent, and for a closure its
number, labels, depth and block body.
-/

namespace ClosureIR

open BuildM Relation

/-- A closure without what it received, what its parameters are called, and whether it was inlined. -/
def ClosureData.core (data : ClosureData) : ClosureData :=
  { data with isInlined := false, blockArgs := [], parameters := [] }

namespace Scope

def core (s : Scope) : Scope :=
  { s with
    instrs := []
    locals := {}
    temporaries := 0
    closures := 0
    names := ∅
    graph := none
    closure := s.closure.map ClosureData.core }

variable {id : ScopeId} {s t : Scope} {deed : Deed}

theorem core_withClosure {f : ClosureData → ClosureData} (same : ∀ data, (f data).core = data.core) :
    (s.withClosure f).core = s.core := by
  cases closed : s.closure <;> simp [core, withClosure, closed, same]

/-- No edit makes another scope of it. -/
theorem Edit.core_eq (edited : s.Edit id deed t) : t.core = s.core := by
  have counted := edited.of_counts
  cases edited with
  | name | temporary | number =>
    obtain ⟨_, _, _, -, rfl⟩ := counted trivial
    rfl
  | declare | overflow | graph => rfl
  | append i =>
    show (s.withClosure _).core = s.core
    exact core_withClosure fun _ => rfl
  | inline | parameters => exact core_withClosure fun _ => rfl

theorem kind_eq_of_core (same : t.core = s.core) : t.kind = s.kind :=
  (congrArg Scope.kind same : t.core.kind = s.core.kind)

theorem parent_eq_of_core (same : t.core = s.core) : t.parent = s.parent :=
  (congrArg Scope.parent same : t.core.parent = s.core.parent)

theorem staticScope_eq_of_core (same : t.core = s.core) : t.staticScope = s.staticScope :=
  (congrArg Scope.staticScope same : t.core.staticScope = s.core.staticScope)

theorem closure_map_eq_of_core {α : Type} {f : ClosureData → α} (fixed : ∀ data, f data.core = f data)
    (same : t.core = s.core) : t.closure.map f = s.closure.map f := by
  have through (u : Scope) : u.core.closure.map f = u.closure.map f := by
    rw [core, Option.map_map]
    exact Option.map_congr fun data _ => fixed data
  rw [← through, same, through]

/-- What relates a scope to what becomes of it, whatever is done to the program. -/
structure Lasting (R : Scope → Scope → Prop) : Prop where
  refl : ∀ s, R s s
  trans : ∀ {s t u}, R s t → R t u → R s u
  edit : ∀ {id s deed t}, s.Edit id deed t → R s t
  counted : ∀ s n, R s { s with closures := s.closures + n }

theorem lasting_core : Lasting fun s t => t.core = s.core where
  refl _ := rfl
  trans first second := second.trans first
  edit edited := edited.core_eq
  counted _ _ := rfl

end Scope

namespace Program

def Tracks (R : Scope → Scope → Prop) (p q : Program) : Prop :=
  ∀ id s, p.scope? id = some s → ∃ t, q.scope? id = some t ∧ R s t

variable {R : Scope → Scope → Prop} {p q t : Program} {may : ScopeId → Deed → Prop}

namespace Tracks

theorem refl (lasting : Scope.Lasting R) (p : Program) : p.Tracks R p :=
  fun _ s found => ⟨s, found, lasting.refl s⟩

theorem trans (lasting : Scope.Lasting R) (first : p.Tracks R q) (second : q.Tracks R t) :
    p.Tracks R t := by
  intro id s found
  obtain ⟨u, there, related⟩ := first id s found
  obtain ⟨v, here, related'⟩ := second id u there
  exact ⟨v, here, lasting.trans related related'⟩

theorem push (lasting : Scope.Lasting R) (p : Program) (s : Scope) : p.Tracks R (p.push s) := by
  intro id u found
  refine ⟨u, ?_, lasting.refl u⟩
  rw [scope?_push_of_ne, found]
  rintro rfl
  exact Nat.lt_irrefl _ (lt_size_of_scope? found)

theorem edit (lasting : Scope.Lasting R) {id : ScopeId} {deed : Deed} {s after : Scope}
    (found : p.scope? id = some s) (edited : s.Edit id deed after) :
    p.Tracks R (p.replace id after) := by
  intro x u there
  rw [scope?_replace]
  split
  · rename_i here
    subst here
    cases found.symm.trans there
    exact ⟨after, by rw [found]; rfl, lasting.edit edited⟩
  · exact ⟨u, there, lasting.refl u⟩

theorem of_change (lasting : Scope.Lasting R) (change : p.Change may q) : p.Tracks R q := by
  cases change with
  | edit found edited => exact edit lasting found edited
  | script fileName => exact push lasting _ _
  | method found name line static => exact push lasting _ _
  | block found nearest host minted deep forLoop line static signature =>
    exact (edit lasting host (.number minted)).trans lasting (push lasting _ _)
  | evalUnit nearest host minted deep fileName line static stem =>
    exact (edit lasting host (.number minted)).trans lasting (push lasting _ _)

theorem of_changes (lasting : Scope.Lasting R) (changes : p.Changes may q) : p.Tracks R q := by
  induction changes with
  | refl => exact refl lasting p
  | tail _ last ih => exact ih.trans lasting (of_change lasting last)

theorem of_grown (lasting : Scope.Lasting R) {flat : ScopeId} (grown : p.Grown flat q) :
    p.Tracks R q := by
  intro id s found
  refine ⟨_, grown.old id s found, ?_⟩
  split
  · exact lasting.counted s _
  · exact lasting.refl s

end Tracks

/-- Whatever is asked of a program, its scopes stay so related. -/
theorem WellFormed.tracks {α : Type} (formed : p.WellFormed) (lasting : Scope.Lasting R)
    (r : Request α) : p.Tracks R (p.after r.run) := by
  cases copies : r.cloneHost? with
  | none => exact .of_changes lasting (r.changes copies p).after
  | some host =>
    obtain same | ⟨flat, nearest, cloning⟩ := formed.clonesUnder (r.clones copies p).after
    · rw [after, same]
      exact .refl lasting p
    · exact .of_grown lasting (cloning.grown (formed.hosts nearest))

/-- What a scope has when a change adds it, and keeps, it has after a row of changes. -/
theorem Changes.of_missing {P : Scope → Prop} (lasting : Scope.Lasting R)
    (keeps : ∀ {s t}, R s t → P s → P t)
    (new : ∀ {p q : Program} {id : ScopeId} {t : Scope}, p.Change may q → p.scope? id = none →
      q.scope? id = some t → P t)
    (changes : p.Changes may q) {id : ScopeId} {t : Scope} (absent : p.scope? id = none)
    (found : q.scope? id = some t) : P t := by
  induction changes generalizing t with
  | refl => cases absent.symm.trans found
  | @tail q _ _ last ih =>
    cases there : q.scope? id with
    | none => exact new last there found
    | some s =>
      obtain ⟨t', found', related⟩ := Tracks.of_change lasting last id s there
      cases found.symm.trans found'
      exact keeps related (ih there)

def Continues (p q : Program) : Prop := p.Tracks (fun s t => t.core = s.core) q

theorem Continues.outlines (continues : p.Continues q) : p.Outlines q := by
  intro id s found
  obtain ⟨u, there, same⟩ := continues id s found
  exact ⟨u, there, Scope.kind_eq_of_core same, Scope.parent_eq_of_core same⟩

/-- Whatever is asked of a program, its scopes stay what they were made as. -/
theorem WellFormed.continues {α : Type} (formed : p.WellFormed) (r : Request α) :
    p.Continues (p.after r.run) :=
  formed.tracks Scope.lasting_core r

theorem Change.options (change : p.Change may q) : q.options = p.options := by
  cases change <;> rfl

theorem Changes.options (changes : p.Changes may q) : q.options = p.options := by
  induction changes with
  | refl => rfl
  | tail _ last ih => exact last.options.trans ih

/-- The options are those that the program began with. -/
theorem WellFormed.options_after {α : Type} (formed : p.WellFormed) (r : Request α) :
    (p.after r.run).options = p.options := by
  cases copies : r.cloneHost? with
  | none => exact (r.changes copies p).after.options
  | some host =>
    obtain same | ⟨flat, nearest, cloning⟩ := formed.clonesUnder (r.clones copies p).after
    · rw [after, same]
    · exact (cloning.grown (formed.hosts nearest)).options

end Program

end ClosureIR
