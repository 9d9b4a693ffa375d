import ClosureIR.Proofs.Change

/-!
# Well-formed arenas

In a well-formed program every scope knows its place, every scope but a script
has a parent that was made before it, and exactly the closures have closure
data.  Lexical walks then end at a method or script.
-/

namespace ClosureIR

def Operand.IsParameter (o : Operand) : Prop := ∃ v, o = .var v ∨ o = .splat (.var v)

theorem Instr.isParameter_of_parameter? {i : Instr} {o : Operand} (given : i.parameter? = some o) :
    o.IsParameter := by
  cases i <;> cases given
  · exact ⟨_, .inl rfl⟩
  · exact ⟨_, .inl rfl⟩
  · exact ⟨_, .inr rfl⟩

namespace Scope

theorem blockArgs_withClosure (s : Scope) {f : ClosureData → ClosureData}
    (same : ∀ data, (f data).blockArgs = data.blockArgs) :
    (s.withClosure f).blockArgs = s.blockArgs := by
  cases closed : s.closure <;> simp [blockArgs, withClosure, closed, same]

/-- What holds of every scope, at whatever place in the arena it stands. -/
structure Valid (id : ScopeId) (s : Scope) : Prop where
  place : s.id = id
  parent : if s.kind = .script then s.parent = none
    else ∃ q, s.parent = some q ∧ q.index < id.index
  closure : s.closure.isSome = s.isClosure
  blockArgs : ∀ o ∈ s.blockArgs, o.IsParameter

namespace Valid

variable {id : ScopeId} {s after : Scope} {deed : Deed}

theorem exists_parent (valid : s.Valid id) (closed : s.isClosure = true) :
    ∃ q, s.parent = some q ∧ q.index < id.index := by
  have other : s.kind ≠ .script := by
    intro script
    simp [isClosure, script, ScopeKind.isClosure] at closed
  simpa [other] using valid.parent

/-- A parent was made before what lies in it. -/
theorem older (valid : s.Valid id) {q : ScopeId} (lies : s.parent = some q) : q.index < id.index := by
  have parent := valid.parent
  split at parent
  · cases lies.symm.trans parent
  · obtain ⟨q', lies', older⟩ := parent
    cases lies.symm.trans lies'
    exact older

theorem isClosure_of_closure (valid : s.Valid id) {data : ClosureData}
    (closed : s.closure = some data) : s.isClosure = true := by
  rw [← valid.closure, closed]
  rfl

theorem exists_closure (valid : s.Valid id) (isClosure : s.isClosure = true) :
    ∃ data, s.closure = some data :=
  Option.isSome_iff_exists.1 (valid.closure.trans isClosure)

/-- Closure data may change where the block arguments stay. -/
theorem withClosure (valid : s.Valid id) {f : ClosureData → ClosureData}
    (same : ∀ data, (f data).blockArgs = data.blockArgs) : (s.withClosure f).Valid id := by
  refine ⟨valid.place, valid.parent, ?_, ?_⟩
  · exact (Option.isSome_map ..).trans valid.closure
  · rw [blockArgs_withClosure s same]
    exact valid.blockArgs

theorem append (valid : s.Valid id) (i : Instr) : (s.append i).Valid id := by
  refine ⟨valid.place, valid.parent, ?_, ?_⟩
  · exact (Option.isSome_map ..).trans valid.closure
  · intro o member
    cases closed : s.closure with
    | none => simp [Scope.append, Scope.withClosure, Scope.blockArgs, closed] at member
    | some data =>
      rw [append_blockArgs i closed] at member
      rcases List.mem_append.1 member with old | new
      · exact valid.blockArgs o old
      · exact Instr.isParameter_of_parameter? (Option.mem_toList.1 new)

/-- No edit breaks the rules. -/
theorem edit (valid : s.Valid id) (edited : s.Edit id deed after) : after.Valid id := by
  have counted := edited.of_counts
  cases edited with
  | name | temporary | number =>
    obtain ⟨_, _, _, -, rfl⟩ := counted trivial
    exact ⟨valid.place, valid.parent, valid.closure, valid.blockArgs⟩
  | declare site stored => exact ⟨valid.place, valid.parent, valid.closure, valid.blockArgs⟩
  | overflow site full => exact ⟨valid.place, valid.parent, valid.closure, valid.blockArgs⟩
  | append i live => exact valid.append i
  | graph live built => exact ⟨valid.place, valid.parent, valid.closure, valid.blockArgs⟩
  | inline => exact valid.withClosure fun _ => rfl
  | parameters names => exact valid.withClosure fun _ => rfl

end Valid

theorem valid_ofScript (fileName : String) (id : ScopeId) : (ofScript fileName id).Valid id :=
  ⟨rfl, rfl, rfl, by simp [blockArgs, ofScript]⟩

theorem valid_ofMethod {parent id : ScopeId} (older : parent.index < id.index)
    (fileName name : String) (line : Nat) (static : Option StaticScope) :
    (ofMethod parent fileName name line static id).Valid id :=
  ⟨rfl, ⟨parent, rfl, older⟩, rfl, by simp [blockArgs, ofMethod]⟩

theorem valid_ofBlock {parent id : ScopeId} (older : parent.index < id.index) (options : Options)
    (fileName : String) (forLoop : Bool) (line : Nat) (static : Option StaticScope)
    (signature : BlockSignature) (number depth : Nat) :
    (ofBlock options parent fileName forLoop line static signature number depth id).Valid id := by
  refine ⟨rfl, ?_, ?_, by simp [blockArgs, ofBlock, ClosureData.fresh]⟩
  · cases forLoop <;> exact ⟨parent, rfl, older⟩
  · cases forLoop <;> rfl

theorem valid_ofEvalUnit {parent id : ScopeId} (older : parent.index < id.index)
    (fileName : String) (line : Nat) (static : Option StaticScope) (stem : String)
    (number depth : Nat) :
    (ofEvalUnit parent fileName line static stem number depth id).Valid id :=
  ⟨rfl, ⟨parent, rfl, older⟩, rfl, by simp [blockArgs, ofEvalUnit, ClosureData.fresh]⟩

end Scope

namespace Program

variable {p q : Program} {id flat : ScopeId} {s : Scope}

/-! ## The way up to the method or script -/

theorem nearestFlat_of_flat (found : p.scope? id = some s) (outer : s.isClosure = false) :
    p.nearestFlat id = .ok id := by
  rw [nearestFlat]
  simp [scope_eq_ok_iff.2 found, outer]

theorem nearestFlat_of_closure {parent : ScopeId} (found : p.scope? id = some s)
    (closed : s.isClosure = true) (lies : s.parent = some parent)
    (older : parent.index < id.index) : p.nearestFlat id = p.nearestFlat parent := by
  rw [nearestFlat]
  simp only [scope_eq_ok_iff.2 found, closed, if_true]
  rw [(Scope.enclosing_eq_ok_iff (q := ⟨parent, older⟩)).2 lies]

/-- A walk that ends has begun at a scope of the arena, and either stays there or goes on. -/
theorem nearestFlat_cases (nearest : p.nearestFlat id = .ok flat) :
    ∃ s, p.scope? id = some s ∧
      ((s.isClosure = false ∧ flat = id) ∨
        (s.isClosure = true ∧ ∃ parent, s.parent = some parent ∧ parent.index < id.index ∧
          p.nearestFlat parent = .ok flat)) := by
  rw [nearestFlat] at nearest
  split at nearest
  · cases nearest
  · rename_i s found
    refine ⟨s, scope_eq_ok_iff.1 found, ?_⟩
    split at nearest
    · rename_i closed
      split at nearest
      · cases nearest
      · rename_i parent older lies
        exact .inr ⟨closed, parent, Scope.enclosing_eq_ok_iff.1 lies, older, nearest⟩
    · rename_i outer
      cases nearest
      exact .inl ⟨by simpa using outer, rfl⟩

theorem inside_of_nearestFlat (nearest : p.nearestFlat id = .ok flat) :
    id.index < p.scopes.size := by
  obtain ⟨s, found, -⟩ := nearestFlat_cases nearest
  exact lt_size_of_scope? found

theorem flat_of_nearestFlat (nearest : p.nearestFlat id = .ok flat) :
    ∃ s, p.scope? flat = some s ∧ s.isClosure = false := by
  induction h : id.index using Nat.strongRecOn generalizing id with
  | ind n ih =>
    obtain ⟨s, found, ⟨outer, rfl⟩ | ⟨-, parent, -, older, rest⟩⟩ := nearestFlat_cases nearest
    · exact ⟨s, found, outer⟩
    · exact ih parent.index (h ▸ older) rest rfl

/-- Every scope of `p` is in `q`, with its kind and its parent. -/
def Outlines (p q : Program) : Prop :=
  ∀ id s, p.scope? id = some s → ∃ t, q.scope? id = some t ∧ t.kind = s.kind ∧ t.parent = s.parent

theorem Outlines.trans {t : Program} (first : p.Outlines q) (second : q.Outlines t) :
    p.Outlines t := by
  intro id s found
  obtain ⟨s', there, kind, parent⟩ := first id s found
  obtain ⟨s'', here, kind', parent'⟩ := second id s' there
  exact ⟨s'', here, kind'.trans kind, parent'.trans parent⟩

theorem outlines_push (p : Program) (s : Scope) : p.Outlines (p.push s) := by
  intro id t found
  have other : id ≠ p.nextId := by
    rintro rfl
    exact Nat.lt_irrefl _ (lt_size_of_scope? found)
  exact ⟨t, (scope?_push_of_ne p s other).trans found, rfl, rfl⟩

theorem outlines_replace {c : Scope} (found : p.scope? id = some s) (kind : c.kind = s.kind)
    (parent : c.parent = s.parent) : p.Outlines (p.replace id c) := by
  intro other t there
  rw [scope?_replace]
  split
  · rename_i here
    cases found.symm.trans (here ▸ there)
    exact ⟨c, by simp [found], kind, parent⟩
  · exact ⟨t, there, rfl, rfl⟩

/-- The walk depends on kinds and parents alone. -/
theorem Outlines.nearestFlat (outlines : p.Outlines q) (nearest : p.nearestFlat id = .ok flat) :
    q.nearestFlat id = .ok flat := by
  induction h : id.index using Nat.strongRecOn generalizing id with
  | ind n ih =>
    obtain ⟨s, found, walk⟩ := nearestFlat_cases nearest
    obtain ⟨t, there, kind, parent⟩ := outlines id s found
    have same : t.isClosure = s.isClosure := by rw [Scope.isClosure, kind, Scope.isClosure]
    obtain ⟨outer, rfl⟩ | ⟨closed, above, lies, older, rest⟩ := walk
    · exact nearestFlat_of_flat there (same.trans outer)
    · rw [nearestFlat_of_closure there (same.trans closed) (parent.trans lies) older]
      exact ih above.index (h ▸ older) rest rfl

/-! ## Well-formedness -/

def WellFormed (p : Program) : Prop := ∀ id s, p.scope? id = some s → s.Valid id

namespace WellFormed

theorem empty (options : Options) : WellFormed { options } := by
  intro id s found
  simp [scope?] at found

theorem push (formed : p.WellFormed) (valid : s.Valid p.nextId) : (p.push s).WellFormed := by
  intro id t found
  obtain ⟨rfl, rfl⟩ | old := scope?_push_cases found
  · exact valid
  · exact formed id t old

theorem replace (formed : p.WellFormed) (valid : s.Valid id) : (p.replace id s).WellFormed := by
  intro other t found
  obtain ⟨rfl, rfl⟩ | old := scope?_replace_cases found
  · exact valid
  · exact formed other t old

theorem change {may : ScopeId → Deed → Prop} (formed : p.WellFormed) (change : p.Change may q) :
    q.WellFormed := by
  cases change with
  | edit found edited => exact formed.replace ((formed _ _ found).edit edited)
  | script fileName => exact formed.push (Scope.valid_ofScript fileName _)
  | method found name line static =>
    exact formed.push (Scope.valid_ofMethod (lt_size_of_scope? found) _ _ _ _)
  | block found nearest host minted deep forLoop line static signature =>
    have numbered := formed.replace ((formed _ _ host).edit (.number minted))
    apply numbered.push
    rw [nextId_replace]
    exact Scope.valid_ofBlock (lt_size_of_scope? found) _ _ _ _ _ _ _ _
  | evalUnit nearest host minted deep fileName line static stem =>
    have numbered := formed.replace ((formed _ _ host).edit (.number minted))
    apply numbered.push
    rw [nextId_replace]
    exact Scope.valid_ofEvalUnit (inside_of_nearestFlat nearest) _ _ _ _ _ _

theorem changes {may : ScopeId → Deed → Prop} (formed : p.WellFormed) (changes : p.Changes may q) :
    q.WellFormed := by
  induction changes with
  | refl => exact formed
  | tail _ last ih => exact ih.change last

/-- In a well-formed arena the walk from every scope ends. -/
theorem exists_nearestFlat (formed : p.WellFormed) (inside : id.index < p.scopes.size) :
    ∃ flat, p.nearestFlat id = .ok flat := by
  induction h : id.index using Nat.strongRecOn generalizing id with
  | ind n ih =>
    obtain ⟨s, found⟩ := exists_scope? inside
    cases closed : s.isClosure with
    | false => exact ⟨id, nearestFlat_of_flat found closed⟩
    | true =>
      obtain ⟨parent, lies, older⟩ := (formed id s found).exists_parent closed
      rw [nearestFlat_of_closure found closed lies older]
      exact ih parent.index (h ▸ older) (Nat.lt_trans older inside) rfl

end WellFormed

/-- A walk that does not end has begun outside the arena. -/
theorem nearestFlat_of_missing (missing : p.scope? id = none) :
    p.nearestFlat id = .error (.noSuchScope p.scopes.size id.index) := by
  rw [nearestFlat, scope_eq_error_iff.2 ⟨missing, rfl⟩]

end Program

end ClosureIR
