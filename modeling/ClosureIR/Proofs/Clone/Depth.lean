import ClosureIR.Proofs.Clone.Result
import Mathlib.Data.Fintype.Card
import Mathlib.Data.Set.Finite.Basic

/-!
# How deep closures are nested

Where closures do not contain themselves they are nested no deeper than there
are scopes, and cloning keeps it so: a clone is exactly as deep as its source.
-/

namespace ClosureIR

open Relation

namespace Program

variable {p q : Program} {flat id source clone parent : ScopeId} {owner : ScopeId → ScopeId}

def Descends (q : Program) : Nat → ScopeId → Prop
  | 0, _ => True
  | n + 1, id => ∃ x, q.Holds id x ∧ Descends q n x

theorem Descends.of_succ {n : Nat} (descends : q.Descends (n + 1) id) : q.Descends n id := by
  induction n generalizing id with
  | zero => trivial
  | succ n ih =>
    obtain ⟨x, holds, rest⟩ := descends
    exact ⟨x, holds, ih rest⟩

theorem Descends.of_le {n k : Nat} (descends : q.Descends n id) (less : k ≤ n) :
    q.Descends k id := by
  induction less with
  | refl => exact descends
  | step _ ih => exact ih descends.of_succ

/-- Closure operands can be followed so many times from a scope, and no more. -/
def HasHeight (q : Program) (n : Nat) (id : ScopeId) : Prop :=
  q.Descends n id ∧ ¬ q.Descends (n + 1) id

namespace HasHeight

theorem unique {n k : Nat} (first : q.HasHeight n id) (second : q.HasHeight k id) : n = k := by
  rcases Nat.lt_trichotomy n k with less | same | more
  · exact absurd (second.1.of_le less) first.2
  · exact same
  · exact absurd (first.1.of_le more) second.2

/-- One of the closures in a scope is lower by just one. -/
theorem exists_holds {n : Nat} (height : q.HasHeight (n + 1) id) :
    ∃ x, q.Holds id x ∧ q.HasHeight n x := by
  obtain ⟨⟨x, holds, rest⟩, top⟩ := height
  exact ⟨x, holds, rest, fun more => top ⟨x, holds, more⟩⟩

/-- Below a scope there are scopes of every lesser height. -/
theorem exists_of_le {n k : Nat} (height : q.HasHeight n id) (less : k ≤ n) :
    ∃ x, q.HasHeight k x := by
  induction n generalizing id with
  | zero =>
    obtain rfl := Nat.le_zero.1 less
    exact ⟨id, height⟩
  | succ n ih =>
    rcases Nat.le_succ_iff.1 less with below | rfl
    · obtain ⟨x, -, lower⟩ := height.exists_holds
      exact ih lower below
    · exact ⟨id, height⟩

end HasHeight

/-- Finitely many scopes that each have a bound have one together. -/
theorem exists_common_bound (xs : List ScopeId) (each : ∀ x ∈ xs, ∃ n, ¬ q.Descends n x) :
    ∃ n, ∀ x ∈ xs, ¬ q.Descends n x := by
  induction xs with
  | nil => exact ⟨0, by simp⟩
  | cons x xs ih =>
    obtain ⟨here, others⟩ := List.forall_mem_cons.1 each
    obtain ⟨n, first⟩ := here
    obtain ⟨k, rest⟩ := ih others
    refine ⟨max n k, List.forall_mem_cons.2 ⟨fun deep => ?_, fun y member deep => ?_⟩⟩
    · exact first (deep.of_le (Nat.le_max_left n k))
    · exact rest y member (deep.of_le (Nat.le_max_right n k))

theorem exists_not_descends (ends : Acc (fun x id => q.Holds id x) id) : ∃ n, ¬ q.Descends n id := by
  induction ends with
  | intro id _ ih =>
    by_cases drawn : ∃ s g, q.scope? id = some s ∧ s.graph = some g
    · obtain ⟨s, g, found, graph⟩ := drawn
      obtain ⟨n, low⟩ := exists_common_bound g.closures fun x member =>
        ih x ⟨s, g, found, graph, member⟩
      refine ⟨n + 1, ?_⟩
      rintro ⟨x, ⟨s', g', found', graph', member⟩, deep⟩
      cases found.symm.trans found'
      cases graph.symm.trans graph'
      exact low x member deep
    · refine ⟨1, ?_⟩
      rintro ⟨x, ⟨s, g, found, graph, -⟩, -⟩
      exact drawn ⟨s, g, found, graph⟩

/-- A scope under which closures are not nested for ever has a height. -/
theorem exists_hasHeight (ends : Acc (fun x id => q.Holds id x) id) : ∃ n, q.HasHeight n id := by
  have bounded := exists_not_descends ends
  classical
  have least := Nat.find_spec bounded
  cases first : Nat.find bounded with
  | zero =>
    rw [first] at least
    exact absurd trivial least
  | succ n =>
    rw [first] at least
    refine ⟨n, ?_, least⟩
    have before := Nat.find_min bounded (m := n) (by omega)
    exact not_not.1 before

/-- A scope in a cycle can be descended from for ever. -/
theorem descends_of_cycle (n : Nat) (cycle : TransGen q.Holds id id) : q.Descends n id := by
  induction n generalizing id with
  | zero => trivial
  | succ n ih =>
    obtain ⟨x, holds, back⟩ := TransGen.head'_iff.1 cycle
    exact ⟨x, holds, ih (TransGen.tail' back holds)⟩

theorem descends_of_reaches {n : Nat} {x : ScopeId} (reaches : q.Reaches id x)
    (descends : q.Descends n x) : q.Descends n id := by
  induction reaches using ReflTransGen.head_induction_on with
  | refl => exact descends
  | head holds _ ih => exact Descends.of_succ ⟨_, holds, ih⟩

theorem neverCycles_of_not_descends {n : Nat} (low : ¬ q.Descends n id) : q.NeverCycles id :=
  fun _ reaches cycle => low (descends_of_reaches reaches (descends_of_cycle n cycle))

instance decidableDescends (q : Program) : (n : Nat) → (id : ScopeId) → Decidable (q.Descends n id)
  | 0, _ => isTrue trivial
  | n + 1, id =>
    have := decidableDescends q n
    decidable_of_iff (∃ x ∈ q.held id, q.Descends n x) <| by simp [Descends, mem_held_iff]

/-! ## Clones are as deep as their sources -/

theorem IsClone.descends_iff (cloned : q.IsClone parent owner source clone) (n : Nat) :
    q.Descends n clone ↔ q.Descends n source := by
  induction n generalizing parent owner source clone with
  | zero => exact Iff.rfl
  | succ n ih =>
    constructor
    · rintro ⟨d, holds, rest⟩
      obtain ⟨owner', x, held, nested⟩ := cloned.of_holds_clone holds
      exact ⟨x, held, (ih nested).1 rest⟩
    · rintro ⟨x, holds, rest⟩
      obtain ⟨owner', d, held, nested⟩ := cloned.of_holds_source holds
      exact ⟨d, held, (ih nested).2 rest⟩

theorem IsClone.hasHeight_iff (cloned : q.IsClone parent owner source clone) (n : Nat) :
    q.HasHeight n clone ↔ q.HasHeight n source := by
  rw [HasHeight, HasHeight, cloned.descends_iff, cloned.descends_iff]

/-- In a tree of clones nesting comes to an end. -/
theorem IsClone.acc (cloned : q.IsClone parent owner source clone) :
    Acc (fun x id => q.Holds id x) clone := by
  induction cloned with
  | intro found made newer copyable owners cloned nested ih =>
    refine ⟨_, fun d holds => ?_⟩
    obtain ⟨g, g', -, -, body, -⟩ := cloned.body
    obtain ⟨c, h, there, graph, member⟩ := holds
    cases made.symm.trans there
    cases body.graph.symm.trans graph
    obtain ⟨x, -, related⟩ := exists_left_of_forall₂ body.copied.closures member
    exact ih x d related

/-! ## The program around the clones -/

/-- Scopes that were there before hold what they held. -/
theorem Grown.holds_iff (grown : p.Grown flat q) (inside : id.index < p.scopes.size) (x : ScopeId) :
    q.Holds id x ↔ p.Holds id x := by
  obtain ⟨s, found⟩ := exists_scope? inside
  have kept := grown.old id s found
  constructor
  · rintro ⟨t, g, there, graph, member⟩
    cases kept.symm.trans there
    refine ⟨s, g, found, ?_, member⟩
    split at graph <;> exact graph
  · rintro ⟨t, g, there, graph, member⟩
    cases found.symm.trans there
    refine ⟨_, g, kept, ?_, member⟩
    split <;> exact graph

theorem Grown.reaches (grown : p.Grown flat q) {x : ScopeId} (reaches : p.Reaches id x) :
    q.Reaches id x := by
  refine ReflTransGen.mono (fun a b holds => ?_) _ _ reaches
  have ⟨s, g, found, _⟩ := holds
  exact (grown.holds_iff (lt_size_of_scope? found) b).2 holds

variable (grown : p.Grown flat q) (traced : p.Traced q)

include traced in
/-- Nesting comes to an end below what was added. -/
theorem acc_of_new (beyond : p.scopes.size ≤ id.index) : Acc (fun x id => q.Holds id x) id := by
  by_cases drawn : ∃ s, q.scope? id = some s ∧ s.graph ≠ none
  · obtain ⟨s, found, graph⟩ := drawn
    obtain ⟨parent, owner, source, cloned⟩ := traced id s beyond found graph
    exact cloned.acc
  · refine ⟨_, fun x holds => ?_⟩
    obtain ⟨s, g, found, graph, -⟩ := holds
    exact absurd ⟨s, found, by simp [graph]⟩ drawn

include grown traced in
/-- Below a source that never reaches itself nesting comes to an end too, clones included. -/
theorem acc_of_neverCycles (acyclic : p.NeverCycles source) :
    Acc (fun x id => q.Holds id x) source := by
  -- The scopes that were there and are reached from the source are well-founded, being finitely many.
  let Old := { i : Fin p.scopes.size // p.Reaches source ⟨i⟩ }
  let Below : Old → Old → Prop := fun x y => TransGen p.Holds ⟨y.1⟩ ⟨x.1⟩
  have : IsTrans Old Below := ⟨fun x y z first second => TransGen.trans second first⟩
  have : Std.Irrefl Below := ⟨fun x cycle => acyclic ⟨x.1⟩ x.2 cycle⟩
  have wellFounded : WellFounded Below := Finite.wellFounded_of_trans_of_irrefl Below
  have old (x : Old) : Acc (fun x id => q.Holds id x) ⟨x.1⟩ := by
    induction x using wellFounded.induction with
    | _ x ih =>
      refine ⟨_, fun y holds => ?_⟩
      have held := (grown.holds_iff x.1.isLt y).1 holds
      rcases Nat.lt_or_ge y.index p.scopes.size with inside | outside
      · exact ih ⟨⟨y.index, inside⟩, x.2.tail held⟩ (.single held)
      · exact acc_of_new traced outside
  rcases Nat.lt_or_ge source.index p.scopes.size with inside | outside
  · exact old ⟨⟨source.index, inside⟩, .refl⟩
  · exact acc_of_new traced outside

include traced in
/-- What holds closures is as high as some scope that was there before. -/
theorem exists_original {n : Nat} (height : q.HasHeight (n + 1) id) :
    ∃ o : ScopeId, o.index < p.scopes.size ∧ q.HasHeight (n + 1) o := by
  induction h : id.index using Nat.strongRecOn generalizing id with
  | ind i ih =>
    rcases Nat.lt_or_ge id.index p.scopes.size with inside | outside
    · exact ⟨id, inside, height⟩
    · obtain ⟨x, ⟨s, g, found, graph, -⟩, -⟩ := height.1
      obtain ⟨parent, owner, source, cloned⟩ := traced id s outside found (by simp [graph])
      exact ih source.index (h ▸ cloned.source_lt) ((cloned.hasHeight_iff _).1 height) rfl

include traced in
/-- The heights up to that of a scope belong to different scopes that were there before. -/
theorem HasHeight.le_size {n : Nat} (height : q.HasHeight n id) : n ≤ p.scopes.size := by
  have original (k : Fin n) : ∃ o : ScopeId, o.index < p.scopes.size ∧ q.HasHeight (k + 1) o := by
    obtain ⟨x, here⟩ := height.exists_of_le (Nat.succ_le_of_lt k.isLt)
    exact exists_original traced here
  choose o inside high using original
  have apart : Function.Injective fun k : Fin n => (⟨(o k).index, inside k⟩ : Fin p.scopes.size) := by
    intro j k same
    have equal : o j = o k := congrArg ScopeId.mk (Fin.mk.inj same)
    have heights := (high j).unique (equal ▸ high k)
    exact Fin.ext (Nat.succ.inj heights)
  simpa using Fintype.card_le_of_injective _ apart

include grown traced in
/-- So closures cannot be followed further than there were scopes. -/
theorem not_descends_of_neverCycles (acyclic : p.NeverCycles source) {n : Nat}
    (more : p.scopes.size < n) : ¬ q.Descends n source := by
  obtain ⟨k, height⟩ := exists_hasHeight (acc_of_neverCycles grown traced acyclic)
  have small := height.le_size traced
  exact fun deep => height.2 (deep.of_le (by omega))

/-- A clone runs out of fuel only where closures can be followed as far as that. -/
theorem Stuck.descends {fuel : Nat} {x : ScopeId}
    (stuck : q.Stuck fuel id (.misused (.selfNested x))) : q.Descends fuel id := by
  generalize same : Fault.misused (.selfNested x) = fault at stuck
  induction stuck with
  | exhausted id => trivial
  | overflow fuel id => cases same
  | blocked blocks => cases blocks <;> cases same
  | nested holds stuck ih => exact ⟨_, holds, ih same⟩

end Program

end ClosureIR
