import ClosureIR.Program.Creation
import ClosureIR.Renaming.Apply

/-!
# Outcomes of operations

What holds after an operation: of its result when it succeeds, of the fault
when it fails, and either way of the program that it leaves.
-/

namespace ClosureIR

theorem toOption_eq_some_iff {ε α : Type} {e : Except ε α} {a : α} :
    e.toOption = some a ↔ e = .ok a := by
  cases e <;> simp [Except.toOption]

namespace BuildM

variable {α β : Type} {op : BuildM α} {next : α → BuildM β} {p : Program}
variable {good good' : α → Program → Prop} {bad bad' : Fault → Program → Prop}

/-- The operation on `p` succeeds as `good` says, or fails as `bad` says. -/
def Yields (op : BuildM α) (p : Program) (good : α → Program → Prop)
    (bad : Fault → Program → Prop) : Prop :=
  match op.runOn p with
  | (.ok a, after) => good a after
  | (.error fault, after) => bad fault after

theorem Yields.of_ok (yields : op.Yields p good bad) {a : α} {after : Program}
    (run : op.runOn p = (.ok a, after)) : good a after := by
  simpa [Yields, run] using yields

theorem Yields.of_error (yields : op.Yields p good bad) {fault : Fault} {after : Program}
    (run : op.runOn p = (.error fault, after)) : bad fault after := by
  simpa [Yields, run] using yields

/-- An operation of which only one outcome is left. -/
theorem Yields.runOn_eq {a : α} {after : Program}
    (yields : op.Yields p (fun b q => b = a ∧ q = after) fun _ _ => False) :
    op.runOn p = (.ok a, after) := by
  unfold Yields at yields
  split at yields
  · rename_i run
    rw [run, yields.1, yields.2]
  · exact yields.elim

theorem Yields.mono (yields : op.Yields p good bad)
    (well : ∀ a after, good a after → good' a after)
    (badly : ∀ fault after, bad fault after → bad' fault after) : op.Yields p good' bad' := by
  unfold Yields at yields ⊢
  split at yields
  · exact well _ _ yields
  · exact badly _ _ yields

theorem Yields.and (first : op.Yields p good bad) (second : op.Yields p good' bad') :
    op.Yields p (fun a q => good a q ∧ good' a q) fun fault q => bad fault q ∧ bad' fault q := by
  unfold Yields at first second ⊢
  split at first <;> simp_all

/-- A property of the program that is left, whatever the outcome. -/
theorem Yields.after {left : Program → Prop}
    (yields : op.Yields p (fun _ q => left q) fun _ q => left q) : left (op.runOn p).2 := by
  unfold Yields at yields
  cases run : op.runOn p with
  | mk outcome after => cases outcome <;> simpa [run] using yields

@[simp] theorem yields_pure (a : α) : (pure a : BuildM α).Yields p good bad ↔ good a p := Iff.rfl

theorem yields_bind {good : β → Program → Prop} :
    (op >>= next).Yields p good bad ↔
      op.Yields p (fun a after => (next a).Yields after good bad) bad := by
  unfold Yields
  rw [runOn_bind]
  rcases op.runOn p with ⟨outcome, after⟩
  cases outcome <;> rfl

@[simp] theorem yields_misuse (m : Misuse) :
    (misuse m : BuildM α).Yields p good bad ↔ bad (.misused m) p := Iff.rfl

@[simp] theorem yields_refuse (r : Refusal) :
    (refuse r : BuildM α).Yields p good bad ↔ bad (.refused r) p := Iff.rfl

@[simp] theorem yields_get {good : Program → Program → Prop} :
    (get : BuildM Program).Yields p good bad ↔ good p p := Iff.rfl

@[simp] theorem yields_store {good : Unit → Program → Prop} (id : ScopeId) (s : Scope) :
    (store id s).Yields p good bad ↔ good () (p.replace id s) := Iff.rfl

@[simp] theorem yields_addScope {good : ScopeId → Program → Prop} (make : ScopeId → Scope) :
    (addScope make).Yields p good bad ↔ good p.nextId (p.push (make p.nextId)) := Iff.rfl

theorem yields_ofMisuse {e : Except Misuse α} :
    (ofMisuse e).Yields p good bad ↔
      (∀ a, e = .ok a → good a p) ∧ ∀ m, e = .error m → bad (.misused m) p := by
  cases e <;> simp [ofMisuse]

theorem yields_ofRefusal {e : Except Refusal α} :
    (ofRefusal e).Yields p good bad ↔
      (∀ a, e = .ok a → good a p) ∧ ∀ r, e = .error r → bad (.refused r) p := by
  cases e <;> simp [ofRefusal]

theorem yields_ask {f : Program → Except Misuse α} :
    (ask f).Yields p good bad ↔
      (∀ a, f p = .ok a → good a p) ∧ ∀ m, f p = .error m → bad (.misused m) p := by
  rw [ask, yields_bind, yields_get, yields_ofMisuse]

/-- A sequence that succeeds goes through a result of its first part. -/
theorem exists_of_runOn_bind {b : β} {q : Program} (run : (op >>= next).runOn p = (.ok b, q)) :
    ∃ a t, op.runOn p = (.ok a, t) ∧ (next a).runOn t = (.ok b, q) := by
  rw [runOn_bind] at run
  split at run
  · rename_i a t first
    exact ⟨a, t, first, run⟩
  · cases run

theorem runOn_ofMisuse_eq_ok_iff {e : Except Misuse α} {a : α} {q : Program} :
    (ofMisuse e).runOn p = (.ok a, q) ↔ e = .ok a ∧ q = p := by
  constructor
  · intro run
    cases e with
    | error m => cases run
    | ok found =>
      cases run
      exact ⟨rfl, rfl⟩
  · rintro ⟨rfl, rfl⟩
    rfl

/-- A question comes first: what follows its answer decides. -/
theorem yields_ask_bind {good : β → Program → Prop} {f : Program → Except Misuse α}
    {next : α → BuildM β} :
    (ask f >>= next).Yields p good bad ↔
      (∀ a, f p = .ok a → (next a).Yields p good bad) ∧ ∀ m, f p = .error m → bad (.misused m) p := by
  rw [yields_bind, yields_ask]

/-- A question whose answer is known. -/
theorem yields_ask_of_ok {good : β → Program → Prop} {f : Program → Except Misuse α} {a : α}
    {next : α → BuildM β} (answer : f p = .ok a) (rest : (next a).Yields p good bad) :
    (ask f >>= next).Yields p good bad := by
  refine yields_ask_bind.2 ⟨fun b same => ?_, fun m failed => ?_⟩
  · cases answer.symm.trans same
    exact rest
  · cases answer.symm.trans failed

end BuildM

namespace Program

variable {p : Program} {id : ScopeId}

theorem scope_eq_ok_iff {s : Scope} : p.scope id = .ok s ↔ p.scope? id = some s := by
  unfold scope
  split <;> simp_all

theorem scope_eq_error_iff {m : Misuse} :
    p.scope id = .error m ↔ p.scope? id = none ∧ m = .noSuchScope p.scopes.size id.index := by
  unfold scope
  split
  · simp_all
  · simp_all [eq_comm]

theorem liveScope_of_scope? {s : Scope} (found : p.scope? id = some s) :
    p.liveScope id = if s.isInlined then .error (.inlined s.name) else .ok s := by
  rw [liveScope, scope_eq_ok_iff.2 found]

theorem liveScope_of_missing (missing : p.scope? id = none) :
    p.liveScope id = .error (.noSuchScope p.scopes.size id.index) := by
  rw [liveScope, scope_eq_error_iff.2 ⟨missing, rfl⟩]

theorem liveScope_eq_ok_iff {s : Scope} :
    p.liveScope id = .ok s ↔ p.scope? id = some s ∧ s.isInlined = false := by
  cases found : p.scope? id with
  | none => simp [liveScope_of_missing found]
  | some other =>
    rw [liveScope_of_scope? found]
    cases inlined : other.isInlined
    · simp only [Bool.false_eq_true, if_false, Except.ok.injEq, Option.some.injEq]
      exact ⟨fun same => ⟨same, same ▸ inlined⟩, fun both => both.1⟩
    · simp only [if_true, reduceCtorEq, Option.some.injEq, false_iff, not_and]
      rintro rfl
      simp [inlined]

theorem liveScope_eq_error_iff {m : Misuse} :
    p.liveScope id = .error m ↔
      (p.scope? id = none ∧ m = .noSuchScope p.scopes.size id.index) ∨
        ∃ s, p.scope? id = some s ∧ s.isInlined = true ∧ m = .inlined s.name := by
  cases found : p.scope? id with
  | none =>
    simp only [liveScope_of_missing found, Except.error.injEq, true_and, reduceCtorEq, false_and,
      exists_false, or_false]
    exact eq_comm
  | some s =>
    rw [liveScope_of_scope? found]
    cases inlined : s.isInlined
    · simp [inlined]
    · simp only [if_true, Except.error.injEq, reduceCtorEq, false_and, Option.some.injEq,
        exists_eq_left', inlined, true_and, false_or]
      exact eq_comm

theorem lt_size_of_scope? {s : Scope} (found : p.scope? id = some s) :
    id.index < p.scopes.size := by
  unfold scope? at found
  exact (Array.getElem?_eq_some_iff.1 found).1

theorem exists_scope? (inside : id.index < p.scopes.size) : ∃ s, p.scope? id = some s :=
  ⟨p.scopes[id.index], by simp [scope?, inside]⟩

theorem size_le_of_missing (absent : p.scope? id = none) : p.scopes.size ≤ id.index := by
  refine Nat.not_lt.1 fun inside => ?_
  obtain ⟨s, there⟩ := exists_scope? inside
  cases absent.symm.trans there

@[simp] theorem size_push (s : Scope) : (p.push s).scopes.size = p.scopes.size + 1 := by
  simp [push]

@[simp] theorem size_replace (s : Scope) : (p.replace id s).scopes.size = p.scopes.size := by
  simp [replace]

@[simp] theorem nextId_replace (s : Scope) : (p.replace id s).nextId = p.nextId := by
  simp [nextId]

@[simp] theorem nextId_index : p.nextId.index = p.scopes.size := rfl

theorem scope?_push_cases {s t : Scope} (found : (p.push s).scope? id = some t) :
    (id = p.nextId ∧ t = s) ∨ p.scope? id = some t := by
  by_cases new : id = p.nextId
  · subst new
    rw [scope?_push_nextId] at found
    exact .inl ⟨rfl, (Option.some.inj found).symm⟩
  · rw [scope?_push_of_ne p s new] at found
    exact .inr found

theorem scope?_replace_cases {other : ScopeId} {s t : Scope}
    (found : (p.replace id s).scope? other = some t) :
    (other = id ∧ t = s) ∨ p.scope? other = some t := by
  rw [scope?_replace] at found
  split at found
  · rename_i same
    obtain ⟨-, -, rfl⟩ := Option.map_eq_some_iff.1 found
    exact .inl ⟨same, rfl⟩
  · exact .inr found

/-- Only the scope that is added is new. -/
theorem eq_of_scope?_push {s t : Scope} (absent : p.scope? id = none)
    (found : (p.push s).scope? id = some t) : id = p.nextId ∧ t = s := by
  obtain here | old := scope?_push_cases found
  · exact here
  · cases absent.symm.trans old

theorem scope?_replace_of_missing {other : ScopeId} (absent : p.scope? other = none) (id : ScopeId)
    (s : Scope) : (p.replace id s).scope? other = none := by
  rw [scope?_replace]
  split
  · rename_i here
    rw [← here, absent, Option.map_none]
  · exact absent

theorem yields_requireClosure {s : Scope} (found : p.scope? id = some s) :
    (requireClosure id).Yields p (fun data q => q = p ∧ s.closure = some data)
      fun fault q => q = p ∧ s.closure = none ∧ fault = .refused (.notClosure s.name) := by
  refine BuildM.yields_ask_bind.2 ⟨fun t there => ?_, fun m missing => ?_⟩
  · cases found.symm.trans (scope_eq_ok_iff.1 there)
    cases closed : s.closure with
    | none => exact ⟨rfl, rfl, rfl⟩
    | some data => exact ⟨rfl, rfl⟩
  · cases found.symm.trans (scope_eq_error_iff.1 missing).1

theorem yields_requireGraph {s : Scope} (found : p.scope? id = some s) :
    (requireGraph id).Yields p (fun g q => q = p ∧ s.graph = some g)
      fun fault q => q = p ∧ s.graph = none ∧ fault = .refused (.graphMissing s.name) := by
  refine BuildM.yields_ask_bind.2 ⟨fun t there => ?_, fun m missing => ?_⟩
  · cases found.symm.trans (scope_eq_ok_iff.1 there)
    cases drawn : s.graph with
    | none => exact ⟨rfl, rfl, rfl⟩
    | some g => exact ⟨rfl, rfl⟩
  · cases found.symm.trans (scope_eq_error_iff.1 missing).1

end Program

end ClosureIR
