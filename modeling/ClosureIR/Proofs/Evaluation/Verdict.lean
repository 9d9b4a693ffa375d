import ClosureIR.Frame

/-!
# What operands and guards read

An operand without a value in a frame is a variable that has no cell there, or
one of those operands that have a value nowhere.  A guard reads what it checks,
judges the value by the generation of its class, and looks at nothing else.
-/

namespace ClosureIR

namespace Operand

variable {f : Frame} {v : Variable} {value : Value}

theorem retrieve_self (f : Frame) : self.retrieve f = .ok f.self := rfl

theorem retrieve_var (f : Frame) (v : Variable) : (var v).retrieve f =
    match f.lookup v with
    | some value => .ok value
    | none => .error (.unbound v) := rfl

theorem retrieve_var_of_lookup (bound : f.lookup v = some value) :
    (var v).retrieve f = .ok value := by
  rw [retrieve_var, bound]

theorem retrieve_var_of_unbound (unbound : f.lookup v = none) :
    (var v).retrieve f = .error (.unbound v) := by
  rw [retrieve_var, unbound]

theorem lookup_of_retrieve_var (read : (var v).retrieve f = .ok value) :
    f.lookup v = some value := by
  cases bound : f.lookup v with
  | none => cases (retrieve_var_of_unbound bound).symm.trans read
  | some found =>
    cases (retrieve_var_of_lookup bound).symm.trans read
    rfl

end Operand

/-- Has the class of the value reached just this generation?  Values without a class have not. -/
def Heap.confirms (heap : Heap) (version : UInt64) (value : Value) : Bool :=
  match value.metaclass? with
  | some m => decide (heap.generation m = version)
  | none => false

@[simp] theorem Heap.confirms_object (heap : Heap) (version : UInt64) (o : ObjectRef) :
    heap.confirms version (.object o) = decide (heap.generation o.metaclass = version) := rfl

/-- Only objects have a class. -/
theorem Heap.confirms_of_immediate (heap : Heap) (version : UInt64) {value : Value}
    (immediate : ∀ o, value ≠ .object o) : heap.confirms version value = false := by
  cases value with
  | object o => exact absurd rfl (immediate o)
  | _ => rfl

namespace Guard

variable {g : Guard} {heap : Heap} {f : Frame}

/-- The answer of a guard is its judgement of the value that it reads. -/
theorem versionMatches_eq (g : Guard) (heap : Heap) (f : Frame) :
    g.versionMatches heap f = (g.candidate.retrieve f).map (heap.confirms g.version) := by
  rw [versionMatches]
  cases g.candidate.retrieve f with
  | error refusal => rfl
  | ok value => cases value <;> rfl

theorem versionMatches_of_retrieve {value : Value} (read : g.candidate.retrieve f = .ok value) :
    g.versionMatches heap f = .ok (heap.confirms g.version value) := by
  rw [versionMatches_eq, read, Except.map]

theorem versionMatches_eq_ok_iff {b : Bool} : g.versionMatches heap f = .ok b ↔
    ∃ value, g.candidate.retrieve f = .ok value ∧ heap.confirms g.version value = b := by
  rw [versionMatches_eq]
  cases g.candidate.retrieve f <;> simp [Except.map]

end Guard

end ClosureIR
