import ClosureIR.Proofs.Evaluation.Verdict
import Mathlib.Algebra.Group.Nat.Defs

/-!
# Guards and the generations of modules

A guard passes as long as the class of what it checks stands at the generation
that the guard expects.  A generation moves on by one for every change of its
module, until the word is used up and it begins again; no other change counts.
-/

namespace ClosureIR

namespace Heap

def bumpAll (heap : Heap) (ms : List ModuleRef) : Heap := ms.foldl bump heap

/-- How many of these changes are changes of the module `m`, which is known by its identity. -/
def hits (m : ModuleRef) (ms : List ModuleRef) : Nat := ms.countP (·.id = m.id)

theorem hits_cons (m first : ModuleRef) (rest : List ModuleRef) :
    hits m (first :: rest) = (if m.id = first.id then 1 else 0) + hits m rest := by
  simp [hits, List.countP_cons, eq_comm, Nat.add_comm]

theorem hits_replicate (m : ModuleRef) (n : Nat) : hits m (List.replicate n m) = n := by
  simp [hits, List.countP_replicate]

theorem generation_congr (heap : Heap) {m other : ModuleRef} (same : m.id = other.id) :
    heap.generation m = heap.generation other := by
  rw [generation, generation, same]

/-- A generation counts the changes of its module. -/
theorem generation_bumpAll (heap : Heap) (ms : List ModuleRef) (m : ModuleRef) :
    (heap.bumpAll ms).generation m = heap.generation m + UInt64.ofNat (hits m ms) := by
  -- The first change is made before the others are counted, so the count starts from any state.
  induction ms generalizing heap with
  | nil => exact (UInt64.add_zero _).symm
  | cons first rest ih =>
    have later : (heap.bumpAll (first :: rest)).generation m =
        (heap.bump first).generation m + UInt64.ofNat (hits m rest) := ih (heap.bump first)
    rw [later, generation_bump, hits_cons]
    by_cases hit : m.id = first.id
    · rw [if_pos hit, if_pos hit, generation_congr heap hit, UInt64.ofNat_add, ← UInt64.add_assoc]
      rfl
    · rw [if_neg hit, if_neg hit, Nat.zero_add]

/-- It is what it was after a full turn of the word, and only then. -/
theorem generation_bumpAll_eq_iff (heap : Heap) (ms : List ModuleRef) (m : ModuleRef) :
    (heap.bumpAll ms).generation m = heap.generation m ↔ 2 ^ 64 ∣ hits m ms := by
  rw [generation_bumpAll, UInt64.add_eq_left, UInt64.ofNat_eq_iff_mod_eq_toNat]
  exact Nat.dvd_iff_mod_eq_zero.symm

end Heap

namespace Guard

variable {g : Guard} {f : Frame}

/-- On an object a guard that is up to date passes again after full turns of the word, and only then. -/
theorem versionMatches_bumpAll {o : ObjectRef} {heap : Heap}
    (read : g.candidate.retrieve f = .ok (.object o))
    (current : g.version = heap.generation o.metaclass) (ms : List ModuleRef) :
    g.versionMatches (heap.bumpAll ms) f = .ok (decide (2 ^ 64 ∣ Heap.hits o.metaclass ms)) := by
  rw [versionMatches_of_retrieve read, Heap.confirms_object, current]
  exact congrArg Except.ok (decide_eq_decide.2 (Heap.generation_bumpAll_eq_iff heap ms o.metaclass))

/--
From the moment at which a guard on an object is up to date, its answer depends
on the number of changes of the class of the object alone: it passes if and
only if this is a multiple of `2 ^ 64`.  So it passes while other modules
change, and fails from the first change of the class until the word is used up.
On an immediate a guard always fails.
-/
theorem answers_after_bumps (g : Guard) (f : Frame) :
    (∀ (o : ObjectRef) (heap : Heap), g.candidate.retrieve f = .ok (.object o) →
      g.version = heap.generation o.metaclass → ∀ ms : List ModuleRef,
        g.versionMatches (heap.bumpAll ms) f = .ok (decide (2 ^ 64 ∣ Heap.hits o.metaclass ms)) ∧
        ((∀ m ∈ ms, m.id ≠ o.metaclass.id) → g.versionMatches (heap.bumpAll ms) f = .ok true) ∧
        (1 ≤ Heap.hits o.metaclass ms → Heap.hits o.metaclass ms ≤ 2 ^ 64 - 1 →
          g.versionMatches (heap.bumpAll ms) f = .ok false)) ∧
    ∀ value, g.candidate.retrieve f = .ok value → (∀ o, value ≠ .object o) →
      ∀ heap : Heap, g.versionMatches heap f = .ok false := by
  constructor
  · intro o heap read current ms
    have answer := versionMatches_bumpAll read current ms
    refine ⟨answer, fun others => ?_, fun some few => ?_⟩
    · have none : Heap.hits o.metaclass ms = 0 := by
        rw [Heap.hits, List.countP_eq_zero]
        exact fun m member => by simpa using others m member
      rw [answer, none]
      rfl
    · have between : ¬ 2 ^ 64 ∣ Heap.hits o.metaclass ms := by
        intro turn
        have far := Nat.le_of_dvd some turn
        omega
      rw [answer, decide_eq_false between]
  · intro value read immediate heap
    rw [versionMatches_of_retrieve read, heap.confirms_of_immediate g.version immediate]

/--
Two modules of one name, of which the first is the class of the receiver: the
guard does not see changes of the second, fails after one change of the first,
and passes again after a full turn of the word.
-/
theorem answers_of_namesakes :
    let point : ModuleRef := ⟨0, "Point"⟩
    let other : ModuleRef := ⟨1, "Point"⟩
    let f : Frame := ⟨.object ⟨0, point⟩, ∅⟩
    let g : Guard := ⟨other, 2, .self, ⟨"SLOW"⟩⟩
    let heap := Heap.bumpAll {} [point, other, point]
    g.versionMatches (heap.bumpAll [other, other]) f = .ok true ∧
      g.versionMatches (heap.bumpAll [other, point, other]) f = .ok false ∧
      g.versionMatches (heap.bumpAll (List.replicate (2 ^ 64) point)) f = .ok true ∧
      g.versionMatches heap { f with self := .fixnum 2 } = .ok false := by
  intro point other f g heap
  have turning := (answers_after_bumps g f).1 ⟨0, point⟩ heap rfl (by decide)
  refine ⟨?_, ?_, ?_, ?_⟩
  · exact (turning [other, other]).2.1 (by decide)
  · exact (turning [other, point, other]).2.2 (by decide) (by decide)
  · rw [(turning _).1, Heap.hits_replicate]
    exact congrArg Except.ok (decide_eq_true (Nat.dvd_refl _))
  · exact (answers_after_bumps g { f with self := .fixnum 2 }).2 (.fixnum 2) rfl (by simp) heap

end Guard

end ClosureIR
