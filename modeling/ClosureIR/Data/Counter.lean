/-!
# Counters

Every number that a scope hands out comes from a counter of 32 bits.  A counter
at its last value cannot move on.
-/

namespace ClosureIR.Counter

def bound : Nat := 4294967296

/-- The value after `n`, as long as 32 bits hold it. -/
def next? (n : Nat) : Option Nat := if n + 1 < bound then some (n + 1) else none

theorem next?_eq_some_iff {n m : Nat} : next? n = some m ↔ m = n + 1 ∧ n + 1 < bound := by
  unfold next?
  split
  · rename_i small
    simp [small, eq_comm]
  · rename_i large
    simp [large]

theorem next?_eq_none_iff {n : Nat} : next? n = none ↔ bound ≤ n + 1 := by
  unfold next?
  split <;> simp <;> omega

end ClosureIR.Counter
