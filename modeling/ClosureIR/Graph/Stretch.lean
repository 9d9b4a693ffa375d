import ClosureIR.Instr.Basic

/-!
# Straight-line stretches

A list of instructions falls into stretches: one begins at every label and
after every terminator.  Nothing is lost, no stretch is empty, a label stands
only at the head of a stretch and a terminator only at its end.
-/

namespace ClosureIR

/-- A stretch of instructions with the label that it begins with, if any. -/
structure Stretch where
  label : Option Label
  instrs : List Instr
  deriving DecidableEq, Repr

namespace Stretch

/-- Put an instruction in front: it joins a stretch without label, unless it ends a block itself. -/
def prepend (i : Instr) : List Stretch → List Stretch
  | ⟨none, body⟩ :: rest =>
    if i.isTerminator then ⟨i.placed?, [i]⟩ :: ⟨none, body⟩ :: rest
    else ⟨i.placed?, i :: body⟩ :: rest
  | others => ⟨i.placed?, [i]⟩ :: others

def split : List Instr → List Stretch
  | [] => []
  | i :: rest => prepend i (split rest)

/-- The number of stretches that begin without a label. -/
def anonymous (stretches : List Stretch) : Nat :=
  (stretches.filter (·.label.isNone)).length

theorem flatMap_prepend (i : Instr) (stretches : List Stretch) :
    (prepend i stretches).flatMap (·.instrs) = i :: stretches.flatMap (·.instrs) := by
  unfold prepend
  split
  · split <;> simp
  · simp

/-- Splitting keeps every instruction, in order. -/
theorem flatMap_split (is : List Instr) : (split is).flatMap (·.instrs) = is := by
  induction is with
  | nil => rfl
  | cons i rest ih => rw [split, flatMap_prepend, ih]

end Stretch

end ClosureIR
