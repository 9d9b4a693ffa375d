import ClosureIR.Data.Dict
import ClosureIR.Operand.Basic

/-!
# Substitution in operands

A value map says which operands may stand for others.  Only variables give
way, and only to operands that may be propagated, unless the substitution is
forced.  One pass replaces each variable once.
-/

namespace ClosureIR

abbrev ValueMap := Dict Operand Operand

namespace ValueMap

/-- The operand that takes the place of the variable `v`, if one may. -/
def replacement? (map : ValueMap) (force : Bool) (v : Variable) : Option Operand :=
  match map.get? (.var v) with
  | some o => if force || o.propagates then some o else none
  | none => none

end ValueMap

namespace Operand

mutual

def simplified (map : ValueMap) (force : Bool) : Operand → Operand
  | .var v => (map.replacement? force v).getD (.var v)
  | .splat inner => .splat (simplified map force inner)
  | .array elements => .array (simplifiedAll map force elements)
  | o => o

def simplifiedAll (map : ValueMap) (force : Bool) : List Operand → List Operand
  | [] => []
  | o :: rest => simplified map force o :: simplifiedAll map force rest

end

theorem simplifiedAll_eq_map (map : ValueMap) (force : Bool) (os : List Operand) :
    simplifiedAll map force os = os.map (simplified map force) := by
  induction os with
  | nil => simp [simplifiedAll]
  | cons o rest ih => simp [simplifiedAll, ih]

@[simp] theorem simplified_var (map : ValueMap) (force : Bool) (v : Variable) :
    simplified map force (.var v) = (map.replacement? force v).getD (.var v) := by
  simp [simplified]

@[simp] theorem simplified_splat (map : ValueMap) (force : Bool) (inner : Operand) :
    simplified map force (.splat inner) = .splat (simplified map force inner) := by
  simp [simplified]

@[simp] theorem simplified_array (map : ValueMap) (force : Bool) (os : List Operand) :
    simplified map force (.array os) = .array (os.map (simplified map force)) := by
  simp [simplified, simplifiedAll_eq_map]

end Operand

end ClosureIR
