import ClosureIR.Instr.Basic
import ClosureIR.Operand.Substitution

/-!
# Substitution in instructions

Substitution reaches the operands that an instruction reads.  The variable it
writes, its labels and the assumption of a guard are not operands.
-/

namespace ClosureIR

namespace Guard

def simplified (map : ValueMap) (force : Bool) (g : Guard) : Guard :=
  { g with candidate := g.candidate.simplified map force }

end Guard

namespace Instr

def simplified (map : ValueMap) (force : Bool) : Instr → Instr
  | .copy result source => .copy result (source.simplified map force)
  | .receiveOpt result index default => .receiveOpt result index (default.simplified map force)
  | .branchFalse condition target => .branchFalse (condition.simplified map force) target
  | .call result receiver method args closure =>
    .call result (receiver.simplified map force) method
      (args.map (·.simplified map force)) (closure.map (·.simplified map force))
  | .ret value => .ret (value.simplified map force)
  | .guard g => .guard (g.simplified map force)
  | i => i

end Instr

end ClosureIR
