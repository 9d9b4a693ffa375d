import ClosureIR.Object.Value
import ClosureIR.Operand.Basic

/-!
# Instructions

The closed set of instructions, with what each of them names: the variable it
writes, the operands it reads, the labels it places or jumps to.
-/

namespace ClosureIR

inductive Opcode where
  | copy
  | receive
  | receiveOpt
  | receiveRest
  | label
  | jump
  | branchFalse
  | call
  | ret
  | guard
  deriving DecidableEq, Repr, Inhabited

namespace Opcode

def all : List Opcode :=
  [.copy, .receive, .receiveOpt, .receiveRest, .label, .jump, .branchFalse, .call, .ret, .guard]

def text : Opcode → String
  | .copy => "copy"
  | .receive => "recv_arg"
  | .receiveOpt => "recv_opt_arg"
  | .receiveRest => "recv_rest_arg"
  | .label => "label"
  | .jump => "jump"
  | .branchFalse => "b_false"
  | .call => "call"
  | .ret => "return"
  | .guard => "module_guard"

end Opcode

/--
A check that the class of a value still has the generation `version`, which
the code after it relies on.  When it has not, control goes to `failure`.
-/
structure Guard where
  /-- The module whose structure was assumed. -/
  assumed : ModuleRef
  version : UInt64
  candidate : Operand
  failure : Label
  deriving DecidableEq, Repr, Inhabited

inductive Instr where
  | copy (result : Variable) (source : Operand)
  /-- Bind the required argument number `index`. -/
  | receive (result : Variable) (index : Nat)
  /-- Bind an optional argument, or `default` where none was passed. -/
  | receiveOpt (result : Variable) (index : Nat) (default : Operand)
  /-- Bind all arguments from `index` on. -/
  | receiveRest (result : Variable) (index : Nat)
  | label (l : Label)
  | jump (target : Label)
  | branchFalse (condition : Operand) (target : Label)
  | call (result : Option Variable) (receiver : Operand) (method : String)
      (args : List Operand) (closure : Option Operand)
  | ret (value : Operand)
  | guard (g : Guard)
  deriving DecidableEq, Repr, Inhabited

namespace Instr

def opcode : Instr → Opcode
  | .copy .. => .copy
  | .receive .. => .receive
  | .receiveOpt .. => .receiveOpt
  | .receiveRest .. => .receiveRest
  | .label _ => .label
  | .jump _ => .jump
  | .branchFalse .. => .branchFalse
  | .call .. => .call
  | .ret _ => .ret
  | .guard _ => .guard

def result? : Instr → Option Variable
  | .copy result _ | .receive result _ | .receiveOpt result _ _ | .receiveRest result _ =>
    some result
  | .call result .. => result
  | _ => none

/-- What the instruction reads, in the order of evaluation. -/
def operands : Instr → List Operand
  | .copy _ source => [source]
  | .receiveOpt _ _ default => [default]
  | .branchFalse condition _ => [condition]
  | .call _ receiver _ args closure => receiver :: (args ++ closure.toList)
  | .ret value => [value]
  | .guard g => [g.candidate]
  | _ => []

def labels : Instr → List Label
  | .label l => [l]
  | .jump target | .branchFalse _ target => [target]
  | .guard g => [g.failure]
  | _ => []

def target? : Instr → Option Label
  | .jump target | .branchFalse _ target => some target
  | .guard g => some g.failure
  | _ => none

def placed? : Instr → Option Label
  | .label l => some l
  | _ => none

def isTerminator : Instr → Bool
  | .jump _ | .branchFalse .. | .ret _ | .guard _ => true
  | _ => false

/-- The parameter that an argument-receiving instruction adds to a block. -/
def parameter? : Instr → Option Operand
  | .receive result _ | .receiveOpt result _ _ => some (.var result)
  | .receiveRest result _ => some (.splat (.var result))
  | _ => none

theorem target?_isSome_isTerminator {i : Instr} {l : Label} (target : i.target? = some l) :
    i.isTerminator = true := by
  cases i <;> simp_all [target?, isTerminator]

theorem placed?_eq_some_iff {i : Instr} {l : Label} : i.placed? = some l ↔ i = .label l := by
  cases i <;> simp [placed?]

end Instr

end ClosureIR
