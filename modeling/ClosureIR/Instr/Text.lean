import ClosureIR.Instr.Basic

/-!
# The written form of instructions

An instruction that writes a variable is an equation; labels stand before a
colon; the rest are calls of their mnemonic.
-/

namespace ClosureIR

namespace Guard

def text (g : Guard) : String :=
  Opcode.guard.text ++ "(" ++ g.candidate.text ++ ", " ++ toString g.version.toNat ++
    "[" ++ g.assumed.name ++ "], " ++ g.failure.text ++ ")"

end Guard

namespace Instr

private def applied (op : Opcode) (args : List String) : String :=
  op.text ++ "(" ++ ", ".intercalate args ++ ")"

private def assigned (result : Option Variable) (body : String) : String :=
  match result with
  | some v => v.text ++ " = " ++ body
  | none => body

def text : Instr → String
  | .copy result source => assigned (some result) (applied .copy [source.text])
  | .receive result index => assigned (some result) (applied .receive [toString index])
  | .receiveOpt result index default =>
    assigned (some result) (applied .receiveOpt [toString index, default.text])
  | .receiveRest result index => assigned (some result) (applied .receiveRest [toString index])
  | .label l => l.text ++ ":"
  | .jump target => applied .jump [target.text]
  | .branchFalse condition target => applied .branchFalse [condition.text, target.text]
  | .call result receiver method args closure =>
    assigned result (applied .call
      ([receiver.text, ":" ++ method, (Operand.array args).text] ++
        closure.toList.map fun block => "&" ++ block.text))
  | .ret value => applied .ret [value.text]
  | .guard g => g.text

end Instr

end ClosureIR
