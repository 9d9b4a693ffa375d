import ClosureIR.Program.Basic
import ClosureIR.Renaming.Basic

/-!
# Copying under a renaming

Operands, instructions and graphs are copied part by part.  How a nested
closure is copied is a parameter.
-/

namespace ClosureIR

open BuildM

namespace Operand

mutual

/-- The copy of an operand; `nested` copies the closures in it. -/
def renamed (nested : ScopeId → BuildM ScopeId) (r : Renaming) : Operand → BuildM Operand
  | .var v => do return .var (← ofMisuse (r.renameVariable v))
  | .label l => do return .label (← ofMisuse (r.renameLabel l))
  | .splat inner => do return .splat (← renamed nested r inner)
  | .array elements => do return .array (← renamedAll nested r elements)
  | .closure id => do return .closure (← nested id)
  | o => return o

def renamedAll (nested : ScopeId → BuildM ScopeId) (r : Renaming) :
    List Operand → BuildM (List Operand)
  | [] => return []
  | o :: rest => do
    let first ← renamed nested r o
    let others ← renamedAll nested r rest
    return first :: others

end

def renamedOption (nested : ScopeId → BuildM ScopeId) (r : Renaming) :
    Option Operand → BuildM (Option Operand)
  | none => return none
  | some o => do return some (← renamed nested r o)

end Operand

namespace Guard

/-- The copy of a guard: what it assumes stays, what it checks and where it fails is copied. -/
def renamed (nested : ScopeId → BuildM ScopeId) (r : Renaming) (g : Guard) : BuildM Guard := do
  let candidate ← g.candidate.renamed nested r
  let failure ← ofMisuse (r.renameLabel g.failure)
  return { g with candidate, failure }

end Guard

namespace Instr

def renamedResult (r : Renaming) : Option Variable → BuildM (Option Variable)
  | none => return none
  | some v => do return some (← ofMisuse (r.renameVariable v))

def renamed (nested : ScopeId → BuildM ScopeId) (r : Renaming) : Instr → BuildM Instr
  | .copy result source => do
    let result ← ofMisuse (r.renameVariable result)
    let source ← source.renamed nested r
    return .copy result source
  | .receive result index => do
    let result ← ofMisuse (r.renameVariable result)
    return .receive result index
  | .receiveOpt result index default => do
    let result ← ofMisuse (r.renameVariable result)
    let default ← default.renamed nested r
    return .receiveOpt result index default
  | .receiveRest result index => do
    let result ← ofMisuse (r.renameVariable result)
    return .receiveRest result index
  | .label l => do
    let l ← ofMisuse (r.renameLabel l)
    return .label l
  | .jump target => do
    let target ← ofMisuse (r.renameLabel target)
    return .jump target
  | .branchFalse condition target => do
    let condition ← condition.renamed nested r
    let target ← ofMisuse (r.renameLabel target)
    return .branchFalse condition target
  | .call result receiver method args closure => do
    let result ← renamedResult r result
    let receiver ← receiver.renamed nested r
    let args ← Operand.renamedAll nested r args
    let closure ← Operand.renamedOption nested r closure
    return .call result receiver method args closure
  | .ret value => do
    let value ← value.renamed nested r
    return .ret value
  | .guard g => do
    let g ← g.renamed nested r
    return .guard g

def renamedAll (nested : ScopeId → BuildM ScopeId) (r : Renaming) :
    List Instr → BuildM (List Instr)
  | [] => return []
  | i :: rest => do
    let first ← i.renamed nested r
    let others ← renamedAll nested r rest
    return first :: others

end Instr

namespace Block

def renamed (nested : ScopeId → BuildM ScopeId) (r : Renaming) (b : Block) : BuildM Block := do
  let instrs ← Instr.renamedAll nested r b.instrs
  let label ← ofMisuse (r.renameLabel b.label)
  return { b with label, instrs }

def renamedAll (nested : ScopeId → BuildM ScopeId) (r : Renaming) :
    List Block → BuildM (List Block)
  | [] => return []
  | b :: rest => do
    let first ← b.renamed nested r
    let others ← renamedAll nested r rest
    return first :: others

end Block

namespace Graph

/-- The copy of a graph for the scope `owner`.  Blocks keep their places and edges. -/
def renamed (nested : ScopeId → BuildM ScopeId) (r : Renaming) (owner : ScopeId) (g : Graph) :
    BuildM Graph := do
  let blocks ← Block.renamedAll nested r g.blocks
  return { g with scope := owner, blocks }

end Graph

end ClosureIR
