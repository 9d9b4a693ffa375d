import ClosureIR.Program.Clone
import ClosureIR.Proofs.Change

/-!
# Requests and what they may touch

The public operations as data: what is asked for, the operation that answers,
the variables that it gives out, and the deeds that it may do to scopes that are
there.  A request does no others.
-/

namespace ClosureIR

open BuildM

/-- What a program may be asked for, with the type of the answer. -/
inductive Request : Type → Type where
  | newScript (fileName : String) : Request ScopeId
  | newMethod (parent : ScopeId) (name : String) (line : Nat) (static : Option StaticScope) :
      Request ScopeId
  | newClosure (parent : ScopeId) (forLoop : Bool) (line : Nat) (static : Option StaticScope)
      (signature : BlockSignature) : Request ScopeId
  | newEvalUnit (parent : ScopeId) (fileName : String) (line : Nat) (static : Option StaticScope)
      (stem : String) : Request ScopeId
  | markInlined (id : ScopeId) : Request Unit
  | setParameters (id : ScopeId) (names : List String) : Request Unit
  | newLabel (id : ScopeId) : Request Label
  | newLabelWith (id : ScopeId) (stem : String) : Request Label
  | newTemp (id : ScopeId) : Request Temporary
  | newNamedTemp (id : ScopeId) (name : String) : Request Temporary
  | newClosureNumber (id : ScopeId) : Request Nat
  | newLocal (id : ScopeId) (name : String) (depth : Nat) : Request LocalVar
  | getLocal (id : ScopeId) (name : String) (depth : Nat) : Request LocalVar
  | newFlip (id : ScopeId) : Request LocalVar
  | implicitBlock (id : ScopeId) : Request LocalVar
  | addInstr (id : ScopeId) (i : Instr) : Request Unit
  | buildGraph (id : ScopeId) : Request Graph
  | prepare (r : Renaming) (g : Graph) : Request Renaming
  | cloneClosure (source parent : ScopeId) : Request ScopeId
  | cloneUnder (r : Renaming) (source : ScopeId) : Request ScopeId
  | cloneOperand (r : Renaming) (o : Operand) : Request Operand
  | cloneGuard (r : Renaming) (g : Guard) : Request Guard
  | cloneInstr (r : Renaming) (i : Instr) : Request Instr
  | cloneGraph (r : Renaming) (owner : ScopeId) (g : Graph) : Request Graph

namespace Request

variable {α : Type}

def run : Request α → BuildM α
  | newScript fileName => Program.newScript fileName
  | newMethod parent name line static => Program.newMethod parent name line static
  | newClosure parent forLoop line static signature =>
    Program.newClosure parent forLoop line static signature
  | newEvalUnit parent fileName line static stem => Program.newEvalUnit parent fileName line static stem
  | markInlined id => Program.markInlined id
  | setParameters id names => Program.setParameters id names
  | newLabel id => Program.newLabel id
  | newLabelWith id stem => Program.newLabelWith id stem
  | newTemp id => Program.newTemp id
  | newNamedTemp id name => Program.newNamedTemp id name
  | newClosureNumber id => Program.newClosureNumber id
  | newLocal id name depth => Program.newLocal id name depth
  | getLocal id name depth => Program.getLocal id name depth
  | newFlip id => Program.newFlip id
  | implicitBlock id => Program.implicitBlock id
  | addInstr id i => Program.addInstr id i
  | buildGraph id => Program.buildGraph id
  | prepare r g => r.prepare g
  | cloneClosure source parent => Program.cloneClosure source parent
  | cloneUnder r source => Program.cloneUnder r source
  | cloneOperand r o => Program.cloneOperand r o
  | cloneGuard r g => g.renamed (Program.cloneUnder r) r
  | cloneInstr r i => Program.cloneInstr r i
  | cloneGraph r owner g => Program.cloneGraph r owner g

/-- The scope under which a request clones closures, if that is what it does. -/
def cloneHost? : Request α → Option ScopeId
  | cloneClosure _ parent => some parent
  | cloneUnder r _ | cloneOperand r _ | cloneGuard r _ | cloneInstr r _ | cloneGraph r _ _ =>
    some r.host
  | _ => none

def given : Request α → α → List Variable
  | newTemp _, t | newNamedTemp _ _, t => [.ofTemp t]
  | newLocal _ _ _, v | getLocal _ _ _, v | newFlip _, v | implicitBlock _, v => [.ofLocal v]
  | _, _ => []

/-- The deeds that a request may do to a scope that is there. -/
def may (p : Program) : Request α → ScopeId → Deed → Prop
  | newScript _, _, _ | newMethod _ _ _ _, _, _ => False
  | newClosure parent _ _ _ _, x, deed | newEvalUnit parent _ _ _ _, x, deed
  | newClosureNumber parent, x, deed | cloneClosure _ parent, x, deed =>
    p.nearestFlat parent = .ok x ∧ deed = .number
  | markInlined id, x, deed => x = id ∧ deed = .inline
  | setParameters id _, x, deed => x = id ∧ deed = .parameters
  | newLabel id, x, deed | newLabelWith id _, x, deed => x = id ∧ deed = .name
  | newTemp id, x, deed | newNamedTemp id _, x, deed => x = id ∧ deed = .temporary
  | newLocal id _ depth, x, deed => deed = .declare ∧ p.DeclaresFrom id depth x
  | getLocal id _ depth, x, deed =>
    deed = .declare ∧ ∃ host, p.lookupSite id = .ok host ∧ p.DeclaresFrom host depth x
  | newFlip id, x, deed =>
    x = id ∧ (∃ s, p.scope? id = some s ∧ s.isClosure = false) ∧ (deed = .name ∨ deed = .declare)
  | implicitBlock id, x, deed =>
    deed = .declare ∧ ((∃ flat, p.nearestFlat id = .ok flat ∧ p.DeclaresFrom flat 0 x) ∨
      p.DeclaresFrom id 0 x)
  | addInstr id i, x, deed => x = id ∧ deed = .append i
  | buildGraph id, x, deed => x = id ∧ (deed = .name ∨ deed = .graph)
  | prepare r _, x, deed => Renaming.prepares r.host x deed
  | cloneUnder r _, x, deed | cloneOperand r _, x, deed | cloneGuard r _, x, deed
  | cloneInstr r _, x, deed | cloneGraph r _ _, x, deed => p.nearestFlat r.host = .ok x ∧ deed = .number

/-- A request that does not clone makes elementary changes, with the deeds that it may do. -/
theorem changes (r : Request α) (makes : r.cloneHost? = none) (p : Program) :
    r.run.Leaves p (p.Changes (r.may p)) := by
  open Program in
  cases r with
  | newScript fileName => exact elementary_newScript fileName p
  | newMethod parent name line static => exact elementary_newMethod parent name line static p
  | newClosure parent forLoop line static signature =>
    exact changes_newClosure parent p forLoop line static signature
  | newEvalUnit parent fileName line static stem =>
    exact changes_newEvalUnit parent p fileName line static stem
  | markInlined id => exact elementary_markInlined id p
  | setParameters id names => exact elementary_setParameters id names p
  | newLabel id => exact elementary_newLabel id p
  | newLabelWith id stem => exact elementary_newLabelWith id stem p
  | newTemp id => exact elementary_newTemp id p
  | newNamedTemp id name => exact elementary_newNamedTemp id name p
  | newClosureNumber id => exact changes_newClosureNumber id p
  | newLocal id name depth => exact changes_newLocal id p name depth
  | getLocal id name depth => exact changes_getLocal id p name depth
  | newFlip id => exact changes_newFlip id p
  | implicitBlock id => exact changes_implicitBlock id p
  | addInstr id i => exact elementary_addInstr id i p
  | buildGraph id => exact elementary_buildGraph id p
  | prepare r g => exact Renaming.elementary_coverAll g.mentions r p
  | cloneClosure | cloneUnder | cloneOperand | cloneGuard | cloneInstr | cloneGraph => cases makes

end Request

end ClosureIR
