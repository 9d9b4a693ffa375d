import ClosureIR.Fault
import ClosureIR.Instr.Basic
import ClosureIR.Object.Heap

/-!
# Frames

A frame holds the values of variables while code runs.  All views of one local
read one cell, whatever their depth; a temporary has a cell of its own.
-/

namespace ClosureIR

inductive Cell where
  | ofLocal (owner : ScopeId) (slot : Nat)
  | ofTemp (t : Temporary)
  deriving DecidableEq, Repr

/-- The cell of a variable: that of the declaration for a local. -/
def Variable.cell : Variable → Cell
  | .ofLocal v => .ofLocal v.owner v.slot
  | .ofTemp t => .ofTemp t

structure Frame where
  self : Value
  cells : Dict Cell Value := ∅
  deriving DecidableEq

namespace Frame

def bind (f : Frame) (v : Variable) (value : Value) : Frame :=
  { f with cells := f.cells.insert v.cell value }

def lookup (f : Frame) (v : Variable) : Option Value := f.cells.get? v.cell

theorem lookup_bind (f : Frame) (v w : Variable) (value : Value) :
    (f.bind v value).lookup w = if w.cell = v.cell then some value else f.lookup w :=
  Dict.get?_insert f.cells v.cell w.cell value

@[simp] theorem bind_self (f : Frame) (v : Variable) (value : Value) :
    (f.bind v value).self = f.self := rfl

end Frame

/-- The value of an operand in a frame.  Only literals, the receiver and variables have one. -/
def Operand.retrieve (f : Frame) : Operand → Except Refusal Value
  | .nil => .ok .nil
  | .boolean b => .ok (.bool b)
  | .fixnum n => .ok (.fixnum n)
  | .string s => .ok (.str s)
  | .symbol s => .ok (.symbol s)
  | .self => .ok f.self
  | .var v =>
    match f.lookup v with
    | some value => .ok value
    | none => .error (.unbound v)
  | o => .error (.notRetrievable o)

/--
Does the class of the checked value still have the generation that the guard
expects?  A value without a class never passes.
-/
def Guard.versionMatches (g : Guard) (heap : Heap) (f : Frame) : Except Refusal Bool := do
  let value ← g.candidate.retrieve f
  match value.metaclass? with
  | some m => return decide (heap.generation m = g.version)
  | none => return false

end ClosureIR
