import ClosureIR.Label
import ClosureIR.Variable

/-!
# Operands

Operands are the immutable descriptions of the values that instructions
consume.  Splats and arrays nest; a closure operand names a scope.
-/

namespace ClosureIR

inductive Operand where
  | nil
  | boolean (b : Bool)
  | fixnum (n : Int64)
  /-- A string literal; every evaluation makes a new string. -/
  | string (s : String)
  | symbol (s : String)
  | self
  | var (v : Variable)
  | label (l : Label)
  /-- All elements of an array, in the place of one operand. -/
  | splat (inner : Operand)
  | array (elements : List Operand)
  /-- The body of a nested closure. -/
  | closure (id : ScopeId)
  deriving Repr, Inhabited

namespace Operand

mutual

def same : Operand → Operand → Bool
  | .nil, .nil => true
  | .boolean a, .boolean b => decide (a = b)
  | .fixnum a, .fixnum b => decide (a = b)
  | .string a, .string b => decide (a = b)
  | .symbol a, .symbol b => decide (a = b)
  | .self, .self => true
  | .var a, .var b => decide (a = b)
  | .label a, .label b => decide (a = b)
  | .splat a, .splat b => same a b
  | .array as, .array bs => sameAll as bs
  | .closure a, .closure b => decide (a = b)
  | _, _ => false

def sameAll : List Operand → List Operand → Bool
  | [], [] => true
  | a :: as, b :: bs => same a b && sameAll as bs
  | _, _ => false

end

mutual

theorem same_iff : ∀ a b : Operand, same a b = true ↔ a = b := by
  intro a b
  cases a <;> cases b <;> simp [same, same_iff, sameAll_iff]

theorem sameAll_iff : ∀ as bs : List Operand, sameAll as bs = true ↔ as = bs := by
  intro as bs
  cases as <;> cases bs <;> simp [sameAll, same_iff, sameAll_iff]

end

instance : DecidableEq Operand := fun a b => decidable_of_iff _ (same_iff a b)

/-- May a use of a variable give way to this operand when copies are propagated? -/
def propagates : Operand → Bool
  | .nil | .boolean _ | .fixnum _ | .symbol _ | .self | .var _ => true
  | _ => false

mutual

/-- The operand and all operands inside it, each before its parts. -/
def visited : Operand → List Operand
  | .splat inner => .splat inner :: visited inner
  | .array elements => .array elements :: visitedAll elements
  | o => [o]

def visitedAll : List Operand → List Operand
  | [] => []
  | o :: rest => visited o ++ visitedAll rest

end

theorem visitedAll_eq_flatMap (os : List Operand) : visitedAll os = os.flatMap visited := by
  induction os with
  | nil => simp [visitedAll]
  | cons o rest ih => simp [visitedAll, ih]

mutual

def text : Operand → String
  | .nil => "nil"
  | .boolean b => toString b
  | .fixnum n => toString n.toInt
  | .string s => "\"" ++ s ++ "\""
  | .symbol s => ":" ++ s
  | .self => "%self"
  | .var v => v.text
  | .label l => l.text
  | .splat inner => "*" ++ text inner
  | .array elements => "[" ++ ", ".intercalate (texts elements) ++ "]"
  | .closure id => "closure<" ++ id.text ++ ">"

def texts : List Operand → List String
  | [] => []
  | o :: rest => text o :: texts rest

end

end Operand

end ClosureIR
