/-!
# Labels and numbered names

A label is known by its name alone.  Names that a scope invents have the form
`prefix_n`, with a number of their own for every prefix.
-/

namespace ClosureIR

structure Label where
  name : String
  deriving DecidableEq, Repr, Inhabited

namespace Label

def text (label : Label) : String := label.name

end Label

def numbered (stem : String) (n : Nat) : String := stem ++ "_" ++ toString n

theorem numbered_injective {stem : String} {a b : Nat} (same : numbered stem a = numbered stem b) :
    a = b := by
  rw [numbered, numbered, String.append_right_inj] at same
  have digits := congrArg (fun s => Nat.ofDigitChars 10 s.toList 0) same
  simpa [Nat.toString_eq_repr] using digits

end ClosureIR
