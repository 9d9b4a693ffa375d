import ClosureIR.Scope.Basic

/-!
# How names are spelt

A numbered name ends in an underscore and decimal digits, and digits are no
underscores: the name tells its stem and its number, whatever the stem is.  The
names that scopes invent for themselves therefore tell which number the closure
has.
-/

namespace ClosureIR

/-- What follows the last underscore, and what stands before it. -/
theorem append_underscore_inj {before before' after after' : List Char} (free : '_' ∉ after)
    (free' : '_' ∉ after') (same : before ++ '_' :: after = before' ++ '_' :: after') :
    before = before' ∧ after = after' := by
  obtain ⟨between, rfl, rest⟩ | ⟨between, rfl, rest⟩ := List.append_eq_append_iff.1 same
  · cases between with
    | nil =>
      cases rest
      exact ⟨(List.append_nil _).symm, rfl⟩
    | cons c cs =>
      cases rest
      simp at free
  · cases between with
    | nil =>
      cases rest
      exact ⟨List.append_nil _, rfl⟩
    | cons c cs =>
      cases rest
      simp at free'

theorem underscore_notMem_digits (n : Nat) : '_' ∉ (toString n).toList := by
  intro member
  rw [Nat.toString_eq_repr, Nat.toList_repr] at member
  have digit := Nat.isDigit_of_mem_toDigits (by decide) (by decide) member
  exact absurd digit (by decide)

/-- A numbered name tells its stem and its number. -/
theorem numbered_eq_iff {stem stem' : String} {a b : Nat} :
    numbered stem a = numbered stem' b ↔ stem = stem' ∧ a = b := by
  constructor
  · intro same
    have spelt : stem.toList ++ '_' :: (toString a).toList =
        stem'.toList ++ '_' :: (toString b).toList := by
      simpa [numbered] using congrArg String.toList same
    obtain ⟨stems, -⟩ :=
      append_underscore_inj (underscore_notMem_digits a) (underscore_notMem_digits b) spelt
    obtain rfl := String.toList_injective stems
    exact ⟨rfl, numbered_injective same⟩
  · rintro ⟨rfl, rfl⟩
    rfl

namespace Scope

variable {s t : Scope}

/-- The stem of a closure's own labels has the number of the closure in it. -/
theorem number_eq_of_labelStem (same : s.labelStem = t.labelStem) :
    s.closure.map (·.number) = t.closure.map (·.number) := by
  cases closed : s.closure with
  | none =>
    cases closed' : t.closure with
    | none => rfl
    | some data' =>
      have letters := congrArg String.toList same
      simp [labelStem, closed, closed'] at letters
  | some data =>
    cases closed' : t.closure with
    | none =>
      have letters := congrArg String.toList same
      simp [labelStem, closed, closed'] at letters
    | some data' =>
      simp only [labelStem, closed, closed', String.append_left_inj, String.append_right_inj] at same
      exact congrArg some (numbered_injective (congrArg ("CL" ++ "_" ++ ·) same))

end Scope

namespace Temporary

def isNamed (t : Temporary) : Bool :=
  match t.tag with
  | .named _ => true
  | .scope | .closure _ => false

/-- A temporary without a given name is written like a numbered name. -/
theorem text_eq_numbered (t : Temporary) (unnamed : t.isNamed = false) :
    (t.tag = .scope ∧ t.text = numbered "%v" t.index) ∨
      ∃ n, t.tag = .closure n ∧ t.text = numbered (numbered "%cl" n) t.index := by
  rcases t with ⟨owner, index, tag⟩
  cases tag with
  | scope => exact .inl ⟨rfl, by simp [text, numbered]⟩
  | closure n => exact .inr ⟨n, rfl, by simp [text, numbered, String.append_assoc]⟩
  | named name => cases unnamed

/-- It tells its tag and its index. -/
theorem eq_of_text {t u : Temporary} (unnamed : t.isNamed = false) (unnamed' : u.isNamed = false)
    (same : t.text = u.text) : t.tag = u.tag ∧ t.index = u.index := by
  obtain ⟨tag, text⟩ | ⟨n, tag, text⟩ := t.text_eq_numbered unnamed <;>
    obtain ⟨tag', text'⟩ | ⟨m, tag', text'⟩ := u.text_eq_numbered unnamed'
  all_goals
    rw [text, text', numbered_eq_iff] at same
    obtain ⟨stems, index⟩ := same
  · exact ⟨tag.trans tag'.symm, index⟩
  · have first := congrArg String.toList stems
    simp [numbered] at first
  · have first := congrArg String.toList stems
    simp [numbered] at first
  · obtain ⟨-, rfl⟩ := numbered_eq_iff.1 stems
    exact ⟨tag.trans tag'.symm, index⟩

end Temporary

end ClosureIR
