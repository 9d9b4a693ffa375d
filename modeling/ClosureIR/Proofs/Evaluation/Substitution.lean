import ClosureIR.Instr.Substitution
import ClosureIR.Proofs.Evaluation.Verdict
import ClosureIR.Proofs.Substitution.Operands

/-!
# Substitution while the code runs

A substitution is made long before the code runs.  It does no harm in a frame
where the variables that it maps have the values of their replacements: what
had a value there has the same value afterwards.  Keys are single views of a
local and the frame keeps one cell for all of them, so a frame has to bear out
the entry of each view on its own.
-/

namespace ClosureIR

/-- A mapped variable that has a value in the frame shares it with its replacement. -/
def ValueMap.HoldsIn (map : ValueMap) (f : Frame) : Prop :=
  ∀ v new value, map.get? (.var v) = some new → f.lookup v = some value →
    new.retrieve f = .ok value

variable {map : ValueMap} {force : Bool} {f : Frame}

namespace ValueMap.HoldsIn

theorem empty (f : Frame) : HoldsIn ∅ f := by
  intro v new value given
  cases given

/-- One more entry is borne out by the frame if it is so itself. -/
theorem insert (holds : map.HoldsIn f) {v : Variable} {new : Operand}
    (here : ∀ value, f.lookup v = some value → new.retrieve f = .ok value) :
    HoldsIn (Dict.insert map (.var v) new) f := by
  intro w other value given bound
  rw [Dict.get?_insert] at given
  split at given
  · rename_i same
    cases same
    cases given
    exact here value bound
  · exact holds w other value given bound

end ValueMap.HoldsIn

/-- An operand that has a value keeps it: only variables are exchanged that have one. -/
theorem Operand.retrieve_simplified (holds : map.HoldsIn f) {o : Operand} {value : Value}
    (read : o.retrieve f = .ok value) : (o.simplified map force).retrieve f = .ok value := by
  cases o with
  | var v =>
    rw [simplified_var]
    cases given : map.replacement? force v with
    | none => exact read
    | some new =>
      exact holds v new value (ValueMap.get?_of_replacement? given) (lookup_of_retrieve_var read)
  -- Operands with parts may change inside, but they have no value.
  | splat inner => cases read
  | array elements => cases read
  | _ => exact read

/-- A guard that gives an answer keeps it: the value that it judges stays. -/
theorem Guard.versionMatches_simplified (holds : map.HoldsIn f) {g : Guard} {heap : Heap} {b : Bool}
    (answered : g.versionMatches heap f = .ok b) :
    (g.simplified map force).versionMatches heap f = .ok b := by
  obtain ⟨value, read, judged⟩ := versionMatches_eq_ok_iff.1 answered
  exact versionMatches_eq_ok_iff.2 ⟨value, Operand.retrieve_simplified holds read, judged⟩

/--
In a frame that bears out the value map, substituted operands have the values
that the operands had, and substituted guards give the answers that the guards
gave, whatever the generations of modules.
-/
theorem ValueMap.evaluation_simplified (holds : map.HoldsIn f) (force : Bool) :
    (∀ (o : Operand) value, o.retrieve f = .ok value →
      (o.simplified map force).retrieve f = .ok value) ∧
    ∀ (g : Guard) (heap : Heap) b, g.versionMatches heap f = .ok b →
      (g.simplified map force).versionMatches heap f = .ok b :=
  ⟨fun _ _ read => Operand.retrieve_simplified holds read,
    fun _ _ _ answered => Guard.versionMatches_simplified holds answered⟩

/--
A guard on a view of a local from two scopes away checks the receiver instead,
and a string takes the place of a temporary; the frame was written by another
view of the local.
-/
theorem ValueMap.evaluation_of_two_entries :
    let o : ObjectRef := ⟨0, ⟨0, "Point"⟩⟩
    let x (depth : Nat) : Variable := .ofLocal ⟨"x", depth, 0, ⟨1⟩, .closure⟩
    let t : Variable := .ofTemp ⟨⟨3⟩, 0, .scope⟩
    let f := ((⟨.object o, ∅⟩ : Frame).bind (x 0) (.object o)).bind t (.str "s")
    let map : ValueMap := ((∅ : ValueMap).insert (.var (x 2)) .self).insert (.var t) (.string "s")
    let g : Guard := ⟨⟨1, "Point"⟩, 1, .var (x 2), ⟨"SLOW"⟩⟩
    let heap := Heap.bump {} o.metaclass
    map.HoldsIn f ∧ g.simplified map true = { g with candidate := .self } ∧
      (g.simplified map true).versionMatches heap f = .ok true ∧
      (Operand.var t).simplified map true = .string "s" ∧
      ((Operand.var t).simplified map true).retrieve f = .ok (.str "s") := by
  intro o x t f map g heap
  have holds : map.HoldsIn f := by
    refine ((HoldsIn.empty f).insert fun value bound => ?_).insert fun value bound => ?_
    · have written : f.lookup (x 2) = some (.object o) := by decide
      cases written.symm.trans bound
      rfl
    · have written : f.lookup t = some (.str "s") := by decide
      cases written.symm.trans bound
      rfl
  have sound := evaluation_simplified holds true
  refine ⟨holds, by decide, sound.2 g heap true (by decide), by decide, sound.1 (.var t) _ (by decide)⟩

end ClosureIR
