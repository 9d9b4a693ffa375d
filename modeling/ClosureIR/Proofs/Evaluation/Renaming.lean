import ClosureIR.Program.Clone
import ClosureIR.Proofs.Evaluation.Verdict
import ClosureIR.Proofs.Nesting

/-!
# Copies while the code runs

Copied code runs in a frame of its own.  When this frame holds under the new
names what the other holds under the old ones, an operand and its copy have the
same value, or none for the same kind of reason, and so a guard and its copy
give the same answer.  What becomes of the closures in an operand does not
matter: an operand with a closure in it has no value.
-/

namespace ClosureIR

open BuildM

/-- The second frame has the receiver of the first, and these variables in it under their new names. -/
structure Frame.RenamedTo (r : Renaming) (vs : List Variable) (f f' : Frame) : Prop where
  self : f'.self = f.self
  lookup : ∀ v ∈ vs, ∀ w, r.renameVariable v = .ok w → f'.lookup w = f.lookup v

/--
What is found out about code and about its copy: the same, or that a variable
and its new name are not bound, or that operands have no value.
-/
inductive Renaming.Tally (r : Renaming) {α : Type} : Except Refusal α → Except Refusal α → Prop where
  | ok (a : α) : Tally r (.ok a) (.ok a)
  | unbound {v w : Variable} (renamed : r.renameVariable v = .ok w) :
      Tally r (.error (.unbound v)) (.error (.unbound w))
  | notRetrievable (o o' : Operand) :
      Tally r (.error (.notRetrievable o)) (.error (.notRetrievable o'))

namespace Renaming.Tally

variable {r : Renaming} {α β : Type} {found found' : Except Refusal α}

theorem map (tally : r.Tally found found') (judge : α → β) :
    r.Tally (found.map judge) (found'.map judge) := by
  cases tally with
  | ok a => exact .ok (judge a)
  | unbound renamed => exact .unbound renamed
  | notRetrievable o o' => exact .notRetrievable o o'

theorem eq_ok_iff (tally : r.Tally found found') (a : α) : found' = .ok a ↔ found = .ok a := by
  cases tally <;> simp

theorem unbound_iff (tally : r.Tally found found') :
    (∃ w, found' = .error (.unbound w)) ↔ ∃ v, found = .error (.unbound v) := by
  cases tally <;> simp

theorem notRetrievable_iff (tally : r.Tally found found') :
    (∃ o', found' = .error (.notRetrievable o')) ↔ ∃ o, found = .error (.notRetrievable o) := by
  cases tally <;> simp

theorem kinds (tally : r.Tally found found') {refusal : Refusal} (failed : found = .error refusal) :
    (∃ v, refusal = .unbound v) ∨ ∃ o, refusal = .notRetrievable o := by
  cases tally with
  | ok a => cases failed
  | unbound renamed =>
    cases failed
    exact .inl ⟨_, rfl⟩
  | notRetrievable o o' =>
    cases failed
    exact .inr ⟨o, rfl⟩

end Renaming.Tally

variable {nested : ScopeId → BuildM ScopeId} {r : Renaming} {p q : Program} {f f' : Frame}

/-- An operand and its copy are read alike. -/
theorem Operand.tally_retrieve {o o' : Operand}
    (run : (o.renamed nested r).runOn p = (.ok o', q)) (carried : f.RenamedTo r o.vars f') :
    r.Tally (o.retrieve f) (o'.retrieve f') := by
  cases o with
  | var v =>
    obtain ⟨w, t, given, done⟩ := exists_of_runOn_bind run
    cases done
    have renamed := (runOn_ofMisuse_eq_ok_iff.1 given).1
    have same := carried.lookup v (List.mem_singleton_self v) w renamed
    cases bound : f.lookup v with
    | none =>
      rw [retrieve_var_of_unbound bound, retrieve_var_of_unbound (same.trans bound)]
      exact .unbound renamed
    | some value =>
      rw [retrieve_var_of_lookup bound, retrieve_var_of_lookup (same.trans bound)]
      exact .ok value
  | self =>
    cases run
    rw [retrieve_self, retrieve_self, carried.self]
    exact .ok f.self
  -- The copies of operands with parts, of labels and of closures are such operands again.
  | label l =>
    obtain ⟨l', t, -, done⟩ := exists_of_runOn_bind run
    cases done
    exact .notRetrievable (.label l) (.label l')
  | splat inner =>
    obtain ⟨inner', t, -, done⟩ := exists_of_runOn_bind run
    cases done
    exact .notRetrievable (.splat inner) (.splat inner')
  | array elements =>
    obtain ⟨elements', t, -, done⟩ := exists_of_runOn_bind run
    cases done
    exact .notRetrievable (.array elements) (.array elements')
  | closure id =>
    obtain ⟨id', t, -, done⟩ := exists_of_runOn_bind run
    cases done
    exact .notRetrievable (.closure id) (.closure id')
  | _ =>
    cases run
    exact .ok _

namespace Guard

variable {g g' : Guard}

/-- The copy of a guard assumes what the guard assumes; the rest of it is copied. -/
theorem of_renamed (run : (g.renamed nested r).runOn p = (.ok g', q)) :
    (∃ t, (g.candidate.renamed nested r).runOn p = (.ok g'.candidate, t)) ∧
      r.renameLabel g.failure = .ok g'.failure ∧ g'.assumed = g.assumed ∧ g'.version = g.version := by
  obtain ⟨candidate, t, copied, rest⟩ := exists_of_runOn_bind run
  obtain ⟨failure, u, given, done⟩ := exists_of_runOn_bind rest
  cases done
  exact ⟨⟨t, copied⟩, (runOn_ofMisuse_eq_ok_iff.1 given).1, rfl, rfl⟩

theorem tally_versionMatches (run : (g.renamed nested r).runOn p = (.ok g', q))
    (carried : f.RenamedTo r g.candidate.vars f') (heap : Heap) :
    r.Tally (g.versionMatches heap f) (g'.versionMatches heap f') := by
  obtain ⟨⟨t, copied⟩, -, -, version⟩ := of_renamed run
  rw [versionMatches_eq, versionMatches_eq, version]
  exact (Operand.tally_retrieve copied carried).map (heap.confirms g.version)

/--
The copy of a guard relies on the same module and generation and fails to the
renamed label.  In a frame that the other is renamed to it gives the same answer,
whatever the generations of modules, and where the guard has no answer the copy
has none, for a reason of the same kind; there are two such kinds.
-/
theorem answers_renamed (run : (g.renamed nested r).runOn p = (.ok g', q))
    (carried : f.RenamedTo r g.candidate.vars f') :
    g'.assumed = g.assumed ∧ g'.version = g.version ∧ r.renameLabel g.failure = .ok g'.failure ∧
      ∀ heap : Heap,
        (∀ b, g'.versionMatches heap f' = .ok b ↔ g.versionMatches heap f = .ok b) ∧
        ((∃ w, g'.versionMatches heap f' = .error (.unbound w)) ↔
          ∃ v, g.versionMatches heap f = .error (.unbound v)) ∧
        ((∃ o', g'.versionMatches heap f' = .error (.notRetrievable o')) ↔
          ∃ o, g.versionMatches heap f = .error (.notRetrievable o)) ∧
        ∀ refusal, g.versionMatches heap f = .error refusal →
          (∃ v, refusal = .unbound v) ∨ ∃ o, refusal = .notRetrievable o := by
  obtain ⟨-, failure, assumed, version⟩ := of_renamed run
  refine ⟨assumed, version, failure, fun heap => ?_⟩
  have tally := tally_versionMatches run carried heap
  exact ⟨tally.eq_ok_iff, tally.unbound_iff, tally.notRetrievable_iff, fun _ => tally.kinds⟩

/-- A guard in a closure, on a local of the closure, and its copy in the clone of the closure. -/
theorem answers_of_cloned_local :
    let x (owner : ScopeId) : Variable := .ofLocal ⟨"x", 1, 0, owner, .closure⟩
    let o : ObjectRef := ⟨0, ⟨0, "Point"⟩⟩
    let r := ((Renaming.under ⟨0⟩).derive ⟨1⟩ ⟨2⟩).withLabel ⟨"SLOW"⟩ ⟨"SLOW_2"⟩
    let f : Frame := (⟨.nil, ∅⟩ : Frame).bind (x ⟨1⟩) (.object o)
    let f' : Frame := (⟨.nil, ∅⟩ : Frame).bind (x ⟨2⟩) (.object o)
    let g : Guard := ⟨⟨0, "Point"⟩, 1, .var (x ⟨1⟩), ⟨"SLOW"⟩⟩
    let g' : Guard := ⟨⟨0, "Point"⟩, 1, .var (x ⟨2⟩), ⟨"SLOW_2"⟩⟩
    let heap := Heap.bump {} o.metaclass
    (g.renamed (Program.cloneUnder r) r).runOn {} = (.ok g', {}) ∧
      f.RenamedTo r g.candidate.vars f' ∧ g.versionMatches heap f = .ok true ∧
      g'.versionMatches heap f' = .ok true := by
  intro x o r f f' g g' heap
  have run : (g.renamed (Program.cloneUnder r) r).runOn {} = (.ok g', {}) := rfl
  have carried : f.RenamedTo r g.candidate.vars f' := by
    refine ⟨rfl, fun v member w given => ?_⟩
    cases List.mem_singleton.1 member
    have moved : r.renameVariable (x ⟨1⟩) = .ok (x ⟨2⟩) := rfl
    cases moved.symm.trans given
    rfl
  have answered : g.versionMatches heap f = .ok true := by decide
  exact ⟨run, carried, answered, (((answers_renamed run carried).2.2.2 heap).1 true).2 answered⟩

end Guard

end ClosureIR
