import ClosureIR.Proofs.Flow.Stored
import ClosureIR.Proofs.Identity

/-!
# Parameters and the instructions that receive them

A closure records its parameters while the instructions that receive them are
appended.  A clone takes the record of its source and the instructions of its
source's graph.  When parameters were received after the graph was made, the
clone records them too, and nothing in it receives them.
-/

namespace ClosureIR

open BuildM Relation

def Instr.received (is : List Instr) : List Operand := is.filterMap parameter?

/-! ## Parameters of copies -/

def NameMap.parameter (m : NameMap) : Operand → Operand
  | .var v => .var (m.var v)
  | .splat (.var v) => .splat (.var (m.var v))
  | o => o

section Copies

variable {m : NameMap} {sub : ScopeId → ScopeId → Prop}

namespace Operand

theorem Copied.eq_parameter {o o' : Operand} (copied : o.Copied m sub o')
    (parameter : o.IsParameter) : o' = m.parameter o := by
  obtain ⟨v, rfl | rfl⟩ := parameter
  · cases copied
    rfl
  · cases copied with
    | splat inner =>
      cases inner
      rfl

theorem AllCopied.eq_map_parameter {os os' : List Operand} (copied : AllCopied m sub os os')
    (parameters : ∀ o ∈ os, o.IsParameter) : os' = os.map m.parameter := by
  induction os generalizing os' with
  | nil =>
    cases copied
    rfl
  | cons o rest ih =>
    rw [List.forall_mem_cons] at parameters
    cases copied with
    | cons first others =>
      rw [List.map_cons, first.eq_parameter parameters.1, ih others parameters.2]

end Operand

theorem Instr.Copied.parameter? {i i' : Instr} (copied : i.Copied m sub i') :
    i'.parameter? = i.parameter?.map m.parameter := by
  cases copied <;> rfl

/-- A copy receives the same parameters, under their new names. -/
theorem Graph.Copied.received {owner : ScopeId} {g g' : Graph} (copied : g.Copied m sub owner g') :
    Instr.received g'.instrs = (Instr.received g.instrs).map m.parameter :=
  filterMap_of_forall₂ copied.instrs fun _ _ here => here.parameter?

end Copies

/-! ## The record of one scope -/

namespace Scope

def Faithful (s : Scope) : Prop := s.blockArgs = Instr.received s.instrs

instance (s : Scope) : Decidable s.Faithful := inferInstanceAs (Decidable (_ = _))

/-- The parameters on record are those that the graph receives: none came after it was made. -/
def Settled (s : Scope) : Prop := ∃ g, s.graph = some g ∧ s.blockArgs = Instr.received g.instrs

/-- What holds of every record: it lists parameters, and all those that a closure receives. -/
structure Recorded (s : Scope) : Prop where
  drawn : s.Drawn
  parameters : ∀ o ∈ s.blockArgs, o.IsParameter
  received : s.closure.isSome = true → (Instr.received s.instrs).Sublist s.blockArgs

variable {s c : Scope} {id parent : ScopeId} {m : NameMap}
  {sub : ScopeId → ScopeId → Prop}

theorem faithful_withClosure (s : Scope) {f : ClosureData → ClosureData}
    (same : ∀ data, (f data).blockArgs = data.blockArgs) :
    (s.withClosure f).Faithful ↔ s.Faithful := by
  rw [Faithful, blockArgs_withClosure s same]
  rfl

theorem received_append (s : Scope) (i : Instr) :
    Instr.received (s.append i).instrs = Instr.received s.instrs ++ i.parameter?.toList := by
  rw [append_instrs, Instr.received, List.filterMap_append, Instr.received]
  cases h : i.parameter? <;> simp [h]

/-- A closure stays one, and faithful if it is. -/
theorem lasting_faithful : Lasting fun s t => t.closure.isSome = s.closure.isSome ∧
    (s.closure.isSome = true → (t.Faithful ↔ s.Faithful)) where
  refl _ := ⟨rfl, fun _ => Iff.rfl⟩
  trans first second :=
    ⟨second.1.trans first.1, fun closed => (second.2 (first.1.trans closed)).trans (first.2 closed)⟩
  edit {id s deed t} edited := by
    constructor
    · have cores := congrArg (·.closure.isSome) edited.core_eq
      simpa [core] using cores
    · intro closed
      have counted := edited.of_counts
      cases edited with
      | name | temporary | number =>
        obtain ⟨_, _, _, -, rfl⟩ := counted trivial
        exact Iff.rfl
      | declare | overflow | graph => exact Iff.rfl
      | append i live =>
        obtain ⟨data, known⟩ := Option.isSome_iff_exists.1 closed
        rw [Faithful, append_blockArgs i known, received_append, List.append_left_inj]
        rfl
      | inline | parameters => exact faithful_withClosure s fun _ => rfl
  counted _ _ := ⟨rfl, fun _ => Iff.rfl⟩

theorem ClonedAs.blockArgs (cloned : s.ClonedAs c parent id m sub)
    (parameters : ∀ o ∈ s.blockArgs, o.IsParameter) :
    c.blockArgs = s.blockArgs.map m.parameter := by
  obtain ⟨_, _, data, data', -, closed, closed', same⟩ := cloned.body
  have source : s.blockArgs = data.blockArgs := by rw [Scope.blockArgs, closed]
  have clone : c.blockArgs = data'.blockArgs := by rw [Scope.blockArgs, closed']
  rw [source] at parameters ⊢
  rw [clone]
  exact same.blockArgs.eq_map_parameter parameters

namespace Recorded

theorem of_bare (bare : s.graph = none) (args : s.blockArgs = []) (empty : s.instrs = []) :
    s.Recorded where
  drawn g graph := by cases bare.symm.trans graph
  parameters o member := by
    rw [args] at member
    cases member
  received _ := by
    rw [args, empty]
    exact .slnil

theorem withClosure (recorded : s.Recorded) {f : ClosureData → ClosureData}
    (same : ∀ data, (f data).blockArgs = data.blockArgs) : (s.withClosure f).Recorded := by
  have args := s.blockArgs_withClosure same
  refine ⟨recorded.drawn, args ▸ recorded.parameters, fun closed => args ▸ recorded.received ?_⟩
  exact (Option.isSome_map ..).symm.trans closed

theorem append (recorded : s.Recorded) (i : Instr) : (s.append i).Recorded := by
  have drawn := recorded.drawn.append i
  cases closed : s.closure with
  | none =>
    have bare : (s.append i).closure = none := by simp [Scope.append, Scope.withClosure, closed]
    refine ⟨drawn, fun o member => ?_, fun closed => ?_⟩
    · simp [Scope.blockArgs, bare] at member
    · simp [bare] at closed
  | some data =>
    have below := recorded.received (by simp [closed])
    refine ⟨drawn, fun o member => ?_, fun _ => ?_⟩
    · rw [append_blockArgs i closed, List.mem_append, Option.mem_toList] at member
      exact member.elim (recorded.parameters o) Instr.isParameter_of_parameter?
    · rw [append_blockArgs i closed, received_append]
      exact below.append (.refl _)

/-- The graph of a closure receives no more than the closure records. -/
theorem graph {g : Graph} (recorded : s.Recorded) (closed : s.closure.isSome = true)
    (graph : s.graph = some g) : (Instr.received g.instrs).Sublist s.blockArgs :=
  ((recorded.drawn g graph).2.sublist.filterMap _).trans (recorded.received closed)

theorem clone (recorded : s.Recorded) (cloned : s.ClonedAs c parent id m sub) : c.Recorded := by
  obtain ⟨g, g', data, -, body, closed, -⟩ := cloned.body
  have args := cloned.blockArgs recorded.parameters
  refine ⟨cloned.drawn recorded.drawn, fun o member => ?_, fun _ => ?_⟩
  · rw [args, List.mem_map] at member
    obtain ⟨o, inside, rfl⟩ := member
    obtain ⟨v, rfl | rfl⟩ := recorded.parameters o inside
    · exact ⟨m.var v, .inl rfl⟩
    · exact ⟨m.var v, .inr rfl⟩
  · rw [args, body.instrs, body.copied.received]
    exact (recorded.graph (by simp [closed]) body.source).map _

/-- A clone is faithful just when its source has received nothing since its graph was made. -/
theorem faithful_iff (recorded : s.Recorded) (cloned : s.ClonedAs c parent id m sub) :
    c.Faithful ↔ s.Settled := by
  obtain ⟨g, g', data, -, body, closed, -⟩ := cloned.body
  have below := recorded.graph (by simp [closed]) body.source
  rw [Faithful, cloned.blockArgs recorded.parameters, body.instrs, body.copied.received]
  constructor
  · intro same
    -- Renaming keeps lengths, and a part of the record that is as long as the record is all of it.
    have lengths := congrArg List.length same
    rw [List.length_map, List.length_map] at lengths
    exact ⟨g, body.source, (below.eq_of_length lengths.symm).symm⟩
  · rintro ⟨h, graph, same⟩
    cases body.source.symm.trans graph
    rw [same]

end Recorded

theorem invariant_recorded : Invariant fun _ _ s => s.Recorded where
  script _ _ _ := .of_bare rfl rfl rfl
  method _ _ _ _ _ _ _ := .of_bare rfl rfl rfl
  block _ _ _ _ _ _ _ _ _ _ := .of_bare rfl rfl rfl
  evalUnit _ _ _ _ _ _ _ _ _ := .of_bare rfl rfl rfl
  counters _ _ _ holds := ⟨holds.drawn, holds.parameters, holds.received⟩
  declare _ _ _ holds _ _ := ⟨holds.drawn, holds.parameters, holds.received⟩
  append i holds := holds.append i
  graph holds built := ⟨drawn_of_build built, holds.parameters, holds.received⟩
  inline holds := holds.withClosure fun _ => rfl
  parameters _ holds := holds.withClosure fun _ => rfl
  shell _ _ _ _ _ := .of_bare rfl rfl rfl
  clone holds _ cloned := holds.clone cloned

end Scope

namespace Program

variable {p q : Program} {id flat : ScopeId} {t : Scope} {may : ScopeId → Deed → Prop}

/-- A scope that a change adds has received nothing. -/
theorem faithful_of_change (change : p.Change may q) (absent : p.scope? id = none)
    (found : q.scope? id = some t) : t.Faithful := by
  cases change with
  | edit => cases (scope?_replace_of_missing absent _ _).symm.trans found
  | script | method =>
    obtain ⟨-, rfl⟩ := eq_of_scope?_push absent found
    rfl
  | block | evalUnit =>
    obtain ⟨-, rfl⟩ := eq_of_scope?_push (scope?_replace_of_missing absent _ _) found
    rfl

theorem faithful_of_changes (changes : p.Changes may q) (absent : p.scope? id = none)
    (found : q.scope? id = some t) (closed : t.closure.isSome = true) : t.Faithful := by
  refine changes.of_missing (P := fun t => t.closure.isSome = true → t.Faithful)
    Scope.lasting_faithful ?_ ?_ absent found closed
  · rintro s t ⟨same, faithful⟩ before closed
    have closed' := same.symm.trans closed
    exact (faithful closed').2 (before closed')
  · exact fun change absent found _ => faithful_of_change change absent found

/-- A closure that cloning adds is a clone, or has nothing in it yet. -/
theorem Cloning.faithful (cloning : p.Cloning flat q) (hosts : p.Hosts flat)
    (absent : p.scope? id = none) (found : q.scope? id = some t) :
    t.Faithful ∨ ∃ parent owner source, q.IsClone parent owner source id := by
  have beyond := size_le_of_missing absent
  cases graph : t.graph with
  | some g => exact .inr (cloning.traced hosts id t beyond found (by simp [graph]))
  | none =>
    cases cloning.shelled hosts id t beyond found graph with
    | intro _ _ _ _ _ shell =>
      obtain ⟨_, _, rfl⟩ := shell
      exact .inl rfl

/-- A closure that a request adds is a clone, or has received all that it records. -/
theorem Reachable.faithful_of_missing {α : Type} (reachable : p.Reachable) (r : Request α)
    (absent : p.scope? id = none) (found : (p.after r.run).scope? id = some t)
    (closed : t.isClosure = true) :
    t.Faithful ∨ ∃ parent owner source, (p.after r.run).IsClone parent owner source id := by
  have formed := reachable.wellFormed
  cases copies : r.cloneHost? with
  | none =>
    have formed' := (reachable.step r).wellFormed
    exact .inl (faithful_of_changes (r.changes copies p).after absent found
      ((formed' id t found).closure.trans closed))
  | some host =>
    obtain same | ⟨flat, nearest, cloning⟩ := formed.clonesUnder (r.clones copies p).after
    · rw [after, same, absent] at found
      cases found
    · exact cloning.faithful (formed.hosts nearest) absent found

/--
A closure records all parameters that its instructions receive, in order, and
new closures record no others.  A closure that does so keeps doing so, and its
clones do so as well unless it has received more since its graph was made.
-/
theorem received_of_reachable (reachable : p.Reachable) :
    (∀ id s, p.scope? id = some s → s.isClosure = true →
      (Instr.received s.instrs).Sublist s.blockArgs) ∧
    (∀ parent owner source clone s c, p.IsClone parent owner source clone →
      p.scope? source = some s → p.scope? clone = some c → (c.Faithful ↔ s.Settled)) ∧
    ∀ {α : Type} (r : Request α),
      (∀ id s, p.scope? id = some s → s.isClosure = true →
        ∃ t, (p.after r.run).scope? id = some t ∧ (t.Faithful ↔ s.Faithful)) ∧
      ∀ id t, p.scope? id = none → (p.after r.run).scope? id = some t → t.isClosure = true →
        t.Faithful ∨ ∃ parent owner source, (p.after r.run).IsClone parent owner source id := by
  have formed := reachable.wellFormed
  have recorded := reachable.everywhere Scope.invariant_recorded
  refine ⟨?_, ?_, fun r => ⟨?_, ?_⟩⟩
  · intro id s found closed
    exact (recorded id s found).received ((formed id s found).closure.trans closed)
  · rintro parent owner source clone s c ⟨found, made, -, -, -, cloned, -⟩ found' made'
    cases found.symm.trans found'
    cases made.symm.trans made'
    exact (recorded source s found).faithful_iff cloned
  · intro id s found closed
    obtain ⟨t, there, -, faithful⟩ := formed.tracks Scope.lasting_faithful r id s found
    exact ⟨t, there, faithful ((formed id s found).closure.trans closed)⟩
  · intro id t absent found closed
    exact reachable.faithful_of_missing r absent found closed

def lateParameter : Program :=
  ({} : Program)
    |>.after (newScript "main.rb")
    |>.after (newClosure ⟨0⟩ false 1 none {})
    |>.after (newLocal ⟨1⟩ "a" 0)
    |>.after (addInstr ⟨1⟩ (.receive (.ofLocal ⟨"a", 0, 0, ⟨1⟩, .closure⟩) 0))
    |>.after (buildGraph ⟨1⟩)
    |>.after (newLocal ⟨1⟩ "b" 0)
    |>.after (addInstr ⟨1⟩ (.receive (.ofLocal ⟨"b", 0, 1, ⟨1⟩, .closure⟩) 1))
    |>.after (cloneClosure ⟨1⟩ ⟨0⟩)

theorem reachable_lateParameter : lateParameter.Reachable :=
  Reachable.start {}
    |>.step (.newScript "main.rb")
    |>.step (.newClosure ⟨0⟩ false 1 none {})
    |>.step (.newLocal ⟨1⟩ "a" 0)
    |>.step (.addInstr ⟨1⟩ (.receive (.ofLocal ⟨"a", 0, 0, ⟨1⟩, .closure⟩) 0))
    |>.step (.buildGraph ⟨1⟩)
    |>.step (.newLocal ⟨1⟩ "b" 0)
    |>.step (.addInstr ⟨1⟩ (.receive (.ofLocal ⟨"b", 0, 1, ⟨1⟩, .closure⟩) 1))
    |>.step (.cloneClosure ⟨1⟩ ⟨0⟩)

/-- The clone records both parameters and receives only the first; the closure itself is still faithful. -/
theorem received_lateParameter :
    ∃ s c, lateParameter.scope? ⟨1⟩ = some s ∧ lateParameter.scope? ⟨2⟩ = some c ∧ s.Faithful ∧
      ¬ c.Faithful ∧ (Instr.received c.instrs).Sublist c.blockArgs := by
  have shape : (lateParameter.scope? ⟨1⟩).any (fun s => decide s.Faithful) = true ∧
      (lateParameter.scope? ⟨2⟩).any (fun c => c.isClosure && !decide c.Faithful) = true := by
    decide +kernel
  obtain ⟨s, found, faithful⟩ := (Option.any_eq_true _ _).1 shape.1
  obtain ⟨c, made, shape⟩ := (Option.any_eq_true _ _).1 shape.2
  rw [Bool.and_eq_true, Bool.not_eq_true', decide_eq_false_iff_not] at shape
  exact ⟨s, c, found, made, of_decide_eq_true faithful, shape.2,
    (received_of_reachable reachable_lateParameter).1 ⟨2⟩ c made shape.1⟩

/-- So not all closures record just what they receive. -/
theorem not_forall_faithful : ¬ ∀ (p : Program) (id : ScopeId) (s : Scope), p.Reachable →
    p.scope? id = some s → s.isClosure = true → s.Faithful := by
  intro always
  have shape : (lateParameter.scope? ⟨2⟩).any (fun c => c.isClosure && !decide c.Faithful) = true := by
    decide +kernel
  obtain ⟨c, made, shape⟩ := (Option.any_eq_true _ _).1 shape
  rw [Bool.and_eq_true, Bool.not_eq_true', decide_eq_false_iff_not] at shape
  exact shape.2 (always lateParameter ⟨2⟩ c reachable_lateParameter made shape.1)

end Program

end ClosureIR
