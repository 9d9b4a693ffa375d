import ClosureIR.Proofs.Clone.Ends
import ClosureIR.Proofs.Ledger.Answers
import Mathlib.Data.List.Nodup

/-!
# No name twice

A ledger has all that the scopes of a program have handed out, request by
request, since the program was empty.  Every request adds to it, also one that
fails.  No scope is in it with one name twice, whatever stems were asked for,
and the two ends of a closure have different names in it.
-/

namespace ClosureIR

open BuildM

/-! ## The two ends of a closure -/

namespace Scope

variable {s c : Scope} {data : ClosureData} {id parent : ScopeId} {m : NameMap}
  {sub : ScopeId → ScopeId → Prop}

theorem nodup_ends_iff (closed : s.closure = some data) :
    s.ends.Nodup ↔ data.startLabel ≠ data.endLabel := by
  rw [ends, closed]
  simp

theorem nodup_ends_of_flat (flat : s.closure = none) : s.ends.Nodup := by
  rw [ends, flat]
  exact List.nodup_nil

theorem nodup_ends_of_map {t : Scope} {f : ClosureData → ClosureData}
    (mapped : t.closure = s.closure.map f) (start : ∀ data, (f data).startLabel = data.startLabel)
    (last : ∀ data, (f data).endLabel = data.endLabel) (distinct : s.ends.Nodup) : t.ends.Nodup := by
  rw [ends_eq_map, mapped, Option.map_map]
  rw [ends_eq_map] at distinct
  simpa only [Function.comp_def, start, last] using distinct

/-- The first two names that follow a stem differ. -/
theorem numbered_start_ne_end (stem : String) :
    numbered (stem ++ "START") 0 ≠ numbered (stem ++ "END") 0 := by
  rw [Ne, numbered_eq_iff, String.append_right_inj]
  decide

theorem nodup_ends_of_new {stem : String} (closed : s.closure = some data)
    (start : data.startLabel = ⟨numbered (stem ++ "START") 0⟩)
    (last : data.endLabel = ⟨numbered (stem ++ "END") 0⟩) : s.ends.Nodup := by
  rw [nodup_ends_iff closed, start, last]
  exact fun same => numbered_start_ne_end stem (Label.mk.inj same)

/-- An end that the graph mentions has its copy in the clone, and the other a new name. -/
theorem ClonedAs.nodup_ends (cloned : s.ClonedAs c parent id m sub) (distinct : s.ends.Nodup) :
    c.ends.Nodup := by
  obtain ⟨g, g', d, d', body, closed, closed', copied⟩ := cloned.body
  have apart := (nodup_ends_iff closed).1 distinct
  rw [nodup_ends_iff closed', copied.startLabel, copied.endLabel]
  by_cases start : .label d.startLabel ∈ g.mentions <;> by_cases last : .label d.endLabel ∈ g.mentions
  · rw [if_pos start, if_pos last]
    exact fun same => apart (body.fresh.label_injective _ _ start last same)
  · rw [if_pos start, if_neg last]
    exact body.label_ne_numbered start 0 (by simp)
  · rw [if_neg start, if_pos last]
    exact (body.label_ne_numbered last 0 (by simp)).symm
  · rw [if_neg start, if_neg last]
    exact fun same => numbered_start_ne_end (c.name ++ "_") (Label.mk.inj same)

theorem invariant_nodup_ends : Invariant fun _ _ s => s.ends.Nodup where
  script _ _ _ := nodup_ends_of_flat rfl
  method _ _ _ _ _ _ _ := nodup_ends_of_flat rfl
  block _ _ _ _ _ _ _ _ _ _ := nodup_ends_of_new rfl rfl rfl
  evalUnit _ _ _ _ _ _ _ _ _ := nodup_ends_of_new rfl rfl rfl
  counters _ _ _ holds := holds
  declare _ _ _ holds _ _ := holds
  append _ holds := nodup_ends_of_map rfl (fun _ => rfl) (fun _ => rfl) holds
  graph holds _ := holds
  inline holds := nodup_ends_of_map rfl (fun _ => rfl) (fun _ => rfl) holds
  parameters _ holds := nodup_ends_of_map rfl (fun _ => rfl) (fun _ => rfl) holds
  shell _ _ _ _ _ := nodup_ends_of_new rfl rfl rfl
  clone holds _ cloned := cloned.nodup_ends holds

end Scope

namespace Program

/-- All that was handed out before `p` was reached, by requests of all outcomes. -/
inductive Ledger : Program → List Issue → Prop where
  | start (options : Options) : Ledger { options } []
  | answer {α : Type} {p : Program} {l m : List Issue} (before : Ledger p l) (r : Request α)
      (row : p.Writes m (p.after r.run)) : Ledger (p.after r.run) (l ++ m)

variable {p : Program} {l : List Issue} {α : Type}

namespace Ledger

theorem reachable (ledger : p.Ledger l) : p.Reachable := by
  induction ledger with
  | start options => exact .start options
  | answer before r row ih => exact ih.step r

theorem exists_writes (ledger : p.Ledger l) : ∃ options, Writes { options } l p := by
  induction ledger with
  | start options => exact ⟨options, .refl⟩
  | answer before r row ih =>
    obtain ⟨options, earlier⟩ := ih
    exact ⟨options, earlier.trans row⟩

/-- The ledger has just the numbers that the counters have passed. -/
theorem mem_marks_iff (ledger : p.Ledger l) (id : ScopeId) (k : Series) (n : Nat) :
    (id, k, n) ∈ l.map Issue.mark ↔ n < p.used id k := by
  obtain ⟨options, row⟩ := ledger.exists_writes
  have none : used { options } id k = 0 := by simp [used, scope?]
  rw [row.hands.mem_iff, none]
  simp

theorem nodup_marks (ledger : p.Ledger l) : (l.map Issue.mark).Nodup := by
  obtain ⟨options, row⟩ := ledger.exists_writes
  exact row.hands.distinct

theorem labelled (ledger : p.Ledger l) : p.Labelled := by
  obtain ⟨options, row⟩ := ledger.exists_writes
  apply row.labelled
  intro id s found
  simp [scope?] at found

/-- Every request goes on with the ledger. -/
theorem exists_answer (ledger : p.Ledger l) (r : Request α) :
    ∃ m, p.Writes m (p.after r.run) ∧ (p.after r.run).Ledger (l ++ m) ∧
      ∀ a id, (r.run.runOn p).1 = .ok a → r.issuer? = some id → r.Shown a m (p.after r.run) id := by
  have answers := r.answers p
  cases run : r.run.runOn p with
  | mk outcome q =>
    have left : p.after r.run = q := congrArg Prod.snd run
    rw [left]
    cases outcome with
    | ok a =>
      obtain ⟨m, row, shown⟩ := answers.of_ok run
      refine ⟨m, row, left ▸ .answer ledger r (left.symm ▸ row), fun b id same asked => ?_⟩
      cases same
      exact shown id asked
    | error fault =>
      obtain ⟨m, row⟩ := answers.of_error run
      refine ⟨m, row, left ▸ .answer ledger r (left.symm ▸ row), fun b id same => ?_⟩
      cases same

/-- What a scope that was not there before has handed out was handed out for the request. -/
theorem mem_marks_of_new {m : List Issue} (ledger : p.Ledger l) {q : Program} (more : q.Ledger (l ++ m))
    {id : ScopeId} {k : Series} {n : Nat} (new : p.scope? id = none) (below : n < q.used id k) :
    (id, k, n) ∈ m.map Issue.mark := by
  have member := (more.mem_marks_iff id k n).2 below
  rw [List.map_append, List.mem_append, ledger.mem_marks_iff, used, new] at member
  exact member.resolve_left (Nat.not_lt_zero _)

theorem nodup_ends (ledger : p.Ledger l) {id : ScopeId} {s : Scope} (found : p.scope? id = some s) :
    (s.ends.map (·.name)).Nodup := by
  have distinct := ledger.reachable.everywhere Scope.invariant_nodup_ends id s found
  exact List.Nodup.map (fun _ _ same => congrArg Label.mk same) distinct

/--
No scope ever hands out one name twice.  The ledger has just the names that the
counters have counted; it goes on with every request, and in what it goes on with
are all names that an answer shows, and the first and the last label of every
closure that was made or cloned, which are always two.
-/
theorem names_nodup (ledger : p.Ledger l) :
    (∀ id, (l.filterMap (Issue.nameOf? id)).Nodup) ∧
    (∀ id s, p.scope? id = some s → (s.ends.map (·.name)).Nodup ∧
      ∀ stem n, .name id stem n ∈ l ↔ n < s.names.getD stem 0) ∧
    ∀ {α : Type} (r : Request α), ∃ m, (p.after r.run).Ledger (l ++ m) ∧
      (∀ a id, (r.run.runOn p).1 = .ok a → r.issuer? = some id →
        (r.names a).Sublist (m.filterMap (Issue.nameOf? id))) ∧
      ∀ id s, p.scope? id = none → (p.after r.run).scope? id = some s →
        (s.ends.map (·.name)).Nodup ∧
          ∀ label ∈ s.ends, label.name ∈ m.filterMap (Issue.nameOf? id) := by
  refine ⟨fun id => ?_, fun id s found => ⟨ledger.nodup_ends found, fun stem n => ?_⟩, fun r => ?_⟩
  · apply nodup_filterMap_of_forall (List.Nodup.of_map _ ledger.nodup_marks)
    intro i _ j _ name first second
    obtain ⟨stem, n, rfl, spelt⟩ := Issue.exists_of_nameOf? first
    obtain ⟨stem', n', rfl, spelt'⟩ := Issue.exists_of_nameOf? second
    obtain ⟨rfl, rfl⟩ := numbered_eq_iff.1 (spelt.symm.trans spelt')
    rfl
  · rw [← Issue.mem_marks_iff_name, ledger.mem_marks_iff, used_of_scope? found]
    rfl
  · obtain ⟨m, row, more, shown⟩ := ledger.exists_answer r
    refine ⟨m, more, fun a id done asked => (shown a id done asked).names, ?_⟩
    intro id s new found
    refine ⟨more.nodup_ends found, fun label member => ?_⟩
    obtain ⟨stem, n, below, spelt⟩ := more.labelled id s found label member
    rw [← used_of_scope? found] at below
    have handed := Issue.mem_marks_iff_name.1 (ledger.mem_marks_of_new more new below)
    rw [List.mem_filterMap, spelt]
    exact ⟨_, handed, Issue.nameOf?_name id stem n⟩

end Ledger

/-- All programs that are reached have a ledger. -/
theorem Reachable.exists_ledger (reachable : p.Reachable) : ∃ l, p.Ledger l := by
  induction reachable with
  | start options => exact ⟨[], .start options⟩
  | step before r ih =>
    obtain ⟨l, ledger⟩ := ih
    obtain ⟨m, -, more, -⟩ := ledger.exists_answer r
    exact ⟨l ++ m, more⟩

/--
A script that asks for stems that look like names, builds a graph in vain, and
has a flip-flop and a closure that goes back to its start.
-/
def askedForNames : Program :=
  ({} : Program)
    |>.after (newScript "main.rb")
    |>.after (newLabelWith ⟨0⟩ "LBL_1")
    |>.after (newLabel ⟨0⟩)
    |>.after (newLabel ⟨0⟩)
    |>.after (addInstr ⟨0⟩ (.jump ⟨"NOWHERE"⟩))
    |>.after (buildGraph ⟨0⟩)
    |>.after (newFlip ⟨0⟩)
    |>.after (newClosure ⟨0⟩ false 1 none {})
    |>.after (addInstr ⟨1⟩ (.label ⟨"_CLOSURE_START_0"⟩))
    |>.after (addInstr ⟨1⟩ (.jump ⟨"_CLOSURE_START_0"⟩))
    |>.after (buildGraph ⟨1⟩)

theorem reachable_askedForNames : askedForNames.Reachable :=
  Reachable.start {}
    |>.step (.newScript "main.rb")
    |>.step (.newLabelWith ⟨0⟩ "LBL_1")
    |>.step (.newLabel ⟨0⟩)
    |>.step (.newLabel ⟨0⟩)
    |>.step (.addInstr ⟨0⟩ (.jump ⟨"NOWHERE"⟩))
    |>.step (.buildGraph ⟨0⟩)
    |>.step (.newFlip ⟨0⟩)
    |>.step (.newClosure ⟨0⟩ false 1 none {})
    |>.step (.addInstr ⟨1⟩ (.label ⟨"_CLOSURE_START_0"⟩))
    |>.step (.addInstr ⟨1⟩ (.jump ⟨"_CLOSURE_START_0"⟩))
    |>.step (.buildGraph ⟨1⟩)

/--
The labels `LBL_2` to `LBL_4` went to the graph that was not built.  A clone of
the closure has a copy of its start and an end of its own.
-/
theorem names_askedForNames : ∃ l, askedForNames.Ledger l ∧
    (l.filterMap (Issue.nameOf? ⟨0⟩)).Nodup ∧ .name ⟨0⟩ "LBL_1" 0 ∈ l ∧ .name ⟨0⟩ "LBL" 1 ∈ l ∧
    .name ⟨0⟩ "LBL" 4 ∈ l ∧ .name ⟨0⟩ "%flip" 0 ∈ l ∧
    (∃ m, (askedForNames.after (newLabel ⟨0⟩)).Ledger (l ++ m) ∧
      ["LBL_5"].Sublist (m.filterMap (Issue.nameOf? ⟨0⟩))) ∧
    ∃ m c, (askedForNames.after (cloneClosure ⟨1⟩ ⟨0⟩)).Ledger (l ++ m) ∧
      (askedForNames.after (cloneClosure ⟨1⟩ ⟨0⟩)).scope? ⟨2⟩ = some c ∧
      c.ends.map (·.name) = ["CL2_LBL_1", "_CLOSURE_CLONE_2_END_0"] ∧
      (c.ends.map (·.name)).Nodup ∧ ∀ label ∈ c.ends, label.name ∈ m.filterMap (Issue.nameOf? ⟨2⟩) := by
  have shape : (askedForNames.scope? ⟨0⟩).any (fun s => decide (s.names.getD "LBL_1" 0 = 1 ∧
      s.names.getD "LBL" 0 = 5 ∧ s.names.getD "%flip" 0 = 1)) = true := by decide +kernel
  obtain ⟨s, found, counters⟩ := (Option.any_eq_true _ _).1 shape
  obtain ⟨chosen, own, flips⟩ := of_decide_eq_true counters
  have next : ((newLabel ⟨0⟩).runOn askedForNames).1 = .ok ⟨"LBL_5"⟩ := by decide +kernel
  have cloned : ((askedForNames.after (cloneClosure ⟨1⟩ ⟨0⟩)).scope? ⟨2⟩).any (fun c =>
      decide (c.ends.map (·.name) = ["CL2_LBL_1", "_CLOSURE_CLONE_2_END_0"])) = true := by
    decide +kernel
  obtain ⟨c, made, spelt⟩ := (Option.any_eq_true _ _).1 cloned
  obtain ⟨l, ledger⟩ := reachable_askedForNames.exists_ledger
  obtain ⟨distinct, counted, goesOn⟩ := ledger.names_nodup
  have counts := (counted ⟨0⟩ s found).2
  obtain ⟨m, more, shown, -⟩ := goesOn (.newLabel ⟨0⟩)
  obtain ⟨m', more', -, ends⟩ := goesOn (.cloneClosure ⟨1⟩ ⟨0⟩)
  refine ⟨l, ledger, distinct ⟨0⟩, ?_, ?_, ?_, ?_, ⟨m, more, shown _ _ next rfl⟩,
    m', c, more', made, of_decide_eq_true spelt, ends ⟨2⟩ c (by decide +kernel) made⟩
  · exact (counts "LBL_1" 0).2 (by rw [chosen]; decide)
  · exact (counts "LBL" 1).2 (by rw [own]; decide)
  · exact (counts "LBL" 4).2 (by rw [own]; decide)
  · exact (counts "%flip" 0).2 (by rw [flips]; decide)

end Program

end ClosureIR
