import ClosureIR.Proofs.Ledger.Requests

/-!
# What answers show

A request is answered with names and temporaries that the writes made for it
hand out, and with them alone.
-/

namespace ClosureIR

open BuildM Relation

namespace Request

variable {α : Type} {p q : Program} {id : ScopeId} {m : List Issue}

/-- The scope that hands out what the answer shows. -/
def issuer? : Request α → Option ScopeId
  | newLabel id | newLabelWith id _ | newTemp id | newNamedTemp id _ | newFlip id | buildGraph id =>
    some id
  | prepare r _ => some r.host
  | _ => none

/-- The labels with the stem of the scope that an answer shows. -/
def labels : Request α → α → List Label
  | newLabel _, l => [l]
  | buildGraph _, g => (g.blocks.filter (·.isAnonymous)).map (·.label)
  | prepare r _, after => after.labels.values.drop r.labels.values.length
  | _, _ => []

def names : Request α → α → List String
  | newLabelWith _ _, l => [l.name]
  | newFlip _, v => [v.name]
  | r, a => (r.labels a).map (·.name)

def temps : Request α → α → List Temporary
  | newTemp _, t | newNamedTemp _ _, t => [t]
  | prepare r _, after => (after.vars.values.drop r.vars.values.length).filterMap fun
    | .ofTemp t => some t
    | .ofLocal _ => none
  | _, _ => []

/-- All that the answer shows was handed out by the scope that was asked. -/
structure Shown (r : Request α) (a : α) (m : List Issue) (q : Program) (id : ScopeId) : Prop where
  names : (r.names a).Sublist (m.filterMap (Issue.nameOf? id))
  labels : ((r.labels a).map (·.name)).Sublist (m.filterMap (q.labelOf? id))
  temps : (r.temps a).Sublist (m.filterMap (Issue.tempOf? id))

abbrev Answers (r : Request α) (p : Program) : Prop :=
  r.run.Yields p (fun a q => ∃ m, p.Writes m q ∧ ∀ id, r.issuer? = some id → r.Shown a m q id)
    fun _ q => p.Logs q

theorem shown_of_supplies {r : Request α} {a : α} (asked : r.issuer? = some id)
    (names : r.names a = (r.labels a).map (·.name))
    (supplies : p.Supplies id (r.labels a) (r.temps a) q) :
    ∃ m, p.Writes m q ∧ ∀ id, r.issuer? = some id → r.Shown a m q id := by
  obtain ⟨m, row, own, named, indexed⟩ := supplies
  refine ⟨m, row, fun issuer same => ?_⟩
  cases asked.symm.trans same
  constructor
  · rw [named, names]
  · rw [← named]
    apply filterMap_sublist_filterMap
    intro i member name shows
    rw [Program.labelOf?, if_pos (own i member), shows]
  · rw [indexed]

theorem shown_of_logs {r : Request α} {a : α} (silent : r.issuer? = none) (logs : p.Logs q) :
    ∃ m, p.Writes m q ∧ ∀ id, r.issuer? = some id → r.Shown a m q id := by
  obtain ⟨m, row⟩ := logs
  refine ⟨m, row, fun issuer same => ?_⟩
  rw [silent] at same
  cases same

/-- A single name with a stem of its own, and whatever was written after it. -/
theorem shown_of_name {r : Request α} {a : α} {stem : String} {n : Nat} {l : List Issue}
    (names : r.names a = [numbered stem n]) (labels : r.labels a = []) (temps : r.temps a = []) :
    r.Shown a (.name id stem n :: l) q id := by
  constructor
  · rw [names, List.filterMap_cons_some (Issue.nameOf?_name id stem n)]
    exact .cons_cons _ (List.nil_sublist _)
  · rw [labels]
    exact List.nil_sublist _
  · rw [temps]
    exact List.nil_sublist _

/-- What is declared has the name that was asked for. -/
theorem named_newLocal (id : ScopeId) (name : String) (depth : Nat) (p : Program) :
    (Program.newLocal id name depth).Yields p (fun v _ => v.name = name) fun _ _ => True := by
  open Program in
  refine yields_ask_bind.2 ⟨fun _ _ => yields_ask_bind.2 ⟨?_, fun _ _ => trivial⟩, fun _ _ => trivial⟩
  rintro ⟨site, kind⟩ walk
  obtain ⟨t, found, -⟩ := declares?_of_declarationSite walk
  exact yields_declare site found (fun _ _ => rfl) fun _ => trivial

theorem answers_newFlip (id : ScopeId) (p : Program) : (newFlip id).Answers p := by
  refine yields_ask_bind.2 ⟨fun s _ => ?_, fun _ _ => .refl p⟩
  split
  · refine yields_bind.2 (yields_mint (fun t name after found minted => ?_) (fun _ _ _ => .refl p)
      fun _ => .refl p)
    obtain ⟨-, spelt, -⟩ := Scope.mintName?_eq_some_iff.1 minted
    have written : p.Writes [.name id "%flip" (t.names.getD "%flip" 0)] (p.replace id after) :=
      .single (.name found minted)
    have declared := Program.changes_newLocal id (p.replace id after) name 0
    refine (declared.and (named_newLocal id name 0 _)).mono ?_ ?_
    · rintro v q ⟨changes, named⟩
      obtain ⟨l, row⟩ := Program.Changes.logs changes fun x => by simp
      refine ⟨_, written.trans row, fun issuer same => ?_⟩
      cases same
      exact shown_of_name (congrArg (List.cons · []) (named.trans spelt)) rfl rfl
    · exact fun _ q failed => .trans ⟨_, written⟩ (Program.Changes.logs failed.1 fun x => by simp)
  · exact .refl p

theorem answers_prepare (r : Renaming) (g : Graph) (p : Program) : (prepare r g).Answers p := by
  apply (Renaming.extended_coverAll g.mentions r p).mono ?_ fun _ _ logs => logs
  rintro after q ⟨-, ls, ts, named, indexed, supplies⟩
  have new : labels (prepare r g) after = ls := by simp [labels, named]
  have temporaries : temps (prepare r g) after = ts := by
    simp [temps, indexed, List.filterMap_map]
  exact shown_of_supplies rfl rfl (by rwa [new, temporaries])

/-- Every answer shows what was handed out for it. -/
theorem answers (r : Request α) (p : Program) : r.Answers p := by
  have changed (silent : r.issuer? = none) (makes : r.cloneHost? = none)
      (indexless : ∀ x, ¬ r.may p x .temporary) : r.Answers p :=
    (r.changes makes p).mono (fun _ _ changes => shown_of_logs silent (Program.Changes.logs changes indexless))
      fun _ _ changes => Program.Changes.logs changes indexless
  have copied {host : ScopeId} (silent : r.issuer? = none) (copies : r.cloneHost? = some host) :
      r.Answers p :=
    (r.logs_clones copies p).mono (fun _ _ row => shown_of_logs silent (Program.logs_of_row row))
      fun _ _ row => Program.logs_of_row row
  cases r with
  | newLabel id =>
    apply (Program.supplies_newLabel id p).mono
    · exact fun _ _ supplies => shown_of_supplies rfl rfl supplies
    · rintro _ _ rfl
      exact .refl _
  | newLabelWith id stem =>
    apply (Program.yields_newLabelWith id stem p).mono
    · rintro _ q ⟨n, rfl, write⟩
      refine ⟨_, .single write, fun issuer same => ?_⟩
      cases same
      exact shown_of_name rfl rfl rfl
    · rintro _ _ rfl
      exact .refl _
  | newTemp id =>
    apply (Program.supplies_newTemp id p).mono
    · exact fun _ _ supplies => shown_of_supplies rfl rfl supplies
    · rintro _ _ rfl
      exact .refl _
  | newNamedTemp id name =>
    apply (Program.supplies_newNamedTemp id name p).mono
    · exact fun _ _ supplies => shown_of_supplies rfl rfl supplies
    · rintro _ _ rfl
      exact .refl _
  | newFlip id => exact answers_newFlip id p
  | buildGraph id =>
    apply (Program.supplies_buildGraph id p).mono
    · exact fun _ _ supplies => shown_of_supplies rfl rfl supplies
    · exact fun _ _ logs => logs
  | prepare r g => exact answers_prepare r g p
  | cloneClosure | cloneUnder | cloneOperand | cloneGuard | cloneInstr | cloneGraph =>
    exact copied rfl rfl
  | _ => exact changed rfl rfl fun x => by simp [may]

end Request

end ClosureIR
