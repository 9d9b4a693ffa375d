import ClosureIR.Proofs.Ledger.Names
import ClosureIR.Proofs.Numbers

/-!
# Names inside one method

A method or script and the closures under it invent names from their numbers.
These numbers differ, and so do the names: the labels with the stems of the
scopes, and the temporaries that were given no name.
-/

namespace ClosureIR

open BuildM

theorem Scope.number_eq_of_tempTag {s t : Scope} (same : s.tempTag = t.tempTag) :
    s.closure.map (·.number) = t.closure.map (·.number) := by
  cases closed : s.closure <;> cases closed' : t.closure <;>
    simp_all [tempTag]

def Temporary.unnamedText? (t : Temporary) : Option String :=
  if t.isNamed then none else some t.text

namespace Program

variable {p q : Program} {l m : List Issue} {flat id id' : ScopeId} {s s' : Scope}

/-- Under one method or script the number tells the scope. -/
theorem Reachable.eq_of_number (reachable : p.Reachable) (nearest : p.nearestFlat id = .ok flat)
    (nearest' : p.nearestFlat id' = .ok flat) (found : p.scope? id = some s)
    (found' : p.scope? id' = some s')
    (same : s.closure.map (·.number) = s'.closure.map (·.number)) : id = id' := by
  cases closed : s.closure with
  | none =>
    -- Both are the method or script itself.
    have outermost {x : ScopeId} {u : Scope} (here : p.scope? x = some u) (bare : u.closure = none)
        (near : p.nearestFlat x = .ok flat) : x = flat := by
      have flatly : u.isClosure = false := by rw [← (reachable.wellFormed x u here).closure, bare]; rfl
      exact Except.ok.inj ((nearestFlat_of_flat here flatly).symm.trans near)
    have bare' : s'.closure = none := by simpa [closed] using same.symm
    rw [outermost found closed nearest, outermost found' bare' nearest']
  | some data =>
    rw [closed] at same
    obtain ⟨data', closed', number⟩ := Option.map_eq_some_iff.1 same.symm
    exact reachable.numbered.distinct flat data.number id id' ⟨nearest, s, data, found, closed, rfl⟩
      ⟨nearest', s', data', found', closed', number⟩

def labelUnder? (p : Program) (flat : ScopeId) : Issue → Option String
  | .name owner stem n =>
    if (p.nearestFlat owner).toOption = some flat ∧ p.Own (.name owner stem n) then
      some (numbered stem n)
    else none
  | .temp _ => none

def tempUnder? (p : Program) (flat : ScopeId) : Issue → Option String
  | .name _ _ _ => none
  | .temp t =>
    if (p.nearestFlat t.owner).toOption = some flat then
      (p.scope? t.owner).map fun s => Temporary.text { t with tag := s.tempTag }
    else none

theorem labelUnder?_name (nearest : p.nearestFlat id = .ok flat) {stem : String} {n : Nat}
    (own : p.Own (.name id stem n)) : p.labelUnder? flat (.name id stem n) = some (numbered stem n) :=
  if_pos ⟨by rw [nearest]; rfl, own⟩

theorem tempUnder?_temp {t : Temporary} (nearest : p.nearestFlat t.owner = .ok flat)
    (found : p.scope? t.owner = some s) :
    p.tempUnder? flat (.temp t) = some (Temporary.text { t with tag := s.tempTag }) := by
  rw [tempUnder?, if_pos (by rw [nearest]; rfl), found]
  rfl

theorem exists_of_labelUnder? {i : Issue} {name : String} (shows : p.labelUnder? flat i = some name) :
    ∃ id s n, i = .name id s.labelStem n ∧ name = numbered s.labelStem n ∧ p.scope? id = some s ∧
      p.nearestFlat id = .ok flat := by
  cases i with
  | name owner stem n =>
    simp only [labelUnder?, Option.ite_none_right_eq_some, Option.some.injEq] at shows
    obtain ⟨⟨nearest, own⟩, rfl⟩ := shows
    obtain ⟨s, found, rfl⟩ := Option.map_eq_some_iff.1 own
    exact ⟨owner, s, n, rfl, rfl, found, toOption_eq_some_iff.1 nearest⟩
  | temp t => cases shows

theorem exists_of_tempUnder? {i : Issue} {text : String} (shows : p.tempUnder? flat i = some text) :
    ∃ t s, i = .temp t ∧ text = Temporary.text { t with tag := s.tempTag } ∧
      p.scope? t.owner = some s ∧ p.nearestFlat t.owner = .ok flat := by
  cases i with
  | name owner stem n => cases shows
  | temp t =>
    simp only [tempUnder?, Option.ite_none_right_eq_some, Option.map_eq_some_iff] at shows
    obtain ⟨nearest, s, found, rfl⟩ := shows
    exact ⟨t, s, rfl, rfl, found, toOption_eq_some_iff.1 nearest⟩

theorem isNamed_tempTag (s : Scope) (owner : ScopeId) (index : Nat) :
    Temporary.isNamed ⟨owner, index, s.tempTag⟩ = false := by
  cases closed : s.closure <;> simp [Temporary.isNamed, Scope.tempTag, closed]

namespace Ledger

theorem nodup_labelUnder (ledger : p.Ledger l) (flat : ScopeId) :
    (l.filterMap (p.labelUnder? flat)).Nodup := by
  apply nodup_filterMap_of_forall (List.Nodup.of_map _ ledger.nodup_marks)
  intro i _ j _ name first second
  obtain ⟨id, s, n, rfl, spelt, found, nearest⟩ := exists_of_labelUnder? first
  obtain ⟨id', s', n', rfl, spelt', found', nearest'⟩ := exists_of_labelUnder? second
  obtain ⟨stems, rfl⟩ := numbered_eq_iff.1 (spelt.symm.trans spelt')
  have numbers := Scope.number_eq_of_labelStem stems
  rw [stems, ledger.reachable.eq_of_number nearest nearest' found found' numbers]

theorem nodup_tempUnder (ledger : p.Ledger l) (flat : ScopeId) :
    (l.filterMap (p.tempUnder? flat)).Nodup := by
  apply nodup_filterMap_of_forall (List.Nodup.of_map _ ledger.nodup_marks)
  intro i member j member' text first second
  obtain ⟨t, s, rfl, spelt, found, nearest⟩ := exists_of_tempUnder? first
  obtain ⟨u, s', rfl, spelt', found', nearest'⟩ := exists_of_tempUnder? second
  have texts := spelt.symm.trans spelt'
  obtain ⟨tags, index⟩ := Temporary.eq_of_text (isNamed_tempTag ..) (isNamed_tempTag ..) texts
  have owner := ledger.reachable.eq_of_number nearest nearest' found found'
    (Scope.number_eq_of_tempTag tags)
  -- One owner and one index are one entry, with whatever tag.
  apply List.inj_on_of_nodup_map ledger.nodup_marks member member'
  simp only [Issue.mark, owner]
  exact congrArg (fun n => (u.owner, Series.temporaries, n)) index

end Ledger

/-! ## What answers and clones show -/

theorem shown_labelUnder {α : Type} {r : Request α} {a : α} (shown : r.Shown a m q id)
    (nearest : q.nearestFlat id = .ok flat) :
    ((r.labels a).map (·.name)).Sublist (m.filterMap (q.labelUnder? flat)) := by
  apply shown.labels.trans (filterMap_sublist_filterMap ?_)
  intro i _ name shows
  simp only [labelOf?, Option.ite_none_right_eq_some] at shows
  obtain ⟨own, named⟩ := shows
  obtain ⟨stem, n, rfl, rfl⟩ := Issue.exists_of_nameOf? named
  exact labelUnder?_name nearest own

theorem shown_tempUnder {α : Type} {r : Request α} {a : α} (shown : r.Shown a m q id)
    (row : p.Writes m q) (nearest : q.nearestFlat id = .ok flat) :
    ((r.temps a).filterMap Temporary.unnamedText?).Sublist (m.filterMap (q.tempUnder? flat)) := by
  apply (shown.temps.filterMap _).trans
  rw [List.filterMap_filterMap]
  apply filterMap_sublist_filterMap
  intro i member text shows
  obtain ⟨t, mine, written⟩ := Option.bind_eq_some_iff.1 shows
  cases i with
  | name owner stem n => cases mine
  | temp u =>
    simp only [Issue.tempOf?, Option.ite_none_right_eq_some, Option.some.injEq] at mine
    obtain ⟨rfl, rfl⟩ := mine
    simp only [Temporary.unnamedText?, Option.ite_none_left_eq_some, Option.some.injEq] at written
    obtain ⟨unnamed, rfl⟩ := written
    obtain ⟨s, found, own | named⟩ := row.tagged member
    · have same : ({ u with tag := s.tempTag } : Temporary) = u := by rw [← own]
      rw [tempUnder?_temp nearest found, same]
    · exact absurd named unnamed

/-- The names in the graph of a clone are all its own, and it has no others. -/
theorem IsClone.own_of_mention {parent source : ScopeId} {owner : ScopeId → ScopeId} {c : Scope}
    {g : Graph} (cloned : q.IsClone parent owner source id) (found : q.scope? id = some c)
    (graph : c.graph = some g) :
    (∀ label, .label label ∈ g.mentions → ∃ n < c.ownLabels, label = c.ownLabel n) ∧
      ∀ t, .temp t ∈ g.mentions → ∃ n < c.temporaries, ∃ u, t = ⟨id, n, c.copyTag u⟩ := by
  cases cloned with
  | intro there made newer copyable owners cloned nested =>
    obtain ⟨g₀, g', d, d', body, -⟩ := cloned.body
    cases found.symm.trans made
    cases graph.symm.trans body.graph
    constructor
    · intro label member
      rw [body.copied.mentions] at member
      obtain ⟨k, before, same⟩ := List.mem_map.1 member
      cases k with
      | label l =>
        cases same
        exact body.fresh.label_minted l before
      | temp t => cases same
    · intro t member
      rw [body.copied.mentions] at member
      obtain ⟨k, before, same⟩ := List.mem_map.1 member
      cases k with
      | label l => cases same
      | temp u =>
        cases same
        obtain ⟨n, small, minted⟩ := body.fresh.temp_minted u before
        exact ⟨n, small, u, minted⟩

theorem tempTag_of_unnamed {c : Scope} {u : Temporary} {n : Nat}
    (unnamed : Temporary.isNamed ⟨id, n, c.copyTag u⟩ = false) : c.copyTag u = c.tempTag := by
  rcases u with ⟨owner, index, tag⟩
  cases tag with
  | named name => cases unnamed
  | scope | closure => rfl

/-- A scope with a graph that a request has added is a clone. -/
theorem WellFormed.exists_isClone {α : Type} {r : Request α} {host : ScopeId} (formed : p.WellFormed)
    (copies : r.cloneHost? = some host) (new : p.scope? id = none) {c : Scope} {g : Graph}
    (found : (p.after r.run).scope? id = some c) (graph : c.graph = some g) :
    ∃ parent owner source, (p.after r.run).IsClone parent owner source id := by
  have beyond : p.scopes.size ≤ id.index := by
    apply Nat.le_of_not_lt
    intro inside
    obtain ⟨s, there⟩ := exists_scope? inside
    cases new.symm.trans there
  obtain same | ⟨flat, nearest, cloning⟩ := formed.clonesUnder (r.clones copies p).after
  · rw [after, same, new] at found
    cases found
  · exact cloning.traced (formed.hosts nearest) id c beyond found (by simp [graph])

namespace Ledger

/-- The names in the graphs of new clones were handed out for the request. -/
theorem clone_shows {α : Type} (ledger : p.Ledger l) (r : Request α) {host : ScopeId}
    (more : (p.after r.run).Ledger (l ++ m)) (copies : r.cloneHost? = some host)
    (new : p.scope? id = none) {c : Scope} {g : Graph} (found : (p.after r.run).scope? id = some c)
    (graph : c.graph = some g) (nearest : (p.after r.run).nearestFlat id = .ok flat) :
    (∀ label, .label label ∈ g.mentions →
      label.name ∈ m.filterMap ((p.after r.run).labelUnder? flat)) ∧
    ∀ t, .temp t ∈ g.mentions → t.isNamed = false →
      t.text ∈ m.filterMap ((p.after r.run).tempUnder? flat) := by
  obtain ⟨parent, owner, source, cloned⟩ :=
    ledger.reachable.wellFormed.exists_isClone copies new found graph
  obtain ⟨labels, temps⟩ := cloned.own_of_mention found graph
  constructor
  · intro label member
    obtain ⟨n, small, rfl⟩ := labels label member
    have handed := ledger.mem_marks_of_new more new (k := .names c.labelStem) (n := n) (by
      rw [used_of_scope? found]
      exact small)
    refine List.mem_filterMap.2 ⟨_, Issue.mem_marks_iff_name.1 handed, ?_⟩
    exact labelUnder?_name nearest (Option.map_eq_some_iff.2 ⟨c, found, rfl⟩)
  · intro t member unnamed
    obtain ⟨n, small, u, rfl⟩ := temps t member
    have handed := ledger.mem_marks_of_new more new (k := .temporaries) (n := n) (by
      rw [used_of_scope? found]
      exact small)
    obtain ⟨tag, inside⟩ := Issue.mem_marks_iff_temp.1 handed
    refine List.mem_filterMap.2 ⟨_, inside, ?_⟩
    rw [tempUnder?_temp nearest found, tempTag_of_unnamed unnamed]

/--
Over all scopes under one method or script, no label with the stem of its scope
comes twice, and no two temporaries are written alike unless they were given
names.  Among what a request adds are all such labels and temporaries that its
answer shows, and those in the graphs of the closures that it clones.
-/
theorem defaults_nodup (ledger : p.Ledger l) :
    (∀ flat, (l.filterMap (p.labelUnder? flat)).Nodup ∧ (l.filterMap (p.tempUnder? flat)).Nodup) ∧
    ∀ {α : Type} (r : Request α), ∃ m, (p.after r.run).Ledger (l ++ m) ∧
      (∀ a id flat, (r.run.runOn p).1 = .ok a → r.issuer? = some id →
        (p.after r.run).nearestFlat id = .ok flat →
        ((r.labels a).map (·.name)).Sublist (m.filterMap ((p.after r.run).labelUnder? flat)) ∧
        ((r.temps a).filterMap Temporary.unnamedText?).Sublist
          (m.filterMap ((p.after r.run).tempUnder? flat))) ∧
      ∀ id c g flat, r.cloneHost?.isSome = true → p.scope? id = none →
        (p.after r.run).scope? id = some c → c.graph = some g →
        (p.after r.run).nearestFlat id = .ok flat →
        (∀ label, .label label ∈ g.mentions →
          label.name ∈ m.filterMap ((p.after r.run).labelUnder? flat)) ∧
        ∀ t, .temp t ∈ g.mentions → t.isNamed = false →
          t.text ∈ m.filterMap ((p.after r.run).tempUnder? flat) := by
  refine ⟨fun flat => ⟨ledger.nodup_labelUnder flat, ledger.nodup_tempUnder flat⟩, fun r => ?_⟩
  obtain ⟨m, row, more, shown⟩ := ledger.exists_answer r
  refine ⟨m, more, fun a id flat done asked nearest => ?_, ?_⟩
  · have here := shown a id done asked
    exact ⟨shown_labelUnder here nearest, shown_tempUnder here row nearest⟩
  · intro id c g flat copies new found graph nearest
    obtain ⟨host, copies⟩ := Option.isSome_iff_exists.1 copies
    exact ledger.clone_shows r more copies new found graph nearest

end Ledger

def clonedLoop : Program := loopInClosure.after (cloneClosure ⟨1⟩ ⟨0⟩)

theorem defaults_clonedLoop : ∃ l, clonedLoop.Ledger l ∧
    (l.filterMap (clonedLoop.labelUnder? ⟨0⟩)).Nodup ∧
    "CL1_LBL_0" ∈ l.filterMap (clonedLoop.labelUnder? ⟨0⟩) ∧
    "CL3_LBL_0" ∈ l.filterMap (clonedLoop.labelUnder? ⟨0⟩) ∧
    ∃ m, (clonedLoop.after (newTemp ⟨3⟩)).Ledger (l ++ m) ∧
      ["%cl_3_0"].Sublist (m.filterMap ((clonedLoop.after (newTemp ⟨3⟩)).tempUnder? ⟨0⟩)) := by
  have reachable : clonedLoop.Reachable := reachable_loopInClosure.step (.cloneClosure ⟨1⟩ ⟨0⟩)
  obtain ⟨l, ledger⟩ := reachable.exists_ledger
  obtain ⟨distinct, goesOn⟩ := ledger.defaults_nodup
  have first := ledger.mem_marks_iff ⟨1⟩ (.names "CL1_LBL") 0
  have cloned := ledger.mem_marks_iff ⟨3⟩ (.names "CL3_LBL") 0
  have next : ((newTemp ⟨3⟩).runOn clonedLoop).1 = .ok ⟨⟨3⟩, 0, .closure 3⟩ := by decide +kernel
  have nearest : (clonedLoop.after (newTemp ⟨3⟩)).nearestFlat ⟨3⟩ = .ok ⟨0⟩ := by decide +kernel
  obtain ⟨m, more, shown, -⟩ := goesOn (.newTemp ⟨3⟩)
  refine ⟨l, ledger, (distinct ⟨0⟩).1, ?_, ?_, m, more, (shown _ _ _ next rfl nearest).2⟩
  · have handed := Issue.mem_marks_iff_name.1 (first.2 (by decide +kernel))
    exact List.mem_filterMap.2 ⟨_, handed, by decide +kernel⟩
  · have handed := Issue.mem_marks_iff_name.1 (cloned.2 (by decide +kernel))
    exact List.mem_filterMap.2 ⟨_, handed, by decide +kernel⟩

end Program

end ClosureIR
