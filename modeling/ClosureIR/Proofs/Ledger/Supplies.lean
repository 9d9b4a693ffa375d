import ClosureIR.Proofs.Flow.Edges
import ClosureIR.Proofs.Ledger.Writes

/-!
# Names and temporaries that operations give out

Labels and temporaries that an operation returns are those that its writes hand
out, in the same order.  Where the caller has no say in their stem, it is that of
the scope.
-/

namespace ClosureIR

open BuildM Relation

namespace Issue

def nameOf? (id : ScopeId) : Issue → Option String
  | .name owner stem n => if owner = id then some (numbered stem n) else none
  | .temp _ => none

def tempOf? (id : ScopeId) : Issue → Option Temporary
  | .name _ _ _ => none
  | .temp t => if t.owner = id then some t else none

@[simp] theorem nameOf?_name (id : ScopeId) (stem : String) (n : Nat) :
    nameOf? id (.name id stem n) = some (numbered stem n) := if_pos rfl

@[simp] theorem nameOf?_temp (id : ScopeId) (t : Temporary) : nameOf? id (.temp t) = none := rfl

@[simp] theorem tempOf?_name (id owner : ScopeId) (stem : String) (n : Nat) :
    tempOf? id (.name owner stem n) = none := rfl

@[simp] theorem tempOf?_temp (t : Temporary) : tempOf? t.owner (.temp t) = some t := if_pos rfl

theorem exists_of_nameOf? {id : ScopeId} {i : Issue} {name : String} (named : nameOf? id i = some name) :
    ∃ stem n, i = .name id stem n ∧ name = numbered stem n := by
  cases i with
  | name owner stem n =>
    simp only [nameOf?, Option.ite_none_right_eq_some, Option.some.injEq] at named
    obtain ⟨rfl, rfl⟩ := named
    exact ⟨stem, n, rfl, rfl⟩
  | temp t => cases named

end Issue

namespace Program

variable {p q t : Program} {id : ScopeId} {l m : List Issue} {labels : List Label}
  {temps : List Temporary}

def Logs (p q : Program) : Prop := ∃ l, p.Writes l q

theorem Logs.refl (p : Program) : p.Logs p := ⟨[], .refl⟩

theorem Logs.trans (first : p.Logs q) (second : q.Logs t) : p.Logs t := by
  obtain ⟨l, row⟩ := first
  obtain ⟨m, row'⟩ := second
  exact ⟨l ++ m, row.trans row'⟩

theorem logs_of_row (row : ReflTransGen Logs p q) : p.Logs q := by
  induction row with
  | refl => exact .refl _
  | tail _ last ih => exact ih.trans last

/-- The issue is no name with another stem than that of its owner. -/
def Own (p : Program) : Issue → Prop
  | .name owner stem _ => (p.scope? owner).map (·.labelStem) = some stem
  | .temp _ => True

instance (p : Program) (i : Issue) : Decidable (p.Own i) :=
  match i with
  | .name owner stem _ => inferInstanceAs (Decidable ((p.scope? owner).map (·.labelStem) = some stem))
  | .temp _ => inferInstanceAs (Decidable True)

theorem Own.keep {i : Issue} (own : p.Own i) (renumbers : p.Renumbers q) : q.Own i := by
  cases i with
  | name owner stem n =>
    obtain ⟨s, found, same⟩ := Option.map_eq_some_iff.1 own
    obtain ⟨t, there, number⟩ := renumbers owner s found
    exact Option.map_eq_some_iff.2 ⟨t, there, (Scope.labelStem_eq_of_number number).trans same⟩
  | temp t => trivial

def labelOf? (p : Program) (id : ScopeId) (i : Issue) : Option String :=
  if p.Own i then i.nameOf? id else none

/--
From `p` to `q` the scope `id` has handed out the labels, all with its own stem,
and the temporaries, and no other scope has handed out a name with another stem
than its own.
-/
def Supplies (p : Program) (id : ScopeId) (labels : List Label) (temps : List Temporary)
    (q : Program) : Prop :=
  ∃ m, p.Writes m q ∧ (∀ i ∈ m, q.Own i) ∧
    m.filterMap (Issue.nameOf? id) = labels.map (·.name) ∧ m.filterMap (Issue.tempOf? id) = temps

namespace Supplies

theorem nothing (p : Program) (id : ScopeId) : p.Supplies id [] [] p :=
  ⟨[], .refl, by simp, rfl, rfl⟩

theorem silent (write : p.Write [] q) (id : ScopeId) : p.Supplies id [] [] q :=
  ⟨[], .single write, by simp, rfl, rfl⟩

theorem trans {labels' : List Label} {temps' : List Temporary} (first : p.Supplies id labels temps q)
    (second : q.Supplies id labels' temps' t) :
    p.Supplies id (labels ++ labels') (temps ++ temps') t := by
  obtain ⟨l, row, own, names, indexed⟩ := first
  obtain ⟨m, row', own', names', indexed'⟩ := second
  refine ⟨l ++ m, row.trans row', fun i member => ?_, ?_, ?_⟩
  · rcases List.mem_append.1 member with early | late
    · exact (own i early).keep row'.renumbers
    · exact own' i late
  · rw [List.filterMap_append, names, names', List.map_append]
  · rw [List.filterMap_append, indexed, indexed']

theorem logs (supplies : p.Supplies id labels temps q) : p.Logs q := by
  obtain ⟨m, row, -⟩ := supplies
  exact ⟨m, row⟩

/-- Labels that were supplied are names that the scope has handed out, then and later. -/
theorem issued (supplies : p.Supplies id labels temps q) (later : q.Logs t) {label : Label}
    (member : label ∈ labels) {s : Scope} (found : t.scope? id = some s) : s.Issued label.name := by
  obtain ⟨m, row, -, names, -⟩ := supplies
  obtain ⟨l, row'⟩ := later
  have named : label.name ∈ m.filterMap (Issue.nameOf? id) :=
    names ▸ List.mem_map.2 ⟨label, member, rfl⟩
  obtain ⟨i, inside, shown⟩ := List.mem_filterMap.1 named
  obtain ⟨stem, n, rfl, spelt⟩ := Issue.exists_of_nameOf? shown
  have below := ((row.hands.mem_iff id (.names stem) n).1 (List.mem_map.2 ⟨_, inside, rfl⟩)).2
  have kept := row'.hands.le id (.names stem)
  rw [used_of_scope? found] at kept
  exact ⟨stem, n, Nat.lt_of_lt_of_le below kept, spelt⟩

end Supplies

/-! ## Labels and temporaries -/

theorem yields_newLabelWith (id : ScopeId) (stem : String) (p : Program) :
    (newLabelWith id stem).Yields p
      (fun label q => ∃ n, label = ⟨numbered stem n⟩ ∧ p.Write [.name id stem n] q)
      fun _ q => q = p := by
  refine yields_ask_bind.2 ⟨fun _ _ => yields_bind.2 ?_, fun _ _ => rfl⟩
  refine yields_mint (fun s name after found minted => ?_) (fun _ _ _ => rfl) fun _ => rfl
  have spelt := (Scope.mintName?_eq_some_iff.1 minted).2.1
  exact ⟨_, congrArg Label.mk spelt, .name found minted⟩

theorem supplies_newLabel (id : ScopeId) (p : Program) :
    (newLabel id).Yields p (fun label q => p.Supplies id [label] [] q) fun _ q => q = p := by
  refine yields_ask_bind.2 ⟨fun s found => ?_, fun _ _ => rfl⟩
  rw [scope_eq_ok_iff] at found
  apply (yields_newLabelWith id s.labelStem p).mono ?_ fun _ _ same => same
  rintro _ q ⟨n, rfl, write⟩
  refine ⟨_, .single write, fun i member => ?_, by simp, by simp⟩
  cases List.mem_singleton.1 member
  exact Own.keep (Option.map_eq_some_iff.2 ⟨s, found, rfl⟩) write.renumbers

theorem supplies_newLabels (id : ScopeId) (n : Nat) (p : Program) :
    (newLabels id n).Yields p (fun labels q => labels.length = n ∧ p.Supplies id labels [] q)
      fun _ q => p.Logs q := by
  induction n generalizing p with
  | zero => exact ⟨rfl, .nothing p id⟩
  | succ n ih =>
    refine yields_bind.2 ((supplies_newLabel id p).mono (fun label q first => ?_) ?_)
    · refine yields_bind.2 ((ih q).mono ?_ fun _ _ more => first.logs.trans more)
      rintro labels t ⟨length, rest⟩
      exact ⟨congrArg (· + 1) length, first.trans rest⟩
    · rintro _ _ rfl
      exact .refl _

/-- A temporary is handed out with the tag that the scope, or else the caller, gives it. -/
theorem supplies_mintTempIndex (id : ScopeId) (p : Program) (tag : Scope → TempTag)
    (tagged : ∀ s, tag s = s.tempTag ∨ ∃ given, tag s = .named given) :
    (do
      let s ← requireLive id
      let index ← mint id (·.mintTempIndex?)
      return ⟨id, index, tag s⟩ : BuildM Temporary).Yields p
        (fun v q => p.Supplies id [] [v] q) fun _ q => q = p := by
  refine yields_ask_bind.2 ⟨fun s alive => yields_bind.2 ?_, fun _ _ => rfl⟩
  have found := (liveScope_eq_ok_iff.1 alive).1
  refine yields_mint (fun t index after there minted => ?_) (fun _ _ _ => rfl) fun _ => rfl
  cases found.symm.trans there
  refine ⟨_, .single (.temporary found minted (tagged s)), fun i member => ?_, by simp, ?_⟩
  · cases List.mem_singleton.1 member
    trivial
  · exact List.filterMap_cons_some (Issue.tempOf?_temp ⟨id, index, tag s⟩)

theorem supplies_newTemp (id : ScopeId) (p : Program) :
    (newTemp id).Yields p (fun v q => p.Supplies id [] [v] q) fun _ q => q = p :=
  supplies_mintTempIndex id p (·.tempTag) fun _ => .inl rfl

theorem supplies_newNamedTemp (id : ScopeId) (name : String) (p : Program) :
    (newNamedTemp id name).Yields p (fun v q => p.Supplies id [] [v] q) fun _ q => q = p :=
  supplies_mintTempIndex id p (fun _ => .named name) fun _ => .inr ⟨name, rfl⟩

/-! ## Graphs -/

/-- A graph that is built shows all labels that were handed out for it. -/
theorem supplies_buildGraph (id : ScopeId) (p : Program) :
    (buildGraph id).Yields p
      (fun g q => p.Supplies id ((g.blocks.filter (·.isAnonymous)).map (·.label)) [] q)
      fun _ q => p.Logs q := by
  refine yields_ask_bind.2 ⟨fun s _ => ?_, fun _ _ => .refl p⟩
  refine yields_bind.2 ((supplies_newLabels id (Graph.labelsNeeded s.instrs) p).mono ?_
    fun _ _ logs => logs)
  rintro labels q ⟨length, supplies⟩
  refine yields_bind.2 (yields_ofRefusal.2 ⟨fun g built => ?_, fun _ _ => supplies.logs⟩)
  refine yields_bind.2 (yields_ask_bind.2 ⟨fun t found => ?_, fun _ _ => supplies.logs⟩)
  have blocks : (g.blocks.filter (·.isAnonymous)).map (·.label) = labels := by
    rw [Graph.blocks_of_build built, Graph.anonymous_layout, ← length]
    apply List.ext_getElem
    · simp
    · intro n _ inside
      simp [List.getD, inside]
  rw [yields_store, yields_pure, blocks]
  have kept : t.Keeps { t with graph := some g } := ⟨rfl, rfl, rfl, fun _ member => .inl member⟩
  have stored := Supplies.silent (.other (scope_eq_ok_iff.1 found) kept) id
  simpa using supplies.trans stored

end Program

/-! ## Renamings -/

namespace Renaming

open Program

variable {p : Program}

theorem supplies_freshTemp (host : ScopeId) (t : Temporary) (p : Program) :
    (freshTemp host t).Yields p (fun v q => p.Supplies host [] [v] q) fun _ q => q = p := by
  unfold freshTemp
  split
  · exact supplies_newNamedTemp host _ p
  · exact supplies_newTemp host p
  · exact supplies_newTemp host p

/-- The renaming `after` has names more than `r`, which its host has handed out from `p` to `q`. -/
def Extended (r : Renaming) (p : Program) (after : Renaming) (q : Program) : Prop :=
  after.host = r.host ∧ ∃ labels temps, after.labels.values = r.labels.values ++ labels ∧
    after.vars.values = r.vars.values ++ temps.map .ofTemp ∧ p.Supplies r.host labels temps q

theorem Extended.refl (r : Renaming) (p : Program) : r.Extended p r p :=
  ⟨rfl, [], [], by simp, by simp, .nothing p r.host⟩

theorem Extended.trans {r next last : Renaming} {q t : Program} (first : r.Extended p next q)
    (second : next.Extended q last t) : r.Extended p last t := by
  obtain ⟨host, labels, temps, named, indexed, supplies⟩ := first
  obtain ⟨host', labels', temps', named', indexed', supplies'⟩ := second
  rw [host] at host' supplies'
  refine ⟨host', labels ++ labels', temps ++ temps', ?_, ?_, supplies.trans supplies'⟩
  · rw [named', named, List.append_assoc]
  · rw [indexed', indexed, List.map_append, List.append_assoc]

theorem Extended.logs {r after : Renaming} {q : Program} (extended : r.Extended p after q) :
    p.Logs q := by
  obtain ⟨-, labels, temps, -, -, supplies⟩ := extended
  exact supplies.logs

theorem extended_cover (r : Renaming) (n : Mention) (p : Program) :
    (r.cover n).Yields p (fun after q => r.Extended p after q) fun _ q => q = p := by
  cases n with
  | label l =>
    by_cases known : r.labels.contains l = true
    · rw [cover, if_pos known]
      exact .refl r p
    · rw [cover, if_neg known]
      refine yields_bind.2 ((supplies_newLabel r.host p).mono (fun fresh q supplies => ?_)
        fun _ _ same => same)
      have new : r.labels.get? l = none := by simpa [Dict.contains] using known
      exact ⟨rfl, [fresh], [], Dict.values_insert new fresh, by simp [withLabel], supplies⟩
  | temp t =>
    by_cases known : r.vars.contains (.ofTemp t) = true
    · rw [cover, if_pos known]
      exact .refl r p
    · rw [cover, if_neg known]
      refine yields_bind.2 ((supplies_freshTemp r.host t p).mono (fun fresh q supplies => ?_)
        fun _ _ same => same)
      have new : r.vars.get? (.ofTemp t) = none := by simpa [Dict.contains] using known
      exact ⟨rfl, [], [fresh], by simp [withVariable], Dict.values_insert new (.ofTemp fresh),
        supplies⟩

/-- A preparation puts into the renaming what its host hands out for it. -/
theorem extended_coverAll (ns : List Mention) (r : Renaming) (p : Program) :
    (r.coverAll ns).Yields p (fun after q => r.Extended p after q) fun _ q => p.Logs q := by
  induction ns generalizing r p with
  | nil => exact .refl r p
  | cons n rest ih =>
    refine yields_bind.2 ((extended_cover r n p).mono (fun next q first => ?_) ?_)
    · exact (ih next q).mono (fun _ _ more => first.trans more) fun _ _ more => first.logs.trans more
    · rintro _ _ rfl
      exact .refl _

end Renaming

end ClosureIR
