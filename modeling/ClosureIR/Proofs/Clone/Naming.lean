import ClosureIR.Proofs.Clone.Result
import ClosureIR.Proofs.Naming

/-!
# The names of the slots of clones

A clone has the slots of its source under the same names.  The locals in it
that were renamed to it, or to a clone around it, keep their slots and have
the names that these belong to.
-/

namespace ClosureIR

open BuildM

namespace Naming

variable {N N' : Naming} {p q : Program} {owner : ScopeId → ScopeId}

def Keeps (N : Naming) (p : Program) (N' : Naming) : Prop :=
  ∀ id, id.index < p.scopes.size → N' id = N id

theorem Keeps.le (keeps : N.Keeps p N') (named : p.Named N) : N.Le N' := by
  intro id n name has
  obtain ⟨s, found, -⟩ := named.below id n name has
  rw [keeps id (Program.lt_size_of_scope? found)]
  exact has

def Moves (N : Naming) (p : Program) (owner : ScopeId → ScopeId) : Prop :=
  ∀ id, owner id = id ∨
    (id.index < p.scopes.size ∧ (owner id).index < p.scopes.size ∧ N (owner id) = N id)

theorem Moves.eq (moves : N.Moves p owner) (id : ScopeId) : N (owner id) = N id := by
  obtain same | ⟨-, -, same⟩ := moves id
  · rw [same]
  · exact same

theorem Moves.keep (moves : N.Moves p owner) (keeps : N.Keeps p N')
    (grows : p.scopes.size ≤ q.scopes.size) : N'.Moves q owner := by
  intro id
  obtain same | ⟨inside, inside', same⟩ := moves id
  · exact .inl same
  · refine .inr ⟨Nat.lt_of_lt_of_le inside grows, Nat.lt_of_lt_of_le inside' grows, ?_⟩
    rw [keeps id inside, keeps (owner id) inside', same]

end Naming

/-- A copy of named instructions is named, as the locals moved with their slots. -/
theorem Scope.Named.copied {N : Naming} {source clone : ScopeId} {s : Scope} {g g' : Graph}
    {m : NameMap} {sub : ScopeId → ScopeId → Prop}
    (named : s.Named N source) (graph : s.graph = some g) (copied : g.Copied m sub clone g')
    (same : ∀ id, N (m.owner id) = N id) {i : Instr} {v : LocalVar} (member : i ∈ g'.instrs)
    (mentions : .ofLocal v ∈ i.vars) : N.Has v := by
  have renamed : .ofLocal v ∈ g'.instrs.flatMap (·.vars) := List.mem_flatMap.2 ⟨i, member, mentions⟩
  rw [copied.vars, List.mem_map] at renamed
  obtain ⟨u, inside, renames⟩ := renamed
  obtain ⟨j, member', mentions'⟩ := List.mem_flatMap.1 inside
  cases u with
  | ofTemp t => cases renames
  | ofLocal u =>
    cases renames
    have has := named.code j u (.inr ⟨g, graph, member'⟩) mentions'
    rw [Naming.Has, same]
    exact has

namespace Program

/--
When scopes are sent by `owner` to scopes whose slots have the same names, the
slots that are new in `q` can be given names in line with all others.
-/
def Carries (owner : ScopeId → ScopeId) (p q : Program) : Prop :=
  p.scopes.size ≤ q.scopes.size ∧ ∀ N : Naming, p.Named N → N.Moves p owner →
    ∃ N', N.Keeps p N' ∧ q.Named N'

variable {p q t : Program} {flat source id clone : ScopeId} {r child : Renaming} {s c : Scope}
  {data : ClosureData} {g : Graph} {owner : ScopeId → ScopeId} {N : Naming}

theorem Carries.refl (owner : ScopeId → ScopeId) (p : Program) : p.Carries owner p :=
  ⟨Nat.le_refl _, fun N named _ => ⟨N, fun _ _ => rfl, named⟩⟩

theorem Carries.trans (first : p.Carries owner q) (second : q.Carries owner t) :
    p.Carries owner t := by
  refine ⟨Nat.le_trans first.1 second.1, fun N named moves => ?_⟩
  obtain ⟨N', keeps, named'⟩ := first.2 N named moves
  obtain ⟨N'', keeps', named''⟩ := second.2 N' named' (moves.keep keeps first.1)
  refine ⟨N'', fun id inside => ?_, named''⟩
  rw [keeps' id (Nat.lt_of_lt_of_le inside first.1), keeps id inside]

/-! ## The shell -/

theorem keeps_update (N : Naming) (p : Program) (slots : Nat → Option String) :
    N.Keeps p (Function.update N p.nextId slots) := by
  intro id inside
  rw [Function.update_of_ne]
  rintro rfl
  exact Nat.lt_irrefl _ inside

/-- The old scopes stay named while clones are added. -/
theorem Named.grown (named : p.Named N) (grown : p.Grown flat q) {s : Scope}
    (inside : id.index < p.scopes.size) (found : q.scope? id = some s) : s.Named N id := by
  obtain ⟨t, there⟩ := exists_scope? inside
  have here := named.scopes id t there
  cases (grown.old id t there).symm.trans found
  split <;> exact ⟨here.table, here.code⟩

/-- And the named slots stay below the counters of their tables. -/
theorem Named.below_grown (named : p.Named N) (grown : p.Grown flat q) {n : Nat} {name : String}
    (has : N id n = some name) : ∃ u, q.scope? id = some u ∧ n < u.locals.nextSlot := by
  obtain ⟨u, there, below⟩ := named.below id n name has
  refine ⟨_, grown.old id u there, ?_⟩
  split <;> exact below

/-- A shell that has the table of its source has its slots under the same names. -/
theorem Named.scope_shell (named : p.Named N) (found : p.scope? source = some s)
    (slots : c.locals = s.locals.reowned id) (bare : c.graph = none) (empty : c.instrs = []) :
    c.Named (Function.update N id (N source)) id where
  table name v bound := by
    rw [slots, LocalTable.get?_reowned, Option.map_eq_some_iff] at bound
    obtain ⟨w, before, rfl⟩ := bound
    obtain ⟨rfl, has⟩ := (named.scopes source s found).table name w before
    refine ⟨rfl, ?_⟩
    rw [Naming.Has, Function.update_self]
    exact has
  code i v contains _ := by
    obtain member | ⟨g, drawn, -⟩ := contains
    · rw [empty] at member
      cases member
    · cases bare.symm.trans drawn

/-- A new shell has the slots of its source. -/
theorem Named.shell (named : p.Named N) (grown : p.Grown flat q) (begins : p.Begins q s)
    (found : p.scope? source = some s) (made : q.scope? p.nextId = some c) :
    q.Named (Function.update N p.nextId (N source)) := by
  obtain ⟨-, data, parent, number, _, _, rfl⟩ := begins p.nextId c (Nat.le_refl _) made
  have le := (keeps_update N p (N source)).le named
  constructor
  case scopes =>
    intro x u there
    rcases Nat.lt_or_ge x.index p.scopes.size with inside | beyond
    · exact (named.grown grown inside there).mono le
    · obtain ⟨rfl, -⟩ := begins x u beyond there
      cases made.symm.trans there
      exact named.scope_shell found rfl rfl rfl
  case below =>
    intro x n name has
    by_cases here : x = p.nextId
    · subst here
      rw [Function.update_self] at has
      obtain ⟨u, there, below⟩ := named.below source n name has
      cases found.symm.trans there
      exact ⟨_, made, below⟩
    · rw [Function.update_of_ne here] at has
      exact named.below_grown grown has

/-- A clone that was given up before its body has added no more than a shell. -/
theorem Begins.carries (begins : p.Begins q s) (grown : p.Grown flat q)
    (found : p.scope? source = some s) : p.Carries owner q := by
  refine ⟨grown.size_le, fun N named _ => ?_⟩
  cases made : q.scope? p.nextId with
  | some c => exact ⟨_, keeps_update N p _, named.shell grown begins found made⟩
  | none =>
    refine ⟨N, fun _ _ => rfl, fun x u there => ?_, fun x n name has => named.below_grown grown has⟩
    rcases Nat.lt_or_ge x.index p.scopes.size with inside | beyond
    · exact named.grown grown inside there
    · obtain ⟨rfl, -⟩ := begins x u beyond there
      cases made.symm.trans there

/-! ## The body -/

namespace Opened

/-- The names of slots in all the scopes that were added while the body was copied. -/
theorem exists_naming (opened : Opened p q flat source clone r child s c data g)
    (step : q.Carries child.names.owner t) (named : p.Named N) (moves : N.Moves p r.names.owner) :
    ∃ N', N.Keeps p N' ∧ t.Named N' ∧ ∀ id, N' (child.names.owner id) = N' id := by
  have grown := opened.cloning.grown opened.hosts
  have made := opened.made
  rw [opened.place] at made
  have shell := named.shell grown opened.begins opened.found made
  have keeps := keeps_update N p (N source)
  -- The source is sent to the shell, which has its slots; all others go where they went before.
  have moves' : Naming.Moves (Function.update N p.nextId (N source)) q child.names.owner := by
    intro id
    rw [opened.owners]
    by_cases here : id = source
    · subst here
      have inside := lt_size_of_scope? opened.found
      rw [Function.update_self, opened.place, Function.update_self]
      refine .inr ⟨Nat.lt_of_lt_of_le inside grown.size_le, lt_size_of_scope? made, ?_⟩
      exact (keeps id inside).symm
    · rw [Function.update_of_ne here]
      exact moves.keep keeps grown.size_le id
  obtain ⟨N', keeps', named'⟩ := step.2 _ shell moves'
  refine ⟨N', fun id inside => ?_, named', (moves'.keep keeps' step.1).eq⟩
  rw [keeps' id (Nat.lt_of_lt_of_le inside grown.size_le), keeps id inside]

theorem carries (opened : Opened p q flat source clone r child s c data g)
    (step : q.Carries child.names.owner t) : p.Carries r.names.owner t := by
  refine ⟨Nat.le_trans opened.cloning.size_le step.1, fun N named moves => ?_⟩
  obtain ⟨N', keeps, named', -⟩ := opened.exists_naming step named moves
  exact ⟨N', keeps, named'⟩

/-- Also with the body filled in. -/
theorem carries_filled (opened : Opened p q flat source clone r child s c data g)
    (cloning : q.Cloning flat t) (step : q.Carries child.names.owner t) {body : Graph}
    {sub : ScopeId → ScopeId → Prop} (copied : g.Copied child.names sub clone body)
    (args : List Operand) :
    p.Carries r.names.owner (t.replace clone (c.withBody data child body args)) := by
  have sizes := Nat.le_trans opened.cloning.size_le step.1
  refine ⟨by rwa [size_replace], fun N named moves => ?_⟩
  obtain ⟨N', keeps, named', same⟩ := opened.exists_naming step named moves
  have there := opened.shell_kept cloning
  have body : (c.withBody data child body args).Named N' clone := by
    refine ⟨(named'.scopes clone c there).table, fun i v contains mentions => ?_⟩
    have member : i ∈ body.instrs := by
      obtain member | ⟨h, drawn, member⟩ := contains
      · exact member
      · cases drawn
        exact member
    have source := named'.scopes source s (opened.source_kept cloning)
    exact source.copied opened.graph copied same member mentions
  exact ⟨N', keeps, named'.replace (.refl N') there body (Nat.le_refl _) fun _ _ _ has => .inl has⟩

end Opened

/-! ## Runs of the cloner -/

def CarriesNested (nested : Renaming → ScopeId → BuildM ScopeId) : Prop :=
  ∀ (r : Renaming) (x flat : ScopeId) (q : Program), q.Hosts flat →
    q.nearestFlat r.host = .ok flat → (nested r x).Leaves q (q.Carries r.names.owner)

theorem carriesNested_cloneStep {fuel : Nat} {nested : Renaming → ScopeId → BuildM ScopeId}
    (clones : ClonesNested fuel nested) (carries : CarriesNested nested) :
    CarriesNested (cloneStep nested) := by
  intro r source flat p hosts nearest
  refine yields_required hosts.formed (fun s data g found live closed graph => ?_)
    fun _ _ => .refl _ p
  refine yields_opened hosts nearest found closed live graph (fun clone child c q opened => ?_)
    fun q cloning begins => begins.carries (cloning.grown hosts) found
  have nests := (opened.nests clones).and (Carries.refl child.names.owner) Carries.trans
    fun t since x => by
      have hosts' := opened.cloning.hosts hosts
      refine carries child x flat t (since.hosts hosts') ?_
      rw [opened.host]
      exact (since.grown hosts').outlines.nearestFlat opened.nearest
  have agrees := opened.prepared.agrees
  have args : s.blockArgs = data.blockArgs := by rw [Scope.blockArgs, closed]
  refine yields_bind.2 ((Graph.renamed_leads nests agrees clone g q (nests.refl q)).mono ?_ ?_)
  · rintro body t ⟨⟨cloning, step⟩, copied, -⟩
    refine yields_bind.2 ((Operand.yields_renamedAll_parameters agrees (fun _ _ => True)
      data.blockArgs (args ▸ (hosts.formed _ _ found).blockArgs)).mono ?_ ?_)
    · rintro passed _ ⟨rfl, -⟩
      refine yields_bind.2 (yields_ask_bind.2 ⟨fun c' there => ?_, fun _ _ => opened.carries step⟩)
      cases (opened.shell_kept cloning).symm.trans (scope_eq_ok_iff.1 there)
      exact opened.carries_filled cloning step copied passed
    · rintro fault _ ⟨rfl, -⟩
      exact opened.carries step
  · rintro fault t ⟨⟨-, step⟩, -⟩
    exact opened.carries step

theorem carriesNested_cloneWithin (fuel : Nat) : CarriesNested (cloneWithin fuel) := by
  induction fuel with
  | zero => exact fun _ _ _ q _ _ => .refl _ q
  | succ fuel ih => exact carriesNested_cloneStep (clonesNested_cloneWithin fuel) ih

/-- Clones in a parent, finished or not, have slots with names. -/
theorem WellFormed.exists_naming_cloneClosure (formed : p.WellFormed) (source parent : ScopeId)
    (named : p.Named N) :
    ∃ N', N.Keeps p N' ∧ (p.after (cloneClosure source parent)).Named N' := by
  cases missing : p.scope? parent with
  | none =>
    rw [cloneClosure, formed.after_of_missing (r := .under parent) missing]
    exact ⟨N, fun _ _ => rfl, named⟩
  | some host =>
    obtain ⟨flat, nearest⟩ := formed.exists_nearestFlat (lt_size_of_scope? missing)
    have carries := carriesNested_cloneWithin (p.scopes.size + 1) (.under parent) source flat p
      (formed.hosts nearest) nearest
    have left : (cloneClosure source parent).Leaves p (p.Carries (Renaming.under parent).names.owner) :=
      yields_bind.2 carries
    exact left.after.2 N named fun id => .inl rfl

end Program

end ClosureIR
