import ClosureIR.Proofs.Identity
import ClosureIR.Proofs.Lexical.Chain

/-!
# Recorded depths

A new closure records the depth under its parent, while a clone takes over what
its source has recorded.  The record of a clone is right when its parent is as
deep as its source says, and those of the closures cloned with it are when every
closure that is met lies in the closure that holds it.  Cloning is therefore
also done with checks of just that: in a run in which the checks change nothing,
all records are right.
-/

namespace ClosureIR

open BuildM Relation

/-! ## What a scope keeps -/

namespace Scope

structure Stays (s t : Scope) : Prop where
  kind : t.kind = s.kind
  parent : t.parent = s.parent
  depth : t.closure.map (·.nestingDepth) = s.closure.map (·.nestingDepth)

variable {s t : Scope}

theorem stays_of_core (same : t.core = s.core) : s.Stays t :=
  ⟨kind_eq_of_core same, parent_eq_of_core same, closure_map_eq_of_core (fun _ => rfl) same⟩

theorem lasting_stays : Lasting Stays where
  refl _ := ⟨rfl, rfl, rfl⟩
  trans first second := ⟨second.kind.trans first.kind, second.parent.trans first.parent,
    second.depth.trans first.depth⟩
  edit edited := stays_of_core edited.core_eq
  counted _ _ := ⟨rfl, rfl, rfl⟩

theorem Stays.exists_closure {data : ClosureData} (stays : s.Stays t) (closed : t.closure = some data) :
    ∃ before, s.closure = some before ∧ before.nestingDepth = data.nestingDepth := by
  have depth := stays.depth
  rw [closed, Option.map_some, eq_comm, Option.map_eq_some_iff] at depth
  exact depth

/-- Filling in the body of a clone leaves it where it is. -/
theorem stays_withBody (c : Scope) (source : ClosureData) (r : Renaming) (g : Graph)
    (blockArgs : List Operand) : c.Stays (c.withBody source r g blockArgs) where
  kind := rfl
  parent := rfl
  depth := by cases closed : c.closure <;> simp [withBody, withClosure, closed]

end Scope

namespace Program

variable {p q t : Program} {id flat x : ScopeId} {s c : Scope} {may : ScopeId → Deed → Prop}

abbrev Settles (p q : Program) : Prop := p.Tracks Scope.Stays q

theorem Settles.outlines (settles : p.Settles q) : p.Outlines q := by
  intro id s found
  obtain ⟨t, there, stays⟩ := settles id s found
  exact ⟨t, there, stays.kind, stays.parent⟩

theorem settles_replace (found : p.scope? id = some s) (stays : s.Stays c) :
    p.Settles (p.replace id c) := by
  intro x u there
  rw [scope?_replace]
  split
  · rename_i here
    cases found.symm.trans (here ▸ there)
    exact ⟨c, by rw [found]; rfl, stays⟩
  · exact ⟨u, there, Scope.lasting_stays.refl u⟩

/-- The depth that the closure `data` at place `id` has recorded is that under its parent. -/
structure Records (p : Program) (id : ScopeId) (s : Scope) (data : ClosureData) : Prop where
  isClosure : s.isClosure = true
  parent : ∃ parent, s.parent = some parent ∧ parent.index < id.index ∧
    p.depthUnder parent = .ok data.nestingDepth

theorem inside_of_depthUnder {depth : Nat} (deep : p.depthUnder id = .ok depth) :
    id.index < p.scopes.size := by
  cases found : p.scope? id with
  | none =>
    rw [Program.depthUnder, scope_eq_error_iff.2 ⟨found, rfl⟩] at deep
    cases deep
  | some s => exact lt_size_of_scope? found

def RecordsDepths (p : Program) : Prop :=
  ∀ id s data, p.scope? id = some s → s.closure = some data → p.Records id s data

/-- How deep something lies in a closure that has recorded its own depth. -/
theorem Records.depthUnder {data : ClosureData} (records : p.Records id s data)
    (found : p.scope? id = some s) :
    p.depthUnder id = .ok (if s.isForLoopBody then data.nestingDepth else data.nestingDepth + 1) := by
  obtain ⟨isClosure, parent, lies, older, deep⟩ := records
  exact depthUnder_of_closure found isClosure lies older deep

/-- A scope that stays where it is keeps a right record. -/
theorem Records.stays {before data : ClosureData} (records : p.Records id s before)
    (settles : p.Settles q) (stays : s.Stays c) (same : before.nestingDepth = data.nestingDepth) :
    q.Records id c data := by
  obtain ⟨isClosure, parent, lies, older, deep⟩ := records
  refine ⟨by rwa [Scope.isClosure, stays.kind], parent, stays.parent.trans lies, older, ?_⟩
  rw [← same]
  exact settles.outlines.depthUnder deep

namespace RecordsDepths

theorem start (options : Options) : RecordsDepths { options } := by
  intro id s data found
  simp [scope?] at found

/-- Records stay right where scopes stay where they are. -/
theorem replace (records : p.RecordsDepths) (found : p.scope? id = some s) (stays : s.Stays c) :
    (p.replace id c).RecordsDepths := by
  have settles := settles_replace found stays
  intro x u data there closed
  obtain ⟨rfl, rfl⟩ | there := scope?_replace_cases there
  · obtain ⟨before, closed', same⟩ := stays.exists_closure closed
    exact (records _ s before found closed').stays settles stays same
  · exact (records x u data there closed).stays settles (Scope.lasting_stays.refl u) rfl

/-- They are right when a new closure records the depth under its parent. -/
theorem push (records : p.RecordsDepths)
    (recorded : ∀ data, s.closure = some data → s.isClosure = true ∧ ∃ parent, s.parent = some parent ∧
      parent.index < p.scopes.size ∧ p.depthUnder parent = .ok data.nestingDepth) :
    (p.push s).RecordsDepths := by
  have settles : p.Settles (p.push s) := .push Scope.lasting_stays p s
  intro x u data there closed
  obtain ⟨rfl, rfl⟩ | there := scope?_push_cases there
  · obtain ⟨isClosure, parent, lies, inside, deep⟩ := recorded data closed
    exact ⟨isClosure, parent, lies, inside, settles.outlines.depthUnder deep⟩
  · exact (records x u data there closed).stays settles (Scope.lasting_stays.refl u) rfl

/-- Every elementary change keeps records right: new closures record the depth under their parent. -/
theorem change (records : p.RecordsDepths) (change : p.Change may q) : q.RecordsDepths := by
  cases change with
  | edit found edited => exact records.replace found (Scope.lasting_stays.edit edited)
  | script fileName => exact records.push fun data closed => by cases closed
  | method found name line static => exact records.push fun data closed => by cases closed
  | @block parent flat around outer after number depth found nearest host minted deep forLoop =>
    have edited : outer.Edit flat .number after := .number minted
    refine (records.replace host (Scope.lasting_stays.edit edited)).push ?_
    rintro data ⟨⟩
    refine ⟨by cases forLoop <;> rfl, parent, rfl, ?_, deep⟩
    rw [size_replace]
    exact lt_size_of_scope? found
  | @evalUnit parent flat outer after number depth nearest host minted deep =>
    have edited : outer.Edit flat .number after := .number minted
    refine (records.replace host (Scope.lasting_stays.edit edited)).push ?_
    rintro data ⟨⟩
    refine ⟨rfl, parent, rfl, ?_, deep⟩
    rw [size_replace]
    exact inside_of_nearestFlat nearest

theorem changes (records : p.RecordsDepths) (changes : p.Changes may q) : q.RecordsDepths := by
  induction changes with
  | refl => exact records
  | tail _ last ih => exact ih.change last

end RecordsDepths

/-! ## Cloning with checks -/

/-- The closure `source`, if it can be cloned at all, has recorded the depth under `host`. -/
def Fits (p : Program) (host source : ScopeId) : Bool :=
  match p.depthUnder host with
  | .ok depth => (p.scope? source).all fun s =>
      s.isInlined || s.graph.isNone || s.closure.all fun data => data.nestingDepth = depth
  | .error _ => true

def LiesIn (p : Program) (holder x : ScopeId) : Bool :=
  (p.scope? x).all fun s => s.closure.isNone || s.parent = some holder

/-- Go on if the program is as it should be, and else fail as no operation on a program fails. -/
def demand (holds : Program → Bool) : BuildM Unit :=
  ask fun p => if holds p then .ok () else .error (.orphan "")

/-- Clone a closure; every closure met in it has to lie in the one that holds it. -/
def cloneCheckedWithin : Nat → Renaming → ScopeId → BuildM ScopeId
  | 0, _, source => misuse (.selfNested source)
  | fuel + 1, r, source => cloneStep (fun child x => do
      demand (·.LiesIn source x)
      cloneCheckedWithin fuel child x) r source

/-- Clone a closure as `cloneUnder` does; its parent has to be as deep as the closure has recorded. -/
def cloneChecked (r : Renaming) (source : ScopeId) : BuildM ScopeId := do
  demand (·.Fits r.host source)
  cloneCheckedWithin ((← get).scopes.size + 1) r source

/-! ## The checks keep records right -/

/-- Where records are right the operation leaves them right, and scopes stay where they are. -/
def Keeps {α : Type} (op : BuildM α) (p : Program) : Prop :=
  p.RecordsDepths → op.Leaves p fun q => q.RecordsDepths ∧ p.Settles q

section Keeps

variable {α β : Type} {op : BuildM α} {next : α → BuildM β}

theorem Keeps.of_changes (changes : op.Leaves p (p.Changes may)) : Keeps op p :=
  fun records => changes.weaken fun _ changes =>
    ⟨records.changes changes, .of_changes Scope.lasting_stays changes⟩

theorem keeps_pure (a : α) : Keeps (pure a) p := fun records => ⟨records, .refl Scope.lasting_stays p⟩

theorem keeps_ofMisuse (e : Except Misuse α) : Keeps (ofMisuse e) p := fun records =>
  yields_ofMisuse.2 ⟨fun _ _ => ⟨records, .refl Scope.lasting_stays p⟩,
    fun _ _ => ⟨records, .refl Scope.lasting_stays p⟩⟩

theorem Keeps.bind (first : Keeps op p) (others : ∀ a q, p.Settles q → Keeps (next a) q) :
    Keeps (op >>= next) p := by
  intro records
  refine yields_bind.2 ((first records).mono ?_ fun _ _ done => done)
  rintro a q ⟨records, settles⟩
  refine Leaves.weaken (others a q settles records) ?_
  exact fun u ⟨records, more⟩ => ⟨records, settles.trans Scope.lasting_stays more⟩

theorem keeps_demand {holds : Program → Bool} {next : Unit → BuildM β}
    (others : holds p = true → Keeps (next ()) p) : Keeps (demand holds >>= next) p := by
  intro records
  refine yields_ask_bind.2 ⟨fun _ passed => ?_, fun _ _ => ⟨records, .refl Scope.lasting_stays p⟩⟩
  split at passed
  · rename_i held
    exact others held records
  · cases passed

theorem keeps_adjust {f : Scope → Scope} (stays : ∀ s : Scope, s.Stays (f s)) :
    Keeps (adjust id f) p := by
  intro records
  refine yields_ask_bind.2 ⟨fun s there => ?_, fun _ _ => ⟨records, .refl Scope.lasting_stays p⟩⟩
  have found := scope_eq_ok_iff.1 there
  exact ⟨records.replace found (stays s), settles_replace found (stays s)⟩

/-- Copying keeps records in all that may become of a program if cloning does. -/
theorem sequential_keeps (base : Program) :
    Sequential fun op op' => op' = op ∧ ∀ p, base.Settles p → Keeps op p :=
  sequential_of_bind (P := fun op => ∀ p, base.Settles p → Keeps op p)
    (fun _ _ _ => keeps_pure _) (fun _ _ _ _ => keeps_ofMisuse _) (fun _ _ _ _ => keeps_ofMisuse _)
    fun first others p settles => (first p settles).bind fun a q more =>
      others a q (settles.trans Scope.lasting_stays more)

end Keeps

def Level (p : Program) (x y : ScopeId) : Prop :=
  ∃ depth, p.depthUnder x = .ok depth ∧ p.depthUnder y = .ok depth

theorem Level.settles {x y : ScopeId} (level : p.Level x y) (settles : p.Settles q) : q.Level x y := by
  obtain ⟨depth, deep, deep'⟩ := level
  exact ⟨depth, settles.outlines.depthUnder deep, settles.outlines.depthUnder deep'⟩

/-- A closure that lies in one scope fits under every scope that is as deep as that one. -/
theorem Level.fits {holder host : ScopeId} (level : p.Level holder host) (records : p.RecordsDepths)
    (lies : p.LiesIn holder x) : p.Fits host x := by
  obtain ⟨depth, deep, deep'⟩ := level
  rw [Fits, deep']
  cases found : p.scope? x with
  | none => rfl
  | some s =>
    cases closed : s.closure with
    | none => simp [closed]
    | some data =>
      obtain ⟨-, parent, lies', -, above⟩ := records x s data found closed
      have here : s.parent = some holder := by simpa [LiesIn, found, closed] using lies
      cases here.symm.trans lies'
      cases deep.symm.trans above
      simp [closed]

/-- A shell in a scope as deep as the source has recorded is as deep as the source. -/
theorem RecordsDepths.shell {data : ClosureData} {source host : ScopeId} (records : p.RecordsDepths)
    (isClosure : s.isClosure = true)
    (deep : p.depthUnder source =
      .ok (if s.isForLoopBody then data.nestingDepth else data.nestingDepth + 1))
    (around : p.depthUnder host = .ok data.nestingDepth) (number : Nat) :
    (p.push (s.cloneShell data host number p.nextId)).RecordsDepths ∧
      (p.push (s.cloneShell data host number p.nextId)).Level source p.nextId := by
  have outlines := outlines_push p (s.cloneShell data host number p.nextId)
  have there := scope?_push_nextId p (s.cloneShell data host number p.nextId)
  have pushed : (p.push (s.cloneShell data host number p.nextId)).RecordsDepths := by
    refine records.push ?_
    rintro _ ⟨⟩
    exact ⟨isClosure, host, rfl, inside_of_depthUnder around, around⟩
  exact ⟨pushed, _, outlines.depthUnder deep, (pushed _ _ _ there rfl).depthUnder there⟩

/-- A way up to a method or script has a depth. -/
theorem exists_depthUnder_of_nearestFlat (nearest : p.nearestFlat id = .ok flat) :
    ∃ depth, p.depthUnder id = .ok depth := by
  induction h : id.index using Nat.strongRecOn generalizing id with
  | ind n ih =>
    obtain ⟨s, found, ⟨outer, rfl⟩ | ⟨closed, parent, lies, older, rest⟩⟩ := nearestFlat_cases nearest
    · exact ⟨1, depthUnder_of_flat found outer⟩
    · obtain ⟨depth, above⟩ := ih parent.index (h ▸ older) rest rfl
      exact ⟨_, depthUnder_of_closure found closed lies older above⟩

variable {source : ScopeId} {r : Renaming}

/-- The body of a clone is copied into a shell that lies as deep as the source. -/
theorem keeps_copy {nested : Renaming → ScopeId → BuildM ScopeId} {clone : ScopeId}
    (clones : ∀ (child : Renaming) (x : ScopeId) (t : Program), t.Level source child.host →
      Keeps (nested child x) t)
    (level : p.Level source clone) (data : ClosureData) (g : Graph) :
    Keeps (do
      let child ← (r.derive source clone).prepare g
      let body ← g.renamed (nested child) child clone
      let blockArgs ← Operand.renamedAll (nested child) child data.blockArgs
      adjust clone (·.withBody data child body blockArgs)
      return clone : BuildM ScopeId) p := by
  intro records
  refine yields_bind.2 (((r.derive source clone).yields_coverAll_host g.mentions p).mono ?_ ?_)
  rotate_left
  · exact fun _ q changes => ⟨records.changes changes, .of_changes Scope.lasting_stays changes⟩
  rintro child q ⟨host, changes⟩
  have settles : p.Settles q := .of_changes Scope.lasting_stays changes
  have nested_keeps (x : ScopeId) :
      nested child x = nested child x ∧ ∀ t, q.Settles t → Keeps (nested child x) t := by
    refine ⟨rfl, fun t more => clones child x t ?_⟩
    rw [host, Renaming.derive_host]
    exact (level.settles settles).settles more
  have body := (g.related_renamed (sequential_keeps q) nested_keeps child clone).2
  have args := (Operand.related_renamedAll (sequential_keeps q) nested_keeps child data.blockArgs).2
  have filled : Keeps (do
      let body ← g.renamed (nested child) child clone
      let blockArgs ← Operand.renamedAll (nested child) child data.blockArgs
      adjust clone (·.withBody data child body blockArgs)
      return clone : BuildM ScopeId) q := by
    refine (body q (.refl Scope.lasting_stays q)).bind fun g' t more => (args t more).bind ?_
    intro os u _
    refine (keeps_adjust fun c => c.stays_withBody data child g' os).bind fun _ _ _ => keeps_pure _
  refine Leaves.weaken (filled (records.changes changes)) ?_
  exact fun t ⟨records, more⟩ => ⟨records, settles.trans Scope.lasting_stays more⟩

/-- A clone that fits keeps records right if those of the closures in it do. -/
theorem keeps_cloneStep {nested : Renaming → ScopeId → BuildM ScopeId}
    (clones : ∀ (child : Renaming) (x : ScopeId) (t : Program), t.Level source child.host →
      Keeps (nested child x) t)
    (fits : p.Fits r.host source) : Keeps (cloneStep nested r source) p := by
  intro records
  have stays : p.RecordsDepths ∧ p.Settles p := ⟨records, .refl Scope.lasting_stays p⟩
  refine yields_ask_bind.2 ⟨fun s alive => ?_, fun _ _ => stays⟩
  obtain ⟨found, live⟩ := liveScope_eq_ok_iff.1 alive
  refine yields_bind.2 ((yields_requireClosure found).mono ?_ ?_)
  rotate_left
  · rintro _ _ ⟨rfl, -⟩
    exact stays
  rintro data p ⟨rfl, closed⟩
  refine yields_bind.2 ((yields_requireGraph found).mono ?_ ?_)
  rotate_left
  · rintro _ _ ⟨rfl, -⟩
    exact stays
  rintro g p ⟨rfl, graph⟩
  refine yields_bind.2 (yields_ask_bind.2 ⟨fun flat nearest => ?_, fun _ _ => stays⟩)
  refine yields_mint (fun outer number after host minted => ?_) (fun _ _ _ => stays) fun _ => stays
  rw [yields_bind, yields_addScope]
  have edited : outer.Edit flat .number after := .number minted
  have numbered : outer.Stays after := Scope.lasting_stays.edit edited
  have settles := settles_replace host numbered
  -- The parent of the clone is as deep as the source has recorded.
  obtain ⟨depth, deep⟩ := exists_depthUnder_of_nearestFlat nearest
  have same : data.nestingDepth = depth := by
    simpa [Fits, deep, found, closed, live, graph] using fits
  subst same
  have recorded := records source s data found closed
  obtain ⟨pushed, level⟩ := (records.replace host numbered).shell recorded.isClosure
    (settles.outlines.depthUnder (recorded.depthUnder found)) (settles.outlines.depthUnder deep) number
  have settled := settles.trans Scope.lasting_stays (.push Scope.lasting_stays _
    (s.cloneShell data r.host number (p.replace flat after).nextId))
  refine Leaves.weaken (keeps_copy clones level data g pushed) ?_
  exact fun t ⟨records, more⟩ => ⟨records, settled.trans Scope.lasting_stays more⟩

/-- Cloning with checks keeps records right. -/
theorem keeps_cloneCheckedWithin (fuel : Nat) (fits : p.Fits r.host source) :
    Keeps (cloneCheckedWithin fuel r source) p := by
  induction fuel generalizing p r source with
  | zero => exact fun records => ⟨records, .refl Scope.lasting_stays p⟩
  | succ fuel ih =>
    refine keeps_cloneStep (fun child x t level => keeps_demand fun lies records => ?_) fits
    exact ih (level.fits records lies) records

theorem keeps_cloneChecked (r : Renaming) (source : ScopeId) (p : Program) :
    Keeps (cloneChecked r source) p := by
  refine keeps_demand fun fits records => ?_
  apply yields_bind.2
  rw [yields_get]
  exact keeps_cloneCheckedWithin _ fits records

end Program

namespace Request

open Program

variable {α : Type} {p : Program}

def checked : Request α → BuildM α
  | cloneClosure source parent => cloneChecked (.under parent) source
  | cloneUnder r source => cloneChecked r source
  | cloneOperand r o => o.renamed (cloneChecked r) r
  | cloneGuard r g => g.renamed (cloneChecked r) r
  | cloneInstr r i => i.renamed (cloneChecked r) r
  | cloneGraph r owner g => g.renamed (cloneChecked r) r owner
  | r => r.run

/-- Every request keeps records right, as long as what it clones is checked. -/
theorem keeps_checked (r : Request α) (p : Program) : Keeps r.checked p := by
  have clones (r : Renaming) (x : ScopeId) :
      cloneChecked r x = cloneChecked r x ∧ ∀ t, p.Settles t → Keeps (cloneChecked r x) t :=
    ⟨rfl, fun t _ => keeps_cloneChecked r x t⟩
  have here := Tracks.refl Scope.lasting_stays p
  cases copies : r.cloneHost? with
  | none =>
    have same : r.checked = r.run := by cases r <;> first | rfl | cases copies
    rw [same]
    exact .of_changes (r.changes copies p)
  | some host =>
    cases r with
    | cloneClosure source parent => exact keeps_cloneChecked (.under parent) source p
    | cloneUnder r source => exact keeps_cloneChecked r source p
    | cloneOperand r o => exact (o.related_renamed (sequential_keeps p) (clones r) r).2 p here
    | cloneGuard r g => exact (g.related_renamed (sequential_keeps p) (clones r) r).2 p here
    | cloneInstr r i => exact (i.related_renamed (sequential_keeps p) (clones r) r).2 p here
    | cloneGraph r owner g => exact (g.related_renamed (sequential_keeps p) (clones r) r owner).2 p here
    | _ => cases copies

end Request

namespace Program

variable {p : Program}

/--
The programs that requests lead to while checks change nothing: every clone is
made under a parent as deep as its source has recorded, and every closure that
is met in a closure while that is cloned lies directly in it.
-/
inductive ReachableChecked : Program → Prop where
  | start (options : Options) : ReachableChecked { options }
  | step {α : Type} {p : Program} (before : ReachableChecked p) (r : Request α)
      (passes : r.checked.runOn p = r.run.runOn p) : ReachableChecked (p.after r.run)

namespace ReachableChecked

theorem reachable (run : p.ReachableChecked) : p.Reachable := by
  induction run with
  | start options => exact .start options
  | step _ r _ ih => exact ih.step r

theorem recordsDepths (run : p.ReachableChecked) : p.RecordsDepths := by
  induction run with
  | start options => exact .start options
  | step _ r passes ih =>
    have kept := (r.keeps_checked _ ih).after
    rw [passes] at kept
    exact kept.1

/--
As long as clones pass their checks, every closure has recorded the number of
scopes, loop bodies apart, on the chain from its parent up to the method or script.
-/
theorem nestingDepth_eq (run : p.ReachableChecked) {id : ScopeId} {s : Scope}
    (found : p.scope? id = some s) (isClosure : s.isClosure = true) :
    ∃ data parent chain, s.closure = some data ∧ s.parent = some parent ∧ p.Chain parent chain ∧
      data.nestingDepth = chain.countP p.counts := by
  have formed := run.reachable.wellFormed
  obtain ⟨data, closed⟩ := Option.isSome_iff_exists.1 ((formed id s found).closure.trans isClosure)
  obtain ⟨-, parent, lies, older, deep⟩ := run.recordsDepths id s data found closed
  obtain ⟨around, there⟩ := exists_scope? (Nat.lt_trans older (lt_size_of_scope? found))
  obtain ⟨chain, chained⟩ := formed.exists_chain there
  refine ⟨data, parent, chain, closed, lies, chained, ?_⟩
  exact Except.ok.inj (deep.symm.trans (formed.depthUnder_eq chained))

end ReachableChecked

/-- A closure is cloned beside itself, with the loop body in it. -/
theorem reachableChecked_loopInClosure :
    (loopInClosure.after (cloneClosure ⟨1⟩ ⟨0⟩)).ReachableChecked := by
  have built : loopInClosure.ReachableChecked :=
    ReachableChecked.start {}
      |>.step (.newScript "main.rb") rfl
      |>.step (.newClosure ⟨0⟩ false 1 none {}) rfl
      |>.step (.newLocal ⟨1⟩ "x" 0) rfl
      |>.step (.newClosure ⟨1⟩ true 2 none {}) rfl
      |>.step (.buildGraph ⟨2⟩) rfl
      |>.step (.addInstr ⟨1⟩ (.ret (.closure ⟨2⟩))) rfl
      |>.step (.buildGraph ⟨1⟩) rfl
  exact built.step (.cloneClosure ⟨1⟩ ⟨0⟩) (by decide +kernel)

/-- The loop body in the clone has recorded that it lies two scopes deep. -/
theorem nestingDepth_loopInClosure :
    ∃ s data chain, (loopInClosure.after (cloneClosure ⟨1⟩ ⟨0⟩)).scope? ⟨4⟩ = some s ∧
      s.isClosure = true ∧ s.closure = some data ∧
      (loopInClosure.after (cloneClosure ⟨1⟩ ⟨0⟩)).Chain ⟨3⟩ chain ∧ data.nestingDepth = 2 ∧
      data.nestingDepth = chain.countP (loopInClosure.after (cloneClosure ⟨1⟩ ⟨0⟩)).counts := by
  have shape : ((loopInClosure.after (cloneClosure ⟨1⟩ ⟨0⟩)).scope? ⟨4⟩).any (fun s => s.isClosure &&
      decide (s.parent = some ⟨3⟩) && s.closure.any (·.nestingDepth = 2)) = true := by decide +kernel
  obtain ⟨s, found, known⟩ := (Option.any_eq_true _ _).1 shape
  simp only [Bool.and_eq_true, decide_eq_true_eq] at known
  obtain ⟨⟨isClosure, here⟩, deep⟩ := known
  obtain ⟨data, parent, chain, closed, lies, chained, counted⟩ :=
    ReachableChecked.nestingDepth_eq reachableChecked_loopInClosure found isClosure
  cases here.symm.trans lies
  refine ⟨s, data, chain, found, isClosure, closed, chained, ?_, counted⟩
  simpa [closed] using deep

end Program

end ClosureIR
