import ClosureIR.Proofs.Clone.Shell

/-!
# Runs of the cloner

Whatever its outcome, a clone adds closures under one method or script, and the
scopes that it has finished are clones.  When it succeeds it has made a clone of
its source; when it fails something in the source stood in the way.
-/

namespace ClosureIR

open BuildM

namespace Program

variable {p q : Program} {flat source id : ScopeId} {r : Renaming} {fuel : Nat} {s c : Scope}

/-- Filling in a scope without a graph leaves every scope with a graph as it is. -/
theorem keeps_replace_bare (found : q.scope? id = some s) (bare : s.graph = none) :
    ∀ other t, q.scope? other = some t → t.isClosure = true → t.graph ≠ none →
      (q.replace id c).scope? other = some t := by
  intro other t there _ graph
  have different : other ≠ id := by
    rintro rfl
    cases found.symm.trans there
    exact graph bare
  rw [scope?_replace, if_neg different]
  exact there

namespace Cloning

/-- A new scope without a graph may be filled in, with a clone if it gets one. -/
theorem rewrite (cloning : p.Cloning flat q) (hosts : p.Hosts flat)
    (beyond : p.scopes.size ≤ id.index) (found : q.scope? id = some s) (bare : s.graph = none)
    (valid : c.Valid id) (kind : c.kind = s.kind) (parent : c.parent = s.parent)
    (number : c.closure.map (·.number) = s.closure.map (·.number))
    (traced : c.graph ≠ none →
      ∃ parent owner source, (q.replace id c).IsClone parent owner source id)
    (shelled : c.graph = none → (q.replace id c).Begun id c) :
    p.Cloning flat (q.replace id c) where
  size_le := by
    rw [size_replace]
    exact cloning.size_le
  hosts _ := by
    obtain ⟨formed, outer, there, flat_⟩ := cloning.hosts hosts
    have different : flat ≠ id := by
      rintro rfl
      obtain ⟨before, host, -⟩ := hosts.outer
      exact absurd (lt_size_of_scope? host) (Nat.not_lt.2 beyond)
    refine ⟨formed.replace valid, outer, ?_, flat_⟩
    rw [scope?_replace, if_neg different]
    exact there
  grown _ := (cloning.grown hosts).rewrite beyond found kind parent number
  traced _ other t later there graph := by
    by_cases same : other = id
    · subst same
      rw [scope?_replace_self found] at there
      cases there
      exact traced graph
    · rw [scope?_replace, if_neg same] at there
      obtain ⟨above, owner, origin, cloned⟩ := cloning.traced hosts other t later there graph
      exact ⟨above, owner, origin, cloned.keep (keeps_replace_bare found bare)⟩
  shelled _ other t later there empty := by
    by_cases same : other = id
    · subst same
      rw [scope?_replace_self found] at there
      cases there
      exact shelled empty
    · rw [scope?_replace, if_neg same] at there
      exact (cloning.shelled hosts other t later there empty).keep (keeps_replace_bare found bare)

/-- The shell of a clone is added. -/
theorem shell {outer after : Scope} {number : Nat} {data : ClosureData} (hosts : p.Hosts flat)
    (nearest : p.nearestFlat r.host = .ok flat) (found : p.scope? source = some s)
    (closed : s.closure = some data) (graph : s.graph ≠ none) (host : p.scope? flat = some outer)
    (minted : outer.mintClosureNumber? = some (number, after)) :
    p.Cloning flat ((p.replace flat after).push (s.cloneShell data r.host number p.nextId)) := by
  have isClosure := (hosts.formed _ _ found).isClosure_of_closure closed
  have grown := Grown.push (c := s.cloneShell data r.host number p.nextId) nearest host minted
    isClosure rfl rfl rfl
  refine ⟨grown.size_le, fun _ => ⟨?_, ?_⟩, fun _ => grown, fun _ => ?_, fun _ => ?_⟩
  · apply (hosts.formed.replace ((hosts.formed _ _ host).edit (.number minted))).push
    rw [nextId_replace]
    exact Scope.valid_cloneShell isClosure (inside_of_nearestFlat nearest) data number
  · obtain ⟨before, there, flat_⟩ := hosts.outer
    obtain ⟨later, found, kind, -⟩ := grown.outlines flat before there
    exact ⟨later, found, by rw [Scope.isClosure, kind]; exact flat_⟩
  · intro id t beyond found graph
    obtain ⟨rfl, rfl⟩ | old := scope?_push_cases found
    · exact absurd rfl graph
    · have inside := lt_size_of_scope? old
      rw [size_replace] at inside
      exact absurd inside (Nat.not_lt.2 beyond)
  · intro id t beyond there _
    obtain ⟨rfl, rfl⟩ | old := scope?_push_cases there
    · have kept := grown.keeps_closure hosts found isClosure
      rw [nextId_replace]
      exact .intro kept (lt_size_of_scope? found) isClosure graph closed (.refl _)
    · have inside := lt_size_of_scope? old
      rw [size_replace] at inside
      exact absurd inside (Nat.not_lt.2 beyond)

end Cloning

def ClonesNested (fuel : Nat) (nested : Renaming → ScopeId → BuildM ScopeId) : Prop :=
  ∀ (r : Renaming) (x flat : ScopeId) (q : Program), q.Hosts flat →
    q.nearestFlat r.host = .ok flat → (nested r x).Leads (Cloning flat) q
      (fun c t => c = q.nextId ∧ t.IsClone r.host r.names.owner x c)
      fun fault t => t.Stuck fuel x fault

/-- The closures in a body are cloned into a scope that is there to hold them. -/
theorem ClonesNested.nests {nested : Renaming → ScopeId → BuildM ScopeId}
    (clones : ClonesNested fuel nested) (hosts : p.Hosts flat)
    (nearest : p.nearestFlat r.host = .ok flat) :
    Nests (nested r) p (Cloning flat)
      (fun q x c => q.Hosts flat ∧ q.IsClone r.host r.names.owner x c)
      fun q x fault => q.Stuck fuel x fault where
  refl := .refl flat
  trans := .trans
  grows cloning := cloning.size_le
  keep := by
    rintro q t cloning x c ⟨hosts, cloned⟩
    exact ⟨cloning.hosts hosts, cloned.grown hosts (cloning.grown hosts)⟩
  run q cloning x := by
    have hosts' := cloning.hosts hosts
    have nearest' := (cloning.grown hosts).outlines.nearestFlat nearest
    refine (clones r x flat q hosts' nearest').mono ?_ fun _ _ failed => failed
    rintro c t ⟨later, rfl, cloned⟩
    obtain ⟨c, made⟩ := cloned.exists_clone
    exact ⟨later, ⟨later.hosts hosts', cloned⟩,
      .singleton (Nat.le_refl _) (lt_size_of_scope? made)⟩

/-- From `p` to `q` no scope was added but a shell for a clone of `s`. -/
def Begins (p q : Program) (s : Scope) : Prop :=
  ∀ id c, p.scopes.size ≤ id.index → q.scope? id = some c → id = p.nextId ∧
    ∃ data parent number, (s.cloneShell data parent number id).Minted c

theorem Begins.refl (p : Program) (s : Scope) : p.Begins p s :=
  fun _ _ beyond found => absurd (lt_size_of_scope? found) (Nat.not_lt.2 beyond)

/--
The program `q` that `p` has become when a body is about to be copied: at the
place `clone` there is the shell `c` for a clone of `s`, with all names prepared.
-/
structure Opened (p q : Program) (flat source clone : ScopeId) (r child : Renaming) (s c : Scope)
    (data : ClosureData) (g : Graph) : Prop where
  hosts : p.Hosts flat
  cloning : p.Cloning flat q
  begins : p.Begins q s
  place : clone = p.nextId
  nearest : q.nearestFlat clone = .ok flat
  found : p.scope? source = some s
  closed : s.closure = some data
  live : s.isInlined = false
  graph : s.graph = some g
  shell : ∃ number, (s.cloneShell data r.host number clone).Minted c
  made : q.scope? clone = some c
  host : child.host = clone
  scopes : child.scopes = (r.derive source clone).scopes
  prepared : child.Prepared c g.mentions

/-- A closure takes a number and a place in the arena, and hands out the names for its body. -/
theorem yields_opened {data : ClosureData} {g : Graph} {next : ScopeId → Renaming → BuildM ScopeId}
    {good : ScopeId → Program → Prop} {bad : Fault → Program → Prop} (hosts : p.Hosts flat)
    (nearest : p.nearestFlat r.host = .ok flat) (found : p.scope? source = some s)
    (closed : s.closure = some data) (live : s.isInlined = false) (graph : s.graph = some g)
    (opened : ∀ clone child c q, Opened p q flat source clone r child s c data g →
      (next clone child).Yields q good bad)
    (overflow : ∀ q, p.Cloning flat q → p.Begins q s → bad (.misused .wordOverflow) q) :
    (do
      let number ← newClosureNumber r.host
      let id ← addScope (s.cloneShell data r.host number)
      let child ← (r.derive source id).prepare g
      next id child : BuildM ScopeId).Yields p good bad := by
  have isClosure := (hosts.formed _ _ found).isClosure_of_closure closed
  refine yields_bind.2 (yields_ask_bind.2 ⟨fun flat' walk => ?_, fun _ failed => ?_⟩)
  rotate_left
  · cases nearest.symm.trans failed
  cases nearest.symm.trans walk
  obtain ⟨outer, host, -⟩ := hosts.outer
  refine yields_mint (fun outer number after host minted => ?_)
    (fun _ _ _ => overflow p (.refl flat p) (.refl p s)) fun missing => by cases host.symm.trans missing
  rw [yields_bind, yields_addScope, nextId_replace, yields_bind]
  have added := Cloning.shell hosts nearest found closed (by simp [graph]) host minted
  have there := scope?_push_nextId (p.replace flat after)
    (s.cloneShell data r.host number p.nextId)
  rw [nextId_replace] at there
  -- Handing out names changes the shell only.
  have kept (c : Scope) (minted : (s.cloneShell data r.host number p.nextId).Minted c) :
      p.Cloning flat (Program.replace
        ((p.replace flat after).push (s.cloneShell data r.host number p.nextId)) p.nextId c) := by
    have valid := Scope.valid_cloneShell isClosure (inside_of_nearestFlat nearest) data number
    have source_kept := keeps_replace_bare (c := c) there rfl source s
      ((added.grown hosts).keeps_closure hosts found isClosure) isClosure (by simp [graph])
    have begun := Begun.intro source_kept (lt_size_of_scope? found) isClosure (by simp [graph])
      closed minted
    apply added.rewrite hosts (Nat.le_refl _) there rfl (valid.minted minted)
    all_goals
      obtain ⟨_, _, rfl⟩ := minted
    · rfl
    · rfl
    · rfl
    · exact fun drawn => absurd rfl drawn
    · exact fun _ => begun
  have begins (c : Scope) (minted : (s.cloneShell data r.host number p.nextId).Minted c) :
      p.Begins (Program.replace
        ((p.replace flat after).push (s.cloneShell data r.host number p.nextId)) p.nextId c) s := by
    intro id d beyond found
    obtain ⟨rfl, rfl⟩ | added := scope?_replace_cases found
    · exact ⟨rfl, data, r.host, number, minted⟩
    · obtain ⟨rfl, rfl⟩ | old := scope?_push_cases added
      · rw [nextId_replace]
        exact ⟨rfl, data, r.host, number, .refl _⟩
      · have inside := lt_size_of_scope? old
        rw [size_replace] at inside
        exact absurd inside (Nat.not_lt.2 beyond)
  apply (Renaming.yields_coverAll Renaming.prepared_derive there rfl g.mentions).mono
  · rintro child q ⟨c, minted, rfl, host', scopes, prepared⟩
    have cloning := kept c minted
    have made := scope?_replace_self there c
    have lies := ((cloning.grown hosts).new p.nextId c (Nat.le_refl _) made).1
    exact opened p.nextId child c _ ⟨hosts, cloning, begins c minted, rfl, lies, found, closed, live,
      graph, ⟨number, minted⟩, made, host', scopes, prepared⟩
  · rintro fault q ⟨rfl, c, minted, rfl⟩
    exact overflow _ (kept c minted) (begins c minted)

namespace Opened

variable {t : Program} {clone : ScopeId} {child : Renaming} {data : ClosureData} {g : Graph}

theorem isClosure (opened : Opened p q flat source clone r child s c data g) :
    s.isClosure = true :=
  (opened.hosts.formed _ _ opened.found).isClosure_of_closure opened.closed

theorem bare (opened : Opened p q flat source clone r child s c data g) : c.graph = none := by
  obtain ⟨number, _, _, rfl⟩ := opened.shell
  rfl

theorem isClosure_shell (opened : Opened p q flat source clone r child s c data g) :
    c.isClosure = true := by
  obtain ⟨number, _, _, rfl⟩ := opened.shell
  exact opened.isClosure

theorem owners (opened : Opened p q flat source clone r child s c data g) :
    child.names.owner = Function.update r.names.owner source clone := by
  funext id
  have same : child.scope? id = (r.derive source clone).scope? id :=
    congrArg (·.get? id) opened.scopes
  simp only [Renaming.names, same, Renaming.derive_scope?, Function.update]
  by_cases here : id = source <;> simp [here]

/-- The clone is as it has to be once its body is filled in. -/
theorem clonedAs (opened : Opened p q flat source clone r child s c data g) {body : Graph}
    {args : List Operand} {sub : ScopeId → ScopeId → Prop}
    (copied : g.Copied child.names sub clone body) (distinct : body.closures.Nodup)
    (passed : Operand.AllCopied child.names sub data.blockArgs args) :
    s.ClonedAs (c.withBody data child body args) r.host clone child.names sub := by
  have fresh := opened.prepared.fresh
  rw [opened.host] at fresh
  have label := opened.prepared.getD_label?
  obtain ⟨number, names, temporaries, rfl⟩ := opened.shell
  refine ⟨rfl, rfl, rfl, rfl, rfl, rfl, g, body, data, _, ?_, opened.closed, rfl, ?_⟩
  · exact ⟨opened.graph, rfl, copied, distinct, rfl, fresh.label_injective, fresh.label_minted,
      fresh.label_onto, fresh.temp_injective, fresh.temp_minted, fresh.temp_onto⟩
  · exact ⟨rfl, rfl, rfl, rfl, passed, label _ _, label _ _⟩

/-- The source stays as it is while its body is copied. -/
theorem source_kept (opened : Opened p q flat source clone r child s c data g)
    (step : q.Cloning flat t) : t.scope? source = some s :=
  ((opened.cloning.trans step).grown opened.hosts).keeps_closure opened.hosts opened.found
    opened.isClosure

/-- So does the shell. -/
theorem shell_kept (opened : Opened p q flat source clone r child s c data g)
    (step : q.Cloning flat t) : t.scope? clone = some c := by
  have hosts := opened.cloning.hosts opened.hosts
  exact (step.grown hosts).keeps_closure hosts opened.made opened.isClosure_shell

theorem nests {nested : Renaming → ScopeId → BuildM ScopeId} (clones : ClonesNested fuel nested)
    (opened : Opened p q flat source clone r child s c data g) :
    Nests (nested child) q (Cloning flat)
      (fun t x d => t.Hosts flat ∧ t.IsClone clone child.names.owner x d)
      fun t x fault => t.Stuck fuel x fault := by
  have nests := clones.nests (r := child) (opened.cloning.hosts opened.hosts)
    (by rw [opened.host]; exact opened.nearest)
  rwa [opened.host] at nests

/-- With the body filled in, the clone is complete. -/
theorem filled (opened : Opened p q flat source clone r child s c data g)
    (step : q.Cloning flat t) {body : Graph} {args : List Operand}
    (copied : g.Copied child.names (fun x d => t.Hosts flat ∧ t.IsClone clone child.names.owner x d)
      clone body)
    (spans : q.Spans t body.closures)
    (passed : Operand.AllCopied child.names
      (fun x d => t.Hosts flat ∧ t.IsClone clone child.names.owner x d) data.blockArgs args)
    (covered : ∀ n ∈ data.blockArgs.flatMap (·.mentions), child.covers n = true) :
    p.Cloning flat (t.replace clone (c.withBody data child body args)) ∧
      (t.replace clone (c.withBody data child body args)).IsClone r.host r.names.owner
        source clone := by
  have cloning := opened.cloning.trans step
  have there := opened.shell_kept step
  have kept := keeps_replace_bare (c := c.withBody data child body args) there opened.bare
  have isClone : (t.replace clone (c.withBody data child body args)).IsClone r.host
      r.names.owner source clone := by
    have graph : s.graph ≠ none := by simp [opened.graph]
    have older : source.index < clone.index := by
      rw [opened.place]
      exact lt_size_of_scope? opened.found
    have copyable : s.Copyable := by
      refine ⟨opened.isClosure, opened.live, g, opened.graph, fun u named => ?_⟩
      rw [Scope.blockArgs, opened.closed] at named
      exact (opened.prepared.covers _).1 (covered _ named)
    exact .intro (kept source s (opened.source_kept step) opened.isClosure graph)
      (scope?_replace_self there _) older copyable opened.owners
      (opened.clonedAs copied spans.nodup passed) fun x d related => related.2.keep kept
  refine ⟨?_, isClone⟩
  have valid : c.Valid clone := (cloning.hosts opened.hosts).formed _ _ there
  refine cloning.rewrite opened.hosts (opened.place ▸ Nat.le_refl _) there opened.bare
    ⟨valid.place, valid.parent, ?_, ?_⟩ rfl rfl ?_ (fun _ => ⟨_, _, _, isClone⟩)
    fun empty => absurd empty (Option.some_ne_none body)
  · exact (Option.isSome_map ..).trans valid.closure
  · have parameters := (opened.hosts.formed _ _ opened.found).blockArgs
    rw [Scope.blockArgs, opened.closed] at parameters
    obtain ⟨number, names, temporaries, rfl⟩ := opened.shell
    exact passed.isParameter parameters
  · exact (Option.map_map ..)

/-- The body and the parameters are copied, or something in the source stops the copying. -/
theorem yields_filled {nested : Renaming → ScopeId → BuildM ScopeId}
    (clones : ClonesNested fuel nested)
    (opened : Opened p q flat source clone r child s c data g) :
    (do
      let body ← g.renamed (nested child) child clone
      let blockArgs ← Operand.renamedAll (nested child) child data.blockArgs
      adjust clone (·.withBody data child body blockArgs)
      return clone : BuildM ScopeId).Yields q
        (fun d t => d = clone ∧ p.Cloning flat t ∧
          t.IsClone r.host r.names.owner source clone)
        fun fault t => p.Cloning flat t ∧ t.Stuck (fuel + 1) source fault := by
  have agrees := opened.prepared.agrees
  have valid := opened.hosts.formed _ _ opened.found
  have args : s.blockArgs = data.blockArgs := by rw [Scope.blockArgs, opened.closed]
  refine yields_bind.2 ((Graph.renamed_leads (opened.nests clones) agrees clone g q
    (.refl flat q)).mono ?_ ?_)
  · rintro body t ⟨step, copied, spans⟩
    refine yields_bind.2 ((Operand.yields_renamedAll_parameters agrees
      (fun x d => t.Hosts flat ∧ t.IsClone clone child.names.owner x d) data.blockArgs
      (args ▸ valid.blockArgs)).mono ?_ ?_)
    · rintro passed _ ⟨rfl, copiedArgs, covered⟩
      refine yields_bind.2 (yields_ask_bind.2 ⟨fun c' there => ?_, fun _ missing => ?_⟩)
      · cases (opened.shell_kept step).symm.trans (scope_eq_ok_iff.1 there)
        exact ⟨rfl, opened.filled step copied spans copiedArgs covered⟩
      · cases (opened.shell_kept step).symm.trans (scope_eq_error_iff.1 missing).1
    · rintro fault _ ⟨rfl, u, named, unknown, rfl⟩
      refine ⟨opened.cloning.trans step, .blocked ?_⟩
      refine .temporary (opened.source_kept step) opened.graph (args ▸ named) fun mentioned => ?_
      simp [(opened.prepared.covers _).2 mentioned] at unknown
  · rintro fault t ⟨step, ⟨x, member, stuck⟩ | ⟨n, named, unknown, -⟩⟩
    · exact ⟨opened.cloning.trans step,
        .nested ⟨s, g, opened.source_kept step, opened.graph, member⟩ stuck⟩
    · simp [(opened.prepared.covers _).2 named] at unknown

end Opened

/-- The source is read before anything happens: it has all that a clone needs, or it blocks it. -/
theorem yields_required {next : Scope → ClosureData → Graph → BuildM ScopeId}
    {good : ScopeId → Program → Prop} {bad : Fault → Program → Prop} (formed : p.WellFormed)
    (ready : ∀ s data g, p.scope? source = some s → s.isInlined = false → s.closure = some data →
      s.graph = some g → (next s data g).Yields p good bad)
    (blocked : ∀ fault, p.Blocks source fault → bad fault p) :
    (do
      let s ← requireLive source
      let data ← requireClosure source
      let g ← requireGraph source
      next s data g : BuildM ScopeId).Yields p good bad := by
  refine yields_ask_bind.2 ⟨fun s alive => ?_, fun m dead => ?_⟩
  · obtain ⟨found, live⟩ := liveScope_eq_ok_iff.1 alive
    refine yields_bind.2 ((yields_requireClosure found).mono ?_ ?_)
    · rintro data _ ⟨rfl, closed⟩
      refine yields_bind.2 ((yields_requireGraph found).mono ?_ ?_)
      · rintro g _ ⟨rfl, graph⟩
        exact ready s data g found live closed graph
      · rintro fault _ ⟨rfl, bare, rfl⟩
        exact blocked _ (.graphMissing found bare)
    · rintro fault _ ⟨rfl, flat, rfl⟩
      refine blocked _ (.notClosure found ?_)
      rw [← (formed _ _ found).closure, flat]
      rfl
  · obtain ⟨missing, rfl⟩ | ⟨s, found, inlined, rfl⟩ := liveScope_eq_error_iff.1 dead
    · exact blocked _ (.missing missing)
    · exact blocked _ (.inlined found inlined)

/-- One clone, given what happens to the closures in it. -/
theorem clonesNested_cloneStep {nested : Renaming → ScopeId → BuildM ScopeId}
    (clones : ClonesNested fuel nested) : ClonesNested (fuel + 1) (cloneStep nested) := by
  intro r source flat p hosts nearest
  refine yields_required hosts.formed (fun s data g found live closed graph => ?_)
    fun fault blocks => ⟨.refl flat p, .blocked blocks⟩
  refine yields_opened hosts nearest found closed live graph (fun clone child c q opened => ?_)
    fun q cloning _ => ⟨cloning, .overflow fuel source⟩
  refine (opened.yields_filled clones).mono ?_ fun _ _ failed => failed
  rintro _ t ⟨rfl, cloning, cloned⟩
  exact ⟨cloning, opened.place, cloned⟩

/-- A clone with any fuel, where its parent is there. -/
theorem clonesNested_cloneWithin (fuel : Nat) : ClonesNested fuel (cloneWithin fuel) := by
  induction fuel with
  | zero => exact fun _ x flat q _ _ => ⟨.refl flat q, .exhausted x⟩
  | succ fuel ih => exact clonesNested_cloneStep ih

/-- Where it is not, nothing happens. -/
theorem yields_cloneStep_of_missing {nested : Renaming → ScopeId → BuildM ScopeId}
    (formed : p.WellFormed) (missing : p.scope? r.host = none) :
    (cloneStep nested r source).Yields p (fun _ _ => False)
      fun fault q => q = p ∧
        (p.Blocks source fault ∨ fault = .misused (.noSuchScope p.scopes.size r.host.index)) := by
  refine yields_required formed (fun s data g _ _ _ _ => ?_) fun fault blocks => ⟨rfl, .inl blocks⟩
  refine yields_bind.2 (yields_ask_bind.2 ⟨fun flat walk => ?_, fun m lost => ?_⟩)
  · cases (nearestFlat_of_missing missing).symm.trans walk
  · cases (nearestFlat_of_missing missing).symm.trans lost
    exact ⟨rfl, .inr rfl⟩

end Program

end ClosureIR
