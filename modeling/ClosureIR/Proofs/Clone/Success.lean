import ClosureIR.Proofs.Clone.Fuel

/-!
# When a clone succeeds

A clone succeeds exactly when its parent is there and every scope that it comes
upon can be cloned.  All that it makes can be cloned again.
-/

namespace ClosureIR

open BuildM Relation

/-- A clone can be cloned: its block arguments mention what those of its source mention, renamed. -/
theorem Scope.ClonedAs.copyable {s c : Scope} {parent clone : ScopeId} {m : NameMap}
    {sub : ScopeId → ScopeId → Prop} (cloned : s.ClonedAs c parent clone m sub)
    (copyable : s.Copyable) : c.Copyable := by
  obtain ⟨g, g', d, d', body, closed, closed', data⟩ := cloned.body
  obtain ⟨h, graph, covered⟩ := copyable.graph
  cases body.source.symm.trans graph
  have kind : c.isClosure = s.isClosure := by rw [isClosure, cloned.kind, isClosure]
  refine ⟨kind.trans copyable.closure, ?_, g', body.graph, fun t named => ?_⟩
  · rw [isInlined, closed']
    exact data.live
  · have args : s.blockArgs = d.blockArgs := by rw [blockArgs, closed]
    have args' : c.blockArgs = d'.blockArgs := by rw [blockArgs, closed']
    rw [args', data.blockArgs.mentions, ← args] at named
    obtain ⟨n, before, same⟩ := List.mem_map.1 named
    rw [body.copied.mentions]
    cases n with
    | label l => cases same
    | temp u => exact List.mem_map.2 ⟨.temp u, covered u before, same⟩

namespace Program

variable {p q : Program} {parent source clone flat : ScopeId} {owner : ScopeId → ScopeId}

/-- All that is reached from a scope, itself included, is there and can be cloned by itself. -/
def AllCopyable (p : Program) (id : ScopeId) : Prop :=
  ∀ x, p.Reaches id x → ∃ s, p.scope? x = some s ∧ s.Copyable

namespace IsClone

theorem of_reaches_source (cloned : q.IsClone parent owner source clone) {x : ScopeId}
    (reaches : q.Reaches source x) :
    ∃ parent owner d, q.Reaches clone d ∧ q.IsClone parent owner x d := by
  induction reaches with
  | refl => exact ⟨parent, owner, clone, .refl, cloned⟩
  | tail _ last ih =>
    obtain ⟨above, owned, d, reaches, here⟩ := ih
    obtain ⟨owned', e, holds, there⟩ := here.of_holds_source last
    exact ⟨_, owned', e, reaches.tail holds, there⟩

theorem allCopyable_source (cloned : q.IsClone parent owner source clone) :
    q.AllCopyable source := by
  intro x reaches
  obtain ⟨_, _, d, -, here⟩ := cloned.of_reaches_source reaches
  exact here.copyable

theorem allCopyable_clone (cloned : q.IsClone parent owner source clone) : q.AllCopyable clone := by
  intro d reaches
  obtain ⟨_, _, x, -, here⟩ := cloned.of_reaches_clone reaches
  cases here with
  | intro found made newer copyable owners cloned nested =>
    exact ⟨_, made, cloned.copyable copyable⟩

theorem neverCycles (cloned : q.IsClone parent owner source clone) : q.NeverCycles clone := by
  obtain ⟨n, low⟩ := exists_not_descends cloned.acc
  exact neverCycles_of_not_descends low

end IsClone

/-! ## Why a clone fails -/

theorem Blocks.not_copyable {id : ScopeId} {fault : Fault} (blocks : q.Blocks id fault) :
    ¬ ∃ s, q.scope? id = some s ∧ s.Copyable := by
  rintro ⟨s, there, copyable⟩
  cases blocks with
  | missing absent => cases absent.symm.trans there
  | inlined found dead =>
    cases found.symm.trans there
    rw [copyable.live] at dead
    cases dead
  | notClosure found flat =>
    cases found.symm.trans there
    rw [copyable.closure] at flat
    cases flat
  | graphMissing found bare =>
    cases found.symm.trans there
    obtain ⟨g, graph, -⟩ := copyable.graph
    cases bare.symm.trans graph
  | temporary found graph passed absent =>
    cases found.symm.trans there
    obtain ⟨g, graph', covered⟩ := copyable.graph
    cases graph.symm.trans graph'
    exact absent (covered _ passed)

/-- A clone stops for lack of fuel, at the end of a counter, or at a scope that blocks it. -/
theorem Stuck.reason {fuel : Nat} {id : ScopeId} {fault : Fault} (stuck : q.Stuck fuel id fault) :
    (∃ x, fault = .misused (.selfNested x)) ∨ fault = .misused .wordOverflow ∨
      ∃ x, q.Reaches id x ∧ q.Blocks x fault := by
  induction stuck with
  | exhausted id => exact .inl ⟨id, rfl⟩
  | overflow fuel id => exact .inr (.inl rfl)
  | blocked blocks => exact .inr (.inr ⟨_, .refl, blocks⟩)
  | nested holds stuck ih =>
    rcases ih with exhausted | overflow | ⟨x, reaches, blocks⟩
    · exact .inl exhausted
    · exact .inr (.inl overflow)
    · exact .inr (.inr ⟨x, .head holds reaches, blocks⟩)

/-- The reasons for which a clone fails when its source never reaches itself. -/
theorem WellFormed.reason (formed : p.WellFormed) (acyclic : p.NeverCycles source) {r : Renaming}
    {fault : Fault} (run : (cloneUnder r source).runOn p = (.error fault, q)) :
    fault = .misused .wordOverflow ∨ (∃ x, q.Reaches source x ∧ q.Blocks x fault) ∨
      (p.scope? r.host = none ∧ fault = .misused (.noSuchScope p.scopes.size r.host.index)) := by
  have sound := formed.cloneUnder_ne_selfNested acyclic r
  rw [run] at sound
  rw [cloneUnder, runOn_bind, runOn_get] at run
  rcases formed.yields_clone p.scopes.size r source with
    ⟨flat, nearest, cloning⟩ | ⟨missing, fails⟩
  · rcases (cloning.of_error run).2.reason with ⟨x, rfl⟩ | overflow | blocked
    · exact absurd rfl (sound x)
    · exact .inl overflow
    · exact .inr (.inl blocked)
  · obtain ⟨rfl, blocks | absent⟩ := fails.of_error run
    · exact .inr (.inl ⟨source, .refl, blocks⟩)
    · exact .inr (.inr ⟨missing, absent⟩)

/-! ## Before and after -/

namespace Grown

variable (grown : p.Grown flat q) (hosts : p.Hosts flat)
  (there : ∀ x, p.Reaches source x → ∃ s, p.scope? x = some s)

include grown there in
/-- Where no operand dangles, what is reached stays the same. -/
theorem reaches_iff (x : ScopeId) : q.Reaches source x ↔ p.Reaches source x := by
  constructor
  · intro reaches
    induction reaches with
    | refl => exact .refl
    | tail _ last ih =>
      obtain ⟨s, found⟩ := there _ ih
      exact ih.tail ((grown.holds_iff (lt_size_of_scope? found) _).1 last)
  · exact grown.reaches

include grown hosts in
/-- What can be cloned afterwards and was there before is as it was. -/
theorem eq_of_copyable {x : ScopeId} {s t : Scope} (found : p.scope? x = some s)
    (kept : q.scope? x = some t) (copyable : t.Copyable) : t = s := by
  obtain ⟨t', found', kind, -⟩ := grown.outlines x s found
  cases kept.symm.trans found'
  have closed : s.isClosure = true := by
    rw [Scope.isClosure, ← kind]
    exact copyable.closure
  exact Option.some.inj (kept.symm.trans (grown.keeps_closure hosts found closed))

include grown hosts there in
theorem allCopyable_iff : q.AllCopyable source ↔ p.AllCopyable source := by
  constructor
  · intro all x reaches
    obtain ⟨s, found⟩ := there x reaches
    obtain ⟨t, kept, copyable⟩ := all x (grown.reaches reaches)
    obtain rfl := grown.eq_of_copyable hosts found kept copyable
    exact ⟨_, found, copyable⟩
  · intro all x reaches
    obtain ⟨s, found, copyable⟩ := all x ((grown.reaches_iff there x).1 reaches)
    exact ⟨s, grown.keeps_closure hosts found copyable.closure, copyable⟩

end Grown

/-- A clone that meets no blocked scope succeeds, unless a counter runs out. -/
theorem WellFormed.succeeds (formed : p.WellFormed) (acyclic : p.NeverCycles source) {r : Renaming}
    {outcome : Except Fault ScopeId} (run : (cloneUnder r source).runOn p = (outcome, q))
    (bounded : outcome ≠ .error (.misused .wordOverflow)) (parent : ∃ h, p.scope? r.host = some h)
    (all : q.AllCopyable source) : ∃ c, outcome = .ok c := by
  cases outcome with
  | ok c => exact ⟨c, rfl⟩
  | error fault =>
    rcases formed.reason acyclic run with rfl | ⟨x, reaches, blocks⟩ | ⟨missing, -⟩
    · exact absurd rfl bounded
    · exact absurd (all x reaches) blocks.not_copyable
    · obtain ⟨h, found⟩ := parent
      cases missing.symm.trans found

/-- In the program that a clone leaves, success can be read off its source. -/
theorem WellFormed.succeeds_iff (formed : p.WellFormed) (acyclic : p.NeverCycles source)
    {r : Renaming} {outcome : Except Fault ScopeId}
    (run : (cloneUnder r source).runOn p = (outcome, q))
    (bounded : outcome ≠ .error (.misused .wordOverflow)) :
    (∃ c, outcome = .ok c) ↔ (∃ h, p.scope? r.host = some h) ∧ q.AllCopyable source := by
  constructor
  · rintro ⟨c, rfl⟩
    obtain ⟨flat, nearest, -, -, cloned⟩ := formed.cloned run
    exact ⟨exists_scope? (inside_of_nearestFlat nearest), cloned.allCopyable_source⟩
  · rintro ⟨parent, all⟩
    exact formed.succeeds acyclic run bounded parent all

/-- So it can in the program before the clone, where no operand dangles. -/
theorem WellFormed.succeeds_iff_of_there (formed : p.WellFormed) (acyclic : p.NeverCycles source)
    {r : Renaming} {outcome : Except Fault ScopeId}
    (run : (cloneUnder r source).runOn p = (outcome, q))
    (bounded : outcome ≠ .error (.misused .wordOverflow))
    (there : ∀ x, p.Reaches source x → ∃ s, p.scope? x = some s) :
    (∃ c, outcome = .ok c) ↔ (∃ h, p.scope? r.host = some h) ∧ p.AllCopyable source := by
  rw [formed.succeeds_iff acyclic run bounded]
  refine and_congr_right fun ⟨h, found⟩ => ?_
  obtain ⟨flat, nearest⟩ := formed.exists_nearestFlat (lt_size_of_scope? found)
  have cloning := formed.cloning_after nearest source
  rw [after, run] at cloning
  have hosts := formed.hosts nearest
  exact (cloning.grown hosts).allCopyable_iff hosts there

/-- A clone can be cloned into every parent that is there. -/
theorem IsClone.succeeds_again (formed : q.WellFormed)
    (cloned : q.IsClone parent owner source clone) {r : Renaming}
    (host : ∃ h, q.scope? r.host = some h) :
    (∃ c, ((cloneUnder r clone).runOn q).1 = .ok c) ∨
      ((cloneUnder r clone).runOn q).1 = .error (.misused .wordOverflow) := by
  by_cases overflow : ((cloneUnder r clone).runOn q).1 = .error (.misused .wordOverflow)
  · exact .inr overflow
  · have all := cloned.allCopyable_clone
    have there : ∀ x, q.Reaches clone x → ∃ s, q.scope? x = some s :=
      fun x reaches => (all x reaches).imp fun _ found => found.1
    exact .inl ((formed.succeeds_iff_of_there cloned.neverCycles rfl overflow there).2 ⟨host, all⟩)

/--
When a clone succeeds, for a source that never reaches itself and counters that
do not run out: it ends, with the same outcome for all fuel above the number of
scopes; it succeeds just when its parent is there and all that it reaches can be
cloned; what it fails on is never an unprepared label; and what it makes can be
cloned again.  Operands that dangled may name scopes that the clone itself has
added; where none dangles, success can be read off the program before.
-/
theorem cloneUnder_succeeds_iff (reachable : p.Reachable) (acyclic : p.NeverCycles source)
    {r : Renaming} {outcome : Except Fault ScopeId}
    (run : (cloneUnder r source).runOn p = (outcome, q))
    (bounded : outcome ≠ .error (.misused .wordOverflow)) :
    (∀ fuel, p.scopes.size < fuel → (cloneWithin fuel r source).runOn p = (outcome, q)) ∧
      (∀ x, outcome ≠ .error (.misused (.selfNested x))) ∧
      ((∃ c, outcome = .ok c) ↔ (∃ h, p.scope? r.host = some h) ∧ q.AllCopyable source) ∧
      ((∀ x, p.Reaches source x → ∃ s, p.scope? x = some s) →
        ((∃ c, outcome = .ok c) ↔ (∃ h, p.scope? r.host = some h) ∧ p.AllCopyable source)) ∧
      (∀ l, outcome ≠ .error (.misused (.labelNotPrepared l))) ∧
      (∀ t, outcome = .error (.misused (.temporaryNotPrepared t)) →
        ∃ x s g, q.Reaches source x ∧ q.scope? x = some s ∧ s.graph = some g ∧
          .temp t ∈ s.blockArgs.flatMap (·.mentions) ∧ .temp t ∉ g.mentions) ∧
      ∀ c, outcome = .ok c → q.AllCopyable c ∧ q.NeverCycles c ∧
        ∀ r' : Renaming, (∃ h, q.scope? r'.host = some h) →
          (∃ d, ((cloneUnder r' c).runOn q).1 = .ok d) ∨
            ((cloneUnder r' c).runOn q).1 = .error (.misused .wordOverflow) := by
  have formed := reachable.wellFormed
  refine ⟨?_, ?_, ?_, ?_, ?_, ?_, ?_⟩
  · intro fuel enough
    rw [formed.cloneWithin_eq acyclic r enough, run]
  · intro x exhausted
    have sound := formed.cloneUnder_ne_selfNested acyclic r x
    rw [run] at sound
    exact sound exhausted
  · exact formed.succeeds_iff acyclic run bounded
  · exact formed.succeeds_iff_of_there acyclic run bounded
  · rintro l rfl
    rcases formed.reason acyclic run with overflow | ⟨x, -, blocks⟩ | ⟨-, absent⟩
    · cases overflow
    · cases blocks
    · cases absent
  · rintro t rfl
    rcases formed.reason acyclic run with overflow | ⟨x, reaches, blocks⟩ | ⟨-, absent⟩
    · cases overflow
    · cases blocks with
      | temporary found graph passed absent =>
        exact ⟨x, _, _, reaches, found, graph, passed, absent⟩
    · cases absent
  · rintro c rfl
    obtain ⟨flat, nearest, step, -, cloned⟩ := formed.cloned run
    have after := (step.hosts (formed.hosts nearest)).formed
    exact ⟨cloned.allCopyable_clone, cloned.neverCycles, fun r' => cloned.succeeds_again after⟩

/-- Two closures that can be cloned: the clone succeeds, and can be cloned in turn. -/
theorem succeeds_twoClosures :
    (twoClosures []).NeverCycles ⟨2⟩ ∧
      ((twoClosures []).after (cloneUnder (.under ⟨0⟩) ⟨2⟩)).AllCopyable ⟨3⟩ := by
  have acyclic : (twoClosures []).NeverCycles ⟨2⟩ :=
    neverCycles_of_not_descends (n := 2) (by decide +kernel)
  have run : (cloneUnder (.under ⟨0⟩) ⟨2⟩).runOn (twoClosures []) =
      (.ok ⟨3⟩, (twoClosures []).after (cloneUnder (.under ⟨0⟩) ⟨2⟩)) :=
    Prod.ext (by decide +kernel) rfl
  obtain ⟨-, -, -, -, -, -, again⟩ :=
    cloneUnder_succeeds_iff (reachable_twoClosures []) acyclic run (by decide)
  exact ⟨acyclic, (again ⟨3⟩ rfl).1⟩

/--
Success cannot always be read off the program before: here an operand names a
scope that is not there yet, and the clone itself adds one in that place.
-/
theorem not_forall_succeeds_iff_before :
    ¬ ∀ (p : Program) (source : ScopeId) (r : Renaming), p.Reachable → p.NeverCycles source →
      ((cloneUnder r source).runOn p).1 ≠ .error (.misused .wordOverflow) →
      ((∃ c, ((cloneUnder r source).runOn p).1 = .ok c) ↔
        (∃ h, p.scope? r.host = some h) ∧ p.AllCopyable source) := by
  intro claimed
  have done : ((cloneUnder (.under ⟨0⟩) ⟨2⟩).runOn (twoClosures [.closure ⟨4⟩])).1 = .ok ⟨3⟩ := by
    decide +kernel
  have acyclic : (twoClosures [.closure ⟨4⟩]).NeverCycles ⟨2⟩ :=
    neverCycles_of_not_descends (n := 2) (by decide +kernel)
  have held : (twoClosures [.closure ⟨4⟩]).Holds ⟨2⟩ ⟨4⟩ := by decide +kernel
  have absent : (twoClosures [.closure ⟨4⟩]).scope? ⟨4⟩ = none := by decide +kernel
  obtain ⟨-, all⟩ := (claimed _ ⟨2⟩ (.under ⟨0⟩) (reachable_twoClosures [.closure ⟨4⟩]) acyclic
    (by simp [done])).1 ⟨⟨3⟩, done⟩
  obtain ⟨s, found, -⟩ := all ⟨4⟩ (.single held)
  cases absent.symm.trans found

end Program

end ClosureIR
