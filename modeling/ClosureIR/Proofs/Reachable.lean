import ClosureIR.Proofs.Clone.Run
import ClosureIR.Proofs.Copying
import ClosureIR.Proofs.Request

/-!
# Reachable programs

A program is reached from an empty one by requests, in any order and also by
those that fail.  All programs that are reached are well formed.
-/

namespace ClosureIR

open BuildM Relation

namespace Program

/-- The program that an operation leaves, also when it fails. -/
def after {α : Type} (p : Program) (op : BuildM α) : Program := (op.runOn p).2

inductive Reachable : Program → Prop where
  | start (options : Options) : Reachable { options }
  | step {α : Type} {p : Program} (before : Reachable p) (r : Request α) : Reachable (p.after r.run)

theorem Reachable.of_runOn {α : Type} {p q : Program} {answer : Except Fault α}
    (reachable : p.Reachable) (r : Request α) (run : r.run.runOn p = (answer, q)) :
    q.Reachable := by
  have reached := reachable.step r
  rwa [after, run] at reached

/--
One step of an operation on a well-formed program: an elementary change, or all
that a clone does under one method or script.
-/
def Advances (p q : Program) : Prop :=
  p.WellFormed → p.Change anything q ∨ ∃ flat, p.Hosts flat ∧ p.Cloning flat q

/-- What holds of a well-formed program and is kept by every step is kept by a row of them. -/
theorem WellFormed.row {I : Program → Prop} {p q : Program} (formed : p.WellFormed)
    (change : ∀ p q, p.WellFormed → I p → p.Change anything q → I q)
    (clone : ∀ p q flat, p.Hosts flat → I p → p.Cloning flat q → I q)
    (row : ReflTransGen Advances p q) (holds : I p) : q.WellFormed ∧ I q := by
  induction row with
  | refl => exact ⟨formed, holds⟩
  | tail _ last ih =>
    obtain ⟨formed, holds⟩ := ih
    obtain changed | ⟨flat, hosts, cloning⟩ := last formed
    · exact ⟨formed.change changed, change _ _ formed holds changed⟩
    · exact ⟨(cloning.hosts hosts).formed, clone _ _ flat hosts holds cloning⟩

/-- What a clone does to a well-formed program. -/
theorem WellFormed.yields_clone {p : Program} (formed : p.WellFormed) (fuel : Nat) (r : Renaming)
    (source : ScopeId) :
    (∃ flat, p.nearestFlat r.host = .ok flat ∧ (cloneWithin (fuel + 1) r source).Leads (Cloning flat) p
      (fun c q => c = p.nextId ∧ q.IsClone r.host r.names.owner source c)
      fun fault q => q.Stuck (fuel + 1) source fault) ∨
    (p.scope? r.host = none ∧ (cloneWithin (fuel + 1) r source).Yields p (fun _ _ => False)
      fun fault q => q = p ∧
        (p.Blocks source fault ∨ fault = .misused (.noSuchScope p.scopes.size r.host.index))) := by
  cases missing : p.scope? r.host with
  | none => exact .inr ⟨rfl, yields_cloneStep_of_missing formed missing⟩
  | some host =>
    obtain ⟨flat, nearest⟩ := formed.exists_nearestFlat (lt_size_of_scope? missing)
    exact .inl ⟨flat, nearest,
      clonesNested_cloneWithin (fuel + 1) r source flat p (formed.hosts nearest) nearest⟩

/-- All that clones in the scope `host` do, if it is there: they lie under one method or script. -/
def ClonesUnder (host : ScopeId) (p q : Program) : Prop :=
  p.WellFormed → q = p ∨ ∃ flat, p.nearestFlat host = .ok flat ∧ p.Cloning flat q

theorem through_cloneUnder (r : Renaming) (source : ScopeId) :
    (cloneUnder r source).Through (ClonesUnder r.host) := by
  intro p
  apply yields_bind.2
  rw [yields_get]
  by_cases formed : p.WellFormed
  · obtain ⟨flat, nearest, cloning⟩ | ⟨missing, fails⟩ :=
      formed.yields_clone p.scopes.size r source
    · apply cloning.mono
      · exact fun _ q done => .single fun _ => .inr ⟨flat, nearest, done.1⟩
      · exact fun _ q done => .single fun _ => .inr ⟨flat, nearest, done.1⟩
    · apply fails.mono (fun _ _ never => never.elim)
      rintro fault _ ⟨rfl, -⟩
      exact .refl
  · have anything : ∀ q, ReflTransGen (ClonesUnder r.host) p q :=
      fun q => .single fun here => absurd here formed
    unfold Yields
    split
    · exact anything _
    · exact anything _

/-- Clones in one scope that follow each other are like one. -/
theorem WellFormed.clonesUnder {p q : Program} {host : ScopeId} (formed : p.WellFormed)
    (row : ReflTransGen (ClonesUnder host) p q) :
    q = p ∨ ∃ flat, p.nearestFlat host = .ok flat ∧ p.Cloning flat q := by
  induction row with
  | refl => exact .inl rfl
  | tail _ last ih =>
    obtain rfl | ⟨flat, nearest, cloning⟩ := ih
    · exact last formed
    · have hosts := formed.hosts nearest
      obtain rfl | ⟨flat', nearest', more⟩ := last (cloning.hosts hosts).formed
      · exact .inr ⟨flat, nearest, cloning⟩
      · cases ((cloning.grown hosts).outlines.nearestFlat nearest).symm.trans nearest'
        exact .inr ⟨flat, nearest, cloning.trans more⟩

/-- Sequencing respects rows of steps. -/
theorem sequential_through (R : Program → Program → Prop) :
    Sequential fun op op' => op' = op ∧ op.Through R :=
  sequential_of_bind through_pure (fun r l => through_ofMisuse (r.renameLabel l))
    (fun r v => through_ofMisuse (r.renameVariable v)) Through.bind

end Program

namespace Request

open Program

variable {α : Type}

/-- A request that clones does nothing else. -/
theorem clones (r : Request α) {host : ScopeId} (copies : r.cloneHost? = some host) :
    r.run.Through (ClonesUnder host) := by
  cases r with
  | cloneClosure source parent =>
    cases copies
    exact through_cloneUnder (.under _) source
  | cloneUnder r source =>
    cases copies
    exact through_cloneUnder r source
  | cloneOperand r o =>
    cases copies
    exact (o.related_renamed (sequential_through _) (fun x => ⟨rfl, through_cloneUnder r x⟩) r).2
  | cloneGuard r g =>
    cases copies
    exact (g.related_renamed (sequential_through _) (fun x => ⟨rfl, through_cloneUnder r x⟩) r).2
  | cloneInstr r i =>
    cases copies
    exact (i.related_renamed (sequential_through _) (fun x => ⟨rfl, through_cloneUnder r x⟩) r).2
  | cloneGraph r owner g =>
    cases copies
    exact (g.related_renamed (sequential_through _) (fun x => ⟨rfl, through_cloneUnder r x⟩) r
      owner).2
  | _ => cases copies

/-- Whatever a request does to a program, it does in such steps. -/
theorem advances (r : Request α) : r.run.Through Advances := by
  intro p
  cases copies : r.cloneHost? with
  | none =>
    refine (r.changes copies p).weaken fun q changes => ?_
    exact ReflTransGen.mono (fun _ _ change _ => .inl (change.mono fun _ _ _ => trivial)) _ _ changes
  | some host =>
    refine Leaves.weaken (r.clones copies p) fun q row => ?_
    by_cases formed : p.WellFormed
    · obtain rfl | ⟨flat, nearest, cloning⟩ := formed.clonesUnder row
      · exact .refl
      · exact .single fun _ => .inr ⟨flat, formed.hosts nearest, cloning⟩
    · exact .single fun here => absurd here formed

end Request

namespace Program

/-- What holds of empty programs and is kept by every step holds of all programs that are reached. -/
theorem Reachable.invariant {I : Program → Prop} {p : Program} (reachable : p.Reachable)
    (start : ∀ options, I { options })
    (change : ∀ p q, p.WellFormed → I p → p.Change anything q → I q)
    (clone : ∀ p q flat, p.Hosts flat → I p → p.Cloning flat q → I q) : p.WellFormed ∧ I p := by
  induction reachable with
  | start options => exact ⟨.empty options, start options⟩
  | @step α p before r ih =>
    have row : ReflTransGen Advances p (p.after r.run) := (r.advances p).after
    exact ih.1.row change clone row ih.2

theorem Reachable.wellFormed {p : Program} (reachable : p.Reachable) : p.WellFormed :=
  (reachable.invariant (I := fun _ => True) (fun _ => trivial) (fun _ _ _ _ _ => trivial)
    fun _ _ _ _ _ _ => trivial).1

def twoClosures (others : List Operand) : Program :=
  ({} : Program)
    |>.after (newScript "main.rb")
    |>.after (newClosure ⟨0⟩ false 1 none {})
    |>.after (buildGraph ⟨1⟩)
    |>.after (newClosure ⟨0⟩ false 2 none {})
    |>.after (addInstr ⟨2⟩ (.ret (.array (.closure ⟨1⟩ :: others))))
    |>.after (buildGraph ⟨2⟩)

theorem reachable_twoClosures (others : List Operand) : (twoClosures others).Reachable :=
  Reachable.start {}
    |>.step (.newScript "main.rb")
    |>.step (.newClosure ⟨0⟩ false 1 none {})
    |>.step (.buildGraph ⟨1⟩)
    |>.step (.newClosure ⟨0⟩ false 2 none {})
    |>.step (.addInstr ⟨2⟩ (.ret (.array (.closure ⟨1⟩ :: others))))
    |>.step (.buildGraph ⟨2⟩)

def loopInClosure : Program :=
  ({} : Program)
    |>.after (newScript "main.rb")
    |>.after (newClosure ⟨0⟩ false 1 none {})
    |>.after (newLocal ⟨1⟩ "x" 0)
    |>.after (newClosure ⟨1⟩ true 2 none {})
    |>.after (buildGraph ⟨2⟩)
    |>.after (addInstr ⟨1⟩ (.ret (.closure ⟨2⟩)))
    |>.after (buildGraph ⟨1⟩)

theorem reachable_loopInClosure : loopInClosure.Reachable :=
  Reachable.start {}
    |>.step (.newScript "main.rb")
    |>.step (.newClosure ⟨0⟩ false 1 none {})
    |>.step (.newLocal ⟨1⟩ "x" 0)
    |>.step (.newClosure ⟨1⟩ true 2 none {})
    |>.step (.buildGraph ⟨2⟩)
    |>.step (.addInstr ⟨1⟩ (.ret (.closure ⟨2⟩)))
    |>.step (.buildGraph ⟨1⟩)

end Program

end ClosureIR
