import ClosureIR.Proofs.Lexical.Ends
import ClosureIR.Proofs.Reachable

/-!
# No parent is missing

An operation that misses the parent of a closure leaves a program that is not
well formed.  So none does on a program that was reached.
-/

namespace ClosureIR

open BuildM

namespace BuildM

open Program

variable {α β : Type}

/-- When the operation misses a parent, the program that it leaves is not well formed. -/
def Parented (op : BuildM α) : Prop :=
  ∀ p, op.Yields p (fun _ _ => True)
    fun fault q => ∀ name, fault = .misused (.orphan name) → ¬ q.WellFormed

theorem Parented.bind {op : BuildM α} {next : α → BuildM β} (first : op.Parented)
    (others : ∀ a, (next a).Parented) : (op >>= next).Parented := by
  intro p
  exact yields_bind.2 ((first p).mono (fun a q _ => others a q) fun _ _ blamed => blamed)

theorem parented_pure (a : α) : (pure a : BuildM α).Parented := fun _ => trivial

theorem parented_refuse (r : Refusal) : (refuse r : BuildM α).Parented := by
  intro p name same
  cases same

theorem parented_misuse {m : Misuse} (other : ∀ name, m ≠ .orphan name) :
    (misuse m : BuildM α).Parented := by
  intro p name same
  exact absurd (Fault.misused.inj same) (other name)

theorem parented_ofMisuse {e : Except Misuse α} (other : ∀ name, e ≠ .error (.orphan name)) :
    (ofMisuse e).Parented := by
  cases e with
  | ok a => exact parented_pure a
  | error m => exact parented_misuse fun name same => other name (congrArg _ same)

theorem parented_ofRefusal (e : Except Refusal α) : (ofRefusal e).Parented := by
  cases e with
  | ok a => exact parented_pure a
  | error r => exact parented_refuse r

theorem parented_ask {f : Program → Except Misuse α}
    (answers : ∀ p : Program, p.WellFormed → ∀ name, f p ≠ .error (.orphan name)) :
    (ask f).Parented := by
  intro p
  refine yields_ask.2 ⟨fun _ _ => trivial, fun m failed name same formed => ?_⟩
  exact answers p formed name (failed.trans (congrArg _ (Fault.misused.inj same)))

theorem parented_scope (id : ScopeId) : (ask (·.scope id)).Parented := by
  refine parented_ask fun p _ name failed => ?_
  cases (scope_eq_error_iff.1 failed).2

theorem parented_mint (id : ScopeId) (f : Scope → Option (α × Scope)) : (mint id f).Parented := by
  intro p
  refine yields_mint (fun _ _ _ _ _ => trivial) (fun _ _ _ name same => ?_) fun _ name same => ?_
  · cases same
  · cases same

theorem parented_adjust (id : ScopeId) (f : Scope → Scope) : (adjust id f).Parented :=
  (parented_scope id).bind fun _ _ => trivial

theorem parented_addScope (make : ScopeId → Scope) : (addScope make).Parented := fun _ => trivial

theorem parented_get : (get : BuildM Program).Parented := fun _ => trivial

/-- Copying asks for new names only. -/
theorem sequential_parented : Sequential fun op op' => op' = op ∧ op.Parented := by
  refine sequential_of_bind parented_pure (fun r l => ?_) (fun r v => ?_) Parented.bind
  · refine parented_ofMisuse fun name failed => ?_
    unfold Renaming.renameLabel at failed
    split at failed <;> cases failed
  · refine parented_ofMisuse fun name failed => ?_
    unfold Renaming.renameVariable at failed
    split at failed
    · cases failed
    · split at failed <;> cases failed

end BuildM

namespace Program

variable (id : ScopeId)

/-- A question with an answer for every scope of a well-formed program misses no parent. -/
theorem parented_ask_of_exists {α : Type} {f : Program → Except Misuse α}
    (missing : ∀ p : Program, p.scope? id = none →
      f p = .error (.noSuchScope p.scopes.size id.index))
    (there : ∀ (p : Program) (s : Scope), p.WellFormed → p.scope? id = some s → ∃ a, f p = .ok a) :
    (ask f).Parented := by
  refine parented_ask fun p formed name failed => ?_
  cases found : p.scope? id with
  | none => cases (missing p found).symm.trans failed
  | some s =>
    obtain ⟨a, answered⟩ := there p s formed found
    cases answered.symm.trans failed

theorem parented_nearestFlat : (ask (·.nearestFlat id)).Parented :=
  parented_ask_of_exists id (fun _ => nearestFlat_of_missing)
    fun _ _ formed found => formed.exists_nearestFlat (lt_size_of_scope? found)

theorem parented_depthUnder : (ask (·.depthUnder id)).Parented := by
  refine parented_ask_of_exists id (fun p missing => ?_) fun _ _ formed => formed.exists_depthUnder
  rw [depthUnder, scope_eq_error_iff.2 ⟨missing, rfl⟩]

theorem parented_findLocal (name : String) (depth : Nat) :
    (ask (·.findLocal id name depth)).Parented := by
  refine parented_ask_of_exists id (fun p missing => ?_)
    fun _ _ formed found => formed.exists_findLocal found name depth
  rw [findLocal, scope_eq_error_iff.2 ⟨missing, rfl⟩]

theorem parented_declarationSite (depth : Nat) : (ask (·.declarationSite id depth)).Parented := by
  refine parented_ask_of_exists id (fun p missing => ?_)
    fun _ _ formed found => formed.exists_declarationSite found depth
  rw [declarationSite, scope_eq_error_iff.2 ⟨missing, rfl⟩]

theorem parented_lookupSite : (ask (·.lookupSite id)).Parented := by
  refine parented_ask fun p formed name failed => ?_
  cases found : p.scope? id with
  | none =>
    rw [lookupSite, liveScope_of_missing found] at failed
    cases failed
  | some s =>
    obtain ⟨site, answered⟩ | ⟨name, stopped⟩ := formed.lookupSite_ends found
    · cases answered.symm.trans failed
    · cases stopped.symm.trans failed

theorem parented_requireLive : (requireLive id).Parented := by
  refine parented_ask fun p _ name failed => ?_
  obtain ⟨-, same⟩ | ⟨s, -, -, same⟩ := liveScope_eq_error_iff.1 failed
  · cases same
  · cases same

theorem parented_requireClosure : (requireClosure id).Parented := by
  apply (parented_scope id).bind
  intro s
  split
  · exact parented_pure _
  · exact parented_refuse _

theorem parented_requireGraph : (requireGraph id).Parented := by
  apply (parented_scope id).bind
  intro s
  split
  · exact parented_pure _
  · exact parented_refuse _

theorem parented_newLabelWith (stem : String) : (newLabelWith id stem).Parented :=
  (parented_requireLive id).bind fun _ => (parented_mint id _).bind fun _ => parented_pure _

theorem parented_newLabel : (newLabel id).Parented :=
  (parented_scope id).bind fun _ => parented_newLabelWith id _

theorem parented_newLabels (n : Nat) : (newLabels id n).Parented := by
  induction n with
  | zero => exact parented_pure _
  | succ n ih => exact (parented_newLabel id).bind fun _ => ih.bind fun _ => parented_pure _

theorem parented_newTemp : (newTemp id).Parented :=
  (parented_requireLive id).bind fun _ => (parented_mint id _).bind fun _ => parented_pure _

theorem parented_newNamedTemp (name : String) : (newNamedTemp id name).Parented :=
  (parented_requireLive id).bind fun _ => (parented_mint id _).bind fun _ => parented_pure _

theorem parented_newClosureNumber : (newClosureNumber id).Parented :=
  (parented_nearestFlat id).bind fun flat => parented_mint flat _

theorem parented_declare (name : String) (kind : LocalKind) : (declare id name kind).Parented := by
  refine (parented_scope id).bind fun s => Parented.bind (fun _ => trivial) fun _ => ?_
  split
  · exact Parented.bind (fun _ => trivial) fun _ => parented_pure _
  · exact parented_misuse fun _ same => by cases same

theorem parented_newLocal (name : String) (depth : Nat) : (newLocal id name depth).Parented :=
  (parented_requireLive id).bind fun _ =>
    (parented_declarationSite id depth).bind fun (site, kind) => parented_declare site name kind

theorem parented_findOrDeclare (name : String) (depth : Nat) :
    (findOrDeclare id name depth).Parented := by
  apply (parented_findLocal id name depth).bind
  intro found
  split
  · exact parented_pure _
  · exact parented_newLocal id name depth

theorem parented_getLocal (name : String) (depth : Nat) : (getLocal id name depth).Parented :=
  (parented_lookupSite id).bind fun site => (parented_scope site).bind fun _ =>
    (parented_findOrDeclare site name depth).bind fun _ => parented_pure _

theorem parented_newFlip : (newFlip id).Parented := by
  apply (parented_scope id).bind
  intro s
  split
  · exact (parented_mint id _).bind fun name => parented_newLocal id name 0
  · exact parented_misuse fun _ same => by cases same

theorem parented_implicitBlock : (implicitBlock id).Parented := by
  refine (parented_requireClosure id).bind fun data => (parented_findLocal id _ _).bind fun found => ?_
  split
  · exact parented_pure _
  · refine (parented_nearestFlat id).bind fun flat => (parented_scope flat).bind fun s => ?_
    split
    · exact (parented_newLocal flat _ 0).bind fun _ => parented_pure _
    · exact parented_newLocal id _ 0

theorem parented_newMethod (name : String) (line : Nat) (static : Option StaticScope) :
    (newMethod id name line static).Parented :=
  (parented_scope id).bind fun _ => parented_addScope _

theorem parented_newClosure (forLoop : Bool) (line : Nat) (static : Option StaticScope)
    (signature : BlockSignature) : (newClosure id forLoop line static signature).Parented :=
  (parented_scope id).bind fun _ => (parented_newClosureNumber id).bind fun _ =>
    (parented_depthUnder id).bind fun _ => parented_get.bind fun _ => parented_addScope _

theorem parented_newEvalUnit (fileName : String) (line : Nat) (static : Option StaticScope)
    (stem : String) : (newEvalUnit id fileName line static stem).Parented :=
  (parented_newClosureNumber id).bind fun _ =>
    (parented_depthUnder id).bind fun _ => parented_addScope _

theorem parented_markInlined : (markInlined id).Parented :=
  (parented_requireClosure id).bind fun _ => parented_adjust id _

theorem parented_setParameters (names : List String) : (setParameters id names).Parented :=
  (parented_requireClosure id).bind fun _ => parented_adjust id _

theorem parented_addInstr (i : Instr) : (addInstr id i).Parented :=
  (parented_requireLive id).bind fun _ _ => trivial

theorem parented_buildGraph : (buildGraph id).Parented :=
  (parented_requireLive id).bind fun _ => (parented_newLabels id _).bind fun _ =>
    (parented_ofRefusal _).bind fun _ => (parented_adjust id _).bind fun _ => parented_pure _

end Program

namespace Renaming

open Program

theorem parented_cover (r : Renaming) (n : Mention) : (r.cover n).Parented := by
  cases n with
  | label l =>
    rw [cover]
    split
    · exact parented_pure _
    · exact (parented_newLabel r.host).bind fun _ => parented_pure _
  | temp t =>
    have fresh : (freshTemp r.host t).Parented := by
      unfold freshTemp
      split
      · exact parented_newNamedTemp r.host _
      · exact parented_newTemp r.host
      · exact parented_newTemp r.host
    rw [cover]
    split
    · exact parented_pure _
    · exact fresh.bind fun _ => parented_pure _

theorem parented_coverAll (ns : List Mention) (r : Renaming) : (r.coverAll ns).Parented := by
  induction ns generalizing r with
  | nil => exact parented_pure _
  | cons n rest ih => exact (parented_cover r n).bind fun next => ih next

end Renaming

namespace Program

theorem parented_cloneStep {nested : Renaming → ScopeId → BuildM ScopeId}
    (clones : ∀ r x, (nested r x).Parented) (r : Renaming) (source : ScopeId) :
    (cloneStep nested r source).Parented := by
  refine (parented_requireLive source).bind fun s => (parented_requireClosure source).bind fun data => ?_
  refine (parented_requireGraph source).bind fun g => (parented_newClosureNumber r.host).bind fun _ => ?_
  refine (parented_addScope _).bind fun id => (Renaming.parented_coverAll _ _).bind fun child => ?_
  have copies (x : ScopeId) : nested child x = nested child x ∧ (nested child x).Parented :=
    ⟨rfl, clones child x⟩
  refine (g.related_renamed sequential_parented copies child id).2.bind fun body => ?_
  refine (Operand.related_renamedAll sequential_parented copies child data.blockArgs).2.bind fun _ => ?_
  exact (parented_adjust id _).bind fun _ => parented_pure _

theorem parented_cloneWithin (fuel : Nat) (r : Renaming) (source : ScopeId) :
    (cloneWithin fuel r source).Parented := by
  induction fuel generalizing r source with
  | zero => exact parented_misuse fun _ same => by cases same
  | succ fuel ih => exact parented_cloneStep ih r source

theorem parented_cloneUnder (r : Renaming) (source : ScopeId) : (cloneUnder r source).Parented :=
  parented_get.bind fun _ => parented_cloneWithin _ r source

/-- No request blames a program that it leaves well formed for a missing parent. -/
theorem parented_request {α : Type} (r : Request α) : r.run.Parented := by
  have copies (r : Renaming) (x : ScopeId) :
      Program.cloneUnder r x = Program.cloneUnder r x ∧ (Program.cloneUnder r x).Parented :=
    ⟨rfl, parented_cloneUnder r x⟩
  cases r with
  | newScript fileName => exact parented_addScope _
  | newMethod parent name line static => exact parented_newMethod parent name line static
  | newClosure parent forLoop line static signature =>
    exact parented_newClosure parent forLoop line static signature
  | newEvalUnit parent fileName line static stem =>
    exact parented_newEvalUnit parent fileName line static stem
  | markInlined id => exact parented_markInlined id
  | setParameters id names => exact parented_setParameters id names
  | newLabel id => exact parented_newLabel id
  | newLabelWith id stem => exact parented_newLabelWith id stem
  | newTemp id => exact parented_newTemp id
  | newNamedTemp id name => exact parented_newNamedTemp id name
  | newClosureNumber id => exact parented_newClosureNumber id
  | newLocal id name depth => exact parented_newLocal id name depth
  | getLocal id name depth => exact parented_getLocal id name depth
  | newFlip id => exact parented_newFlip id
  | implicitBlock id => exact parented_implicitBlock id
  | addInstr id i => exact parented_addInstr id i
  | buildGraph id => exact parented_buildGraph id
  | prepare r g => exact Renaming.parented_coverAll g.mentions r
  | cloneClosure source parent => exact parented_cloneUnder _ source
  | cloneUnder r source => exact parented_cloneUnder r source
  | cloneOperand r o => exact (o.related_renamed sequential_parented (copies r) r).2
  | cloneGuard r g => exact (g.related_renamed sequential_parented (copies r) r).2
  | cloneInstr r i => exact (i.related_renamed sequential_parented (copies r) r).2
  | cloneGraph r owner g => exact (g.related_renamed sequential_parented (copies r) r owner).2

/-- No request to a program that was reached fails for want of a parent. -/
theorem Reachable.ne_orphan {α : Type} {p : Program} (reachable : p.Reachable) (r : Request α)
    (name : String) : (r.run.runOn p).1 ≠ .error (.misused (.orphan name)) := by
  intro failed
  have run : r.run.runOn p = (.error (.misused (.orphan name)), p.after r.run) := Prod.ext failed rfl
  exact (parented_request r p).of_error run name rfl (reachable.step r).wellFormed

end Program

end ClosureIR
