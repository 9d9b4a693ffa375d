import ClosureIR.Proofs.Ledger.Supplies

/-!
# Requests as rows of writes

Whatever a request does, it does in writes that hand out names, temporaries or
nothing, also when it fails, and also when it clones closures that lie in one
another.
-/

namespace ClosureIR

open BuildM Relation

namespace Program

variable {p q : Program} {id : ScopeId} {s after : Scope} {may : ScopeId → Deed → Prop}

/-! ## Elementary changes -/

theorem logs_edit {deed : Deed} (found : p.scope? id = some s) (edited : s.Edit id deed after)
    (indexless : deed ≠ .temporary) : p.Logs (p.replace id after) := by
  by_cases named : deed = .name
  · subst named
    cases edited with
    | name minted => exact ⟨_, .single (.name found minted)⟩
  · exact ⟨[], .single (.other found (edited.keeps named indexless))⟩

/-- A closure is added with its first and its last label. -/
theorem logs_push_closure (stem : String)
    (ends : s.ends = [⟨numbered (stem ++ "START") 0⟩, ⟨numbered (stem ++ "END") 0⟩])
    (names : s.names = ClosureData.firstNames stem) (temporaries : s.temporaries = 0) :
    p.Logs (p.push s) :=
  ⟨_, .single (.closure ends names temporaries)⟩

/-- A change that makes no temporary: those depend on who asks for them. -/
theorem Change.logs (change : p.Change may q) (indexless : ∀ x, ¬ may x .temporary) : p.Logs q := by
  cases change with
  | @edit id deed s after found edited allowed =>
    apply logs_edit found edited
    rintro rfl
    exact indexless id allowed
  | script fileName => exact ⟨_, .single (.flat rfl rfl rfl)⟩
  | method found name line static => exact ⟨_, .single (.flat rfl rfl rfl)⟩
  | block found nearest host minted deep forLoop line static signature =>
    have counted := logs_edit host (.number minted) (by simp)
    exact counted.trans (logs_push_closure (Scope.closureStem forLoop) rfl rfl rfl)
  | evalUnit nearest host minted deep fileName line static stem =>
    have counted := logs_edit host (.number minted) (by simp)
    exact counted.trans (logs_push_closure stem rfl rfl rfl)

theorem Changes.logs (changes : p.Changes may q) (indexless : ∀ x, ¬ may x .temporary) :
    p.Logs q := by
  induction changes with
  | refl => exact .refl _
  | tail _ last ih => exact ih.trans (last.logs indexless)

theorem logs_newClosureNumber (id : ScopeId) : (newClosureNumber id).Through Logs := by
  intro p
  refine Leaves.weaken (changes_newClosureNumber id p) fun q changes => ?_
  exact .single (Changes.logs changes fun x => by simp)

/-! ## Clones -/

/-- A body is filled in with labels that the clone has handed out. -/
theorem keeps_withBody (source : ClosureData) {child : Renaming} (body : Graph) (args : List Operand)
    (issued : ∀ l renamed, child.label? l = some renamed → s.Issued renamed.name) :
    s.Keeps (s.withBody source child body args) := by
  have either (old mine : Label) (known : mine ∈ s.ends) :
      (child.label? old).getD mine ∈ s.ends ∨ s.Issued ((child.label? old).getD mine).name := by
    cases renames : child.label? old with
    | none => exact .inl known
    | some renamed => exact .inr (issued old renamed renames)
  cases closed : s.closure with
  | none =>
    have bare : (s.withBody source child body args).closure = none := by
      simp [Scope.withBody, Scope.withClosure, closed]
    refine ⟨rfl, rfl, by rw [bare, closed], fun l member => ?_⟩
    simp [Scope.ends, bare] at member
  | some data =>
    refine ⟨rfl, rfl, by simp [Scope.withBody, Scope.withClosure, closed], fun l member => ?_⟩
    simp only [Scope.ends, Scope.withBody, Scope.withClosure, closed, Option.map_some] at member
    rcases List.mem_pair.1 member with rfl | rfl
    · exact either _ _ (by simp [Scope.ends, closed])
    · exact either _ _ (by simp [Scope.ends, closed])

/-- The body is copied, with the closures in it, and filled in. -/
theorem logs_filled {nested : ScopeId → BuildM ScopeId} (clones : ∀ x, (nested x).Through Logs)
    (child : Renaming) (clone : ScopeId) (g : Graph) (data : ClosureData)
    (issued : ∀ t c, q.Logs t → t.scope? clone = some c →
      ∀ l renamed, child.label? l = some renamed → c.Issued renamed.name) :
    (do
      let body ← g.renamed nested child clone
      let blockArgs ← Operand.renamedAll nested child data.blockArgs
      adjust clone (·.withBody data child body blockArgs)
      return clone : BuildM ScopeId).Leaves q fun t => q.Logs t := by
  have copying := fun x : ScopeId =>
    (⟨rfl, clones x⟩ : nested x = nested x ∧ (nested x).Through Logs)
  have bodies := (g.related_renamed (sequential_through Logs) copying child clone).2
  have passed := (Operand.related_renamedAll (sequential_through Logs) copying child data.blockArgs).2
  refine yields_bind.2 ((bodies q).mono (fun body t copied => ?_) fun _ _ => logs_of_row)
  refine yields_bind.2 ((passed t).mono (fun args u more => ?_)
    fun _ _ more => logs_of_row (copied.trans more))
  have before : q.Logs u := logs_of_row (copied.trans more)
  refine yields_bind.2 (yields_ask_bind.2 ⟨fun c found => ?_, fun _ _ => before⟩)
  rw [scope_eq_ok_iff] at found
  have kept := keeps_withBody data body args (issued u c before found)
  exact before.trans ⟨_, .single (.other found kept)⟩

theorem logs_cloneStep {nested : Renaming → ScopeId → BuildM ScopeId}
    (clones : ∀ r x, (nested r x).Through Logs) (r : Renaming) (source : ScopeId) :
    (cloneStep nested r source).Through Logs := by
  apply (through_ask _).bind
  intro s
  apply Through.bind (through_requireClosure source)
  intro data
  apply Through.bind (through_requireGraph source)
  intro g
  apply (logs_newClosureNumber r.host).bind
  intro number p
  apply yields_bind.2
  rw [yields_addScope]
  have pushed : p.Logs (p.push (s.cloneShell data r.host number p.nextId)) :=
    logs_push_closure ("_CLOSURE_CLONE_" ++ toString number ++ "_") rfl rfl rfl
  have prepared := Renaming.extended_coverAll g.mentions (r.derive source p.nextId)
    (p.push (s.cloneShell data r.host number p.nextId))
  refine yields_bind.2 (prepared.mono ?_ fun _ _ logs => .single (pushed.trans logs))
  rintro child q ⟨host, labels, temps, named, -, supplies⟩
  have opened := pushed.trans supplies.logs
  apply (logs_filled (clones child) child p.nextId g data ?_).mono
  · exact fun _ _ filled => .single (opened.trans filled)
  · exact fun _ _ filled => .single (opened.trans filled)
  · -- The renaming of the clone begins empty, so all its labels were handed out by the clone.
    intro t c later found l renamed renames
    have value := Dict.mem_values_of_get? renames
    rw [named] at value
    exact supplies.issued later value found

theorem logs_cloneWithin (fuel : Nat) (r : Renaming) (source : ScopeId) :
    (cloneWithin fuel r source).Through Logs := by
  induction fuel generalizing r source with
  | zero => exact fun p => .refl
  | succ fuel ih => exact logs_cloneStep ih r source

theorem logs_cloneUnder (r : Renaming) (source : ScopeId) : (cloneUnder r source).Through Logs := by
  intro p
  apply yields_bind.2
  rw [yields_get]
  exact logs_cloneWithin _ r source p

end Program

/-- So do all requests that clone. -/
theorem Request.logs_clones {α : Type} (r : Request α) {host : ScopeId}
    (copies : r.cloneHost? = some host) : r.run.Through Program.Logs := by
  have each (r : Renaming) (x : ScopeId) :
      Program.cloneUnder r x = Program.cloneUnder r x ∧ (Program.cloneUnder r x).Through Program.Logs :=
    ⟨rfl, Program.logs_cloneUnder r x⟩
  cases r with
  | cloneClosure source parent => exact Program.logs_cloneUnder (.under parent) source
  | cloneUnder r source => exact Program.logs_cloneUnder r source
  | cloneOperand r o =>
    exact (o.related_renamed (Program.sequential_through _) (each r) r).2
  | cloneGuard r g => exact (g.related_renamed (Program.sequential_through _) (each r) r).2
  | cloneInstr r i => exact (i.related_renamed (Program.sequential_through _) (each r) r).2
  | cloneGraph r owner g =>
    exact (g.related_renamed (Program.sequential_through _) (each r) r owner).2
  | _ => cases copies

end ClosureIR
