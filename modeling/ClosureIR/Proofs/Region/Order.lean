import ClosureIR.Proofs.Lexical.Block
import ClosureIR.Proofs.Region.Logic

/-!
# Methods are built independently

The scopes under one method or script form a region.  Operations that create no
scope stay within the region of the scope that they act on, so those under
different methods commute, and sequences of them may be interleaved in any way.
-/

namespace ClosureIR

open BuildM

/-- The scope that a request acts on, if it creates none. -/
def Request.site? {α : Type} : Request α → Option ScopeId
  | newLabel id | newLabelWith id _ | newTemp id | newNamedTemp id _ | newClosureNumber id
  | newLocal id _ _ | getLocal id _ _ | newFlip id | implicitBlock id | addInstr id _ | buildGraph id
  | markInlined id | setParameters id _ => some id
  | prepare r _ => some r.host
  | _ => none

namespace Program

/-- The operations that create no scope, each with the scope that it acts on: requests, and looking up. -/
inductive ActsOn : {α : Type} → BuildM α → ScopeId → Prop where
  | request {α : Type} {id : ScopeId} (r : Request α) (site : r.site? = some id) : ActsOn r.run id
  | findLocal (id : ScopeId) (name : String) (depth : Nat) :
      ActsOn (ask (·.findLocal id name depth)) id

variable {α β : Type} {op : BuildM α} {op' : BuildM β} {S S' : ScopeId → Prop}
variable {p q p₁ p₂ : Program} {id flat flat' x y : ScopeId}

theorem local_request (r : Request α) (site : r.site? = some id) (inside : S id) : Local S r.run := by
  cases r <;> cases site
  case markInlined => exact local_markInlined inside
  case setParameters names => exact local_setParameters inside names
  case newLabel => exact local_newLabel inside
  case newLabelWith stem => exact local_newLabelWith inside stem
  case newTemp => exact local_newTemp inside
  case newNamedTemp name => exact local_newNamedTemp inside name
  case newClosureNumber => exact local_newClosureNumber inside
  case newLocal name depth => exact local_newLocal inside name depth
  case getLocal name depth => exact local_getLocal inside name depth
  case newFlip => exact local_newFlip inside
  case implicitBlock => exact local_implicitBlock inside
  case addInstr i => exact local_addInstr inside i
  case buildGraph => exact local_buildGraph inside
  case prepare r g => exact Renaming.local_coverAll g.mentions r inside

theorem ActsOn.isLocal (acts : ActsOn op id) (inside : S id) : Local S op := by
  cases acts with
  | request r site => exact local_request r site inside
  | findLocal id name depth => exact local_findLocal inside name depth

def Under (p : Program) (flat x : ScopeId) : Prop := p.nearestFlat x = .ok flat

theorem closed_under (p : Program) (flat : ScopeId) : p.Closed (p.Under flat) := by
  intro x under
  obtain ⟨s, found, ⟨outer, -⟩ | ⟨-, parent, lies, older, rest⟩⟩ := nearestFlat_cases under
  · refine ⟨s, found, fun closed => ?_⟩
    rw [outer] at closed
    cases closed
  · exact ⟨s, found, fun _ => ⟨parent, lies, older, rest⟩⟩

theorem Under.apart (under : p.Under flat x) (apart : flat ≠ flat') : ¬ p.Under flat' x := by
  intro under'
  cases under.symm.trans under'
  exact apart rfl

/-! ## Two operations -/

theorem eq_of_scope? (options : q.options = p.options)
    (scopes : ∀ x, q.scope? x = p.scope? x) : q = p := by
  cases p
  cases q
  cases options
  congr
  exact Array.ext_getElem? fun i => scopes ⟨i⟩

/-- A region is not touched by what stays within another. -/
theorem Agree.of_outside (agree : Agree S' p₂ p) (outside : Outside S p q) (apart : ∀ x, S x → ¬ S' x) :
    Agree S' p₂ q where
  closed := agree.closed
  size := outside.size.trans agree.size
  scope? x inside :=
    (outside.scope? x fun here => apart x here inside).trans (agree.scope? x inside)

theorem Outside.mono (outside : Outside S p q) (wider : ∀ x, S x → S' x) : Outside S' p q where
  options := outside.options
  size := outside.size
  scope? x beyond := outside.scope? x fun here => beyond (wider x here)

/-- Programs that come from the same one are equal when they agree on the regions that were changed. -/
theorem eq_of_agree {q' : Program} (outside : Outside (fun x => S x ∨ S' x) p q)
    (outside' : Outside (fun x => S x ∨ S' x) p q') (agree : Agree S p₁ q) (agree' : Agree S' p₂ q)
    (also : Agree S p₁ q') (also' : Agree S' p₂ q') : q = q' := by
  refine eq_of_scope? (outside.options.trans outside'.options.symm) fun x => ?_
  by_cases here : S x
  · exact (agree.scope? x here).trans (also.scope? x here).symm
  · by_cases there : S' x
    · exact (agree'.scope? x there).trans (also'.scope? x there).symm
    · have beyond : ¬ (S x ∨ S' x) := not_or.2 ⟨here, there⟩
      exact (outside.scope? x beyond).trans (outside'.scope? x beyond).symm

/-- What is done in two regions may be done in either order. -/
theorem Local.commute (first : Local S op) (second : Local S' op') (apart : ∀ x, S x → ¬ S' x)
    (closed : p.Closed S) (closed' : p.Closed S') :
    (op.runOn (p.after op')).1 = (op.runOn p).1 ∧ (op'.runOn (p.after op)).1 = (op'.runOn p).1 ∧
      (p.after op).after op' = (p.after op').after op := by
  have apart' : ∀ x, S' x → ¬ S x := fun x there here => apart x here there
  obtain ⟨-, -, here, outside⟩ := first p p closed.agree_refl
  obtain ⟨-, -, here', outside'⟩ := second p p closed'.agree_refl
  obtain ⟨same, -, agree, -⟩ := first p (p.after op') (closed.agree_refl.of_outside outside' apart')
  obtain ⟨same', -, agree', -⟩ := second p (p.after op) (closed'.agree_refl.of_outside outside apart)
  -- Either way each region is as it is after the one operation in it.
  have later := (second _ _ (closed'.agree_refl.of_outside outside apart).symm.closed.agree_refl).2.2.2
  have later' := (first _ _ (closed.agree_refl.of_outside outside' apart').symm.closed.agree_refl).2.2.2
  have beyond : Outside (fun x => S x ∨ S' x) p ((p.after op).after op') :=
    (outside.mono fun _ => .inl).trans (later.mono fun _ => .inr)
  have beyond' : Outside (fun x => S x ∨ S' x) p ((p.after op').after op) :=
    (outside'.mono fun _ => .inr).trans (later'.mono fun _ => .inl)
  exact ⟨same, same', eq_of_agree beyond beyond' (here.of_outside later apart') agree' agree
    (here'.of_outside later' apart)⟩

/-! ## Sequences -/

structure Act where
  {Answer : Type}
  op : BuildM Answer
  site : ScopeId
  acts : ActsOn op site

def Act.answer (a : Act) (p : Program) : (Answer : Type) × Except Fault Answer :=
  ⟨a.Answer, (a.op.runOn p).1⟩

def answers (p : Program) : List Act → List (Act × (Answer : Type) × Except Fault Answer)
  | [] => []
  | a :: rest => (a, a.answer p) :: (p.after a.op).answers rest

def afterAll (p : Program) : List Act → Program
  | [] => p
  | a :: rest => (p.after a.op).afterAll rest

theorem afterAll_append (p : Program) (l l' : List Act) :
    p.afterAll (l ++ l') = (p.afterAll l).afterAll l' := by
  induction l generalizing p with
  | nil => rfl
  | cons a rest ih => exact ih _

inductive Interleaves {γ : Type*} : List γ → List γ → List γ → Prop where
  | nil : Interleaves [] [] []
  | left {a : γ} {l l' both : List γ} (rest : Interleaves l l' both) :
      Interleaves (a :: l) l' (a :: both)
  | right {a : γ} {l l' both : List γ} (rest : Interleaves l l' both) :
      Interleaves l (a :: l') (a :: both)

theorem interleaves_append {γ : Type*} (l l' : List γ) : Interleaves l l' (l ++ l') := by
  induction l with
  | nil =>
    induction l' with
    | nil => exact .nil
    | cons a rest ih => exact .right ih
  | cons a rest ih => exact .left ih

/--
Two sequences in different regions are interleaved in a program that agrees on
each region with one in which a sequence is alone.
-/
theorem Interleaves.run {l l' both : List Act} (interleaves : Interleaves l l' both)
    (apart : ∀ x, S x → ¬ S' x) (inside : ∀ a ∈ l, S a.site) (inside' : ∀ a ∈ l', S' a.site)
    (agree : Agree S p₁ p) (agree' : Agree S' p₂ p) :
    Interleaves (p₁.answers l) (p₂.answers l') (p.answers both) ∧
      Agree S (p₁.afterAll l) (p.afterAll both) ∧ Agree S' (p₂.afterAll l') (p.afterAll both) ∧
      Outside (fun x => S x ∨ S' x) p (p.afterAll both) := by
  induction interleaves generalizing p p₁ p₂ with
  | nil => exact ⟨.nil, agree, agree', .refl _ p⟩
  | @left a l l' both rest ih =>
    obtain ⟨here, others⟩ := List.forall_mem_cons.1 inside
    obtain ⟨same, -, after, -⟩ := a.acts.isLocal here p₁ p agree
    have outside := (a.acts.isLocal here p p agree.symm.closed.agree_refl).2.2.2
    obtain ⟨answers, agreed, agreed', beyond⟩ :=
      ih others inside' after (agree'.of_outside outside apart)
    have answer : a.answer p = a.answer p₁ := by rw [Act.answer, Act.answer, same]
    refine ⟨?_, agreed, agreed', (outside.mono fun _ => .inl).trans beyond⟩
    rw [Program.answers, Program.answers, answer]
    exact .left answers
  | @right a l l' both rest ih =>
    obtain ⟨here, others⟩ := List.forall_mem_cons.1 inside'
    obtain ⟨same, -, after, -⟩ := a.acts.isLocal here p₂ p agree'
    have outside := (a.acts.isLocal here p p agree'.symm.closed.agree_refl).2.2.2
    obtain ⟨answers, agreed, agreed', beyond⟩ :=
      ih inside others (agree.of_outside outside fun x there here => apart x here there) after
    have answer : a.answer p = a.answer p₂ := by rw [Act.answer, Act.answer, same]
    refine ⟨?_, agreed, agreed', (outside.mono fun _ => .inr).trans beyond⟩
    rw [Program.answers, Program.answers, answer]
    exact .right answers

/--
Operations that create no scope, under two methods or scripts, may be done in
either order: both are answered as they would be alone, failures included, and
the program that is left is the same.  So every interleaving of two sequences of
such operations answers each of them as it would be answered alone, and leaves
the program that the one leaves after the other.
-/
theorem order_independent (apart : flat ≠ flat') :
    (∀ {α β : Type} {op : BuildM α} {op' : BuildM β} {x y : ScopeId}, ActsOn op x → ActsOn op' y →
      p.nearestFlat x = .ok flat → p.nearestFlat y = .ok flat' →
        (op.runOn (p.after op')).1 = (op.runOn p).1 ∧ (op'.runOn (p.after op)).1 = (op'.runOn p).1 ∧
          (p.after op).after op' = (p.after op').after op) ∧
      ∀ {l l' both : List Act}, (∀ a ∈ l, p.nearestFlat a.site = .ok flat) →
        (∀ a ∈ l', p.nearestFlat a.site = .ok flat') → Interleaves l l' both →
          Interleaves (p.answers l) (p.answers l') (p.answers both) ∧
            p.afterAll both = (p.afterAll l).afterAll l' := by
  have regions : ∀ x, p.Under flat x → ¬ p.Under flat' x := fun x under => under.apart apart
  have here := (closed_under p flat).agree_refl
  have there := (closed_under p flat').agree_refl
  constructor
  · intro α β op op' x y acts acts' under under'
    exact (acts.isLocal (S := p.Under flat) under).commute (acts'.isLocal (S := p.Under flat') under')
      regions here.closed there.closed
  · intro l l' both inside inside' interleaves
    obtain ⟨answers, agree, agree', outside⟩ := interleaves.run regions inside inside' here there
    obtain ⟨-, also, also', beyond⟩ :=
      (interleaves_append l l').run regions inside inside' here there
    rw [← afterAll_append]
    exact ⟨answers, eq_of_agree outside beyond agree agree' also also'⟩

/-- The inner closure declares a local in its method while the script makes a label and a temporary. -/
theorem order_independent_closureInClosure :
    let label : Act := ⟨_, ⟨0⟩, .request (.newLabel ⟨0⟩) rfl⟩
    let temporary : Act := ⟨_, ⟨0⟩, .request (.newTemp ⟨0⟩) rfl⟩
    let x : Act := ⟨_, ⟨3⟩, .request (.newLocal ⟨3⟩ "x" 2) rfl⟩
    ((newLabel ⟨0⟩).runOn (closureInClosure.after (newLocal ⟨3⟩ "x" 2))).1 =
        ((newLabel ⟨0⟩).runOn closureInClosure).1 ∧
      (closureInClosure.after (newLabel ⟨0⟩)).after (newLocal ⟨3⟩ "x" 2) =
        (closureInClosure.after (newLocal ⟨3⟩ "x" 2)).after (newLabel ⟨0⟩) ∧
      Interleaves (closureInClosure.answers [label, temporary]) (closureInClosure.answers [x])
        (closureInClosure.answers [label, x, temporary]) := by
  intro label temporary x
  have script : closureInClosure.nearestFlat ⟨0⟩ = .ok ⟨0⟩ := by decide +kernel
  have method : closureInClosure.nearestFlat ⟨3⟩ = .ok ⟨1⟩ := by decide +kernel
  have apart : (⟨0⟩ : ScopeId) ≠ ⟨1⟩ := by decide
  obtain ⟨commute, interleave⟩ := order_independent (p := closureInClosure) apart
  obtain ⟨answered, -, same⟩ := commute label.acts x.acts script method
  have merged : Interleaves [label, temporary] [x] [label, x, temporary] := .left (.right (.left .nil))
  have inScript : ∀ a ∈ [label, temporary], closureInClosure.nearestFlat a.site = .ok ⟨0⟩ := by
    simp [label, temporary, script]
  have inMethod : ∀ a ∈ [x], closureInClosure.nearestFlat a.site = .ok ⟨1⟩ := by simp [x, method]
  exact ⟨answered, same, (interleave inScript inMethod merged).1⟩

end Program

end ClosureIR
