import ClosureIR.Proofs.Outcome

/-!
# Copying with two ways to clone

Copying does to nested closures what it is told to and otherwise reads names
off a renaming.  What relates two ways to clone a closure therefore relates the
ways to copy all that has closures in it.
-/

namespace ClosureIR

open BuildM

namespace BuildM

/-- Values and new names are related to themselves, and so are sequences of related operations. -/
structure Sequential (Rel : {α : Type} → BuildM α → BuildM α → Prop) : Prop where
  value : ∀ {α : Type} (a : α), Rel (pure a) (pure a)
  renameLabel : ∀ (r : Renaming) (l : Label), Rel (ofMisuse (r.renameLabel l)) (ofMisuse (r.renameLabel l))
  renameVariable : ∀ (r : Renaming) (v : Variable),
    Rel (ofMisuse (r.renameVariable v)) (ofMisuse (r.renameVariable v))
  bind : ∀ {α β : Type} {op op' : BuildM α} {next next' : α → BuildM β}, Rel op op' →
    (∀ a, Rel (next a) (next' a)) → Rel (op >>= next) (op' >>= next')

/-- What holds of values, of new names and of sequences holds of every copy that is made with it. -/
theorem sequential_of_bind {P : {α : Type} → BuildM α → Prop} (value : ∀ {α : Type} (a : α), P (pure a))
    (renameLabel : ∀ (r : Renaming) (l : Label), P (ofMisuse (r.renameLabel l)))
    (renameVariable : ∀ (r : Renaming) (v : Variable), P (ofMisuse (r.renameVariable v)))
    (bind : ∀ {α β : Type} {op : BuildM α} {next : α → BuildM β}, P op → (∀ a, P (next a)) →
      P (op >>= next)) :
    Sequential fun op op' => op' = op ∧ P op where
  value a := ⟨rfl, value a⟩
  renameLabel r l := ⟨rfl, renameLabel r l⟩
  renameVariable r v := ⟨rfl, renameVariable r v⟩
  bind first others := by
    obtain ⟨rfl, holds⟩ := first
    have same := funext fun a => (others a).1
    exact ⟨by rw [same], bind holds fun a => (others a).2⟩

end BuildM

variable {Rel : {α : Type} → BuildM α → BuildM α → Prop} {nested nested' : ScopeId → BuildM ScopeId}

namespace Operand

mutual

theorem related_renamed (seq : Sequential Rel) (clones : ∀ x, Rel (nested x) (nested' x))
    (r : Renaming) : ∀ o : Operand, Rel (o.renamed nested r) (o.renamed nested' r) := by
  intro o
  cases o with
  | nil => exact seq.value _
  | boolean b => exact seq.value _
  | fixnum n => exact seq.value _
  | string s => exact seq.value _
  | symbol s => exact seq.value _
  | self => exact seq.value _
  | var v => exact seq.bind (seq.renameVariable _ _) fun _ => seq.value _
  | label l => exact seq.bind (seq.renameLabel _ _) fun _ => seq.value _
  | splat inner => exact seq.bind (related_renamed seq clones r inner) fun _ => seq.value _
  | array elements => exact seq.bind (related_renamedAll seq clones r elements) fun _ => seq.value _
  | closure id => exact seq.bind (clones id) fun _ => seq.value _

theorem related_renamedAll (seq : Sequential Rel) (clones : ∀ x, Rel (nested x) (nested' x))
    (r : Renaming) : ∀ os : List Operand, Rel (renamedAll nested r os) (renamedAll nested' r os) := by
  intro os
  cases os with
  | nil => exact seq.value _
  | cons o rest =>
    apply seq.bind (related_renamed seq clones r o)
    intro _
    exact seq.bind (related_renamedAll seq clones r rest) fun _ => seq.value _

end

theorem related_renamedOption (seq : Sequential Rel) (clones : ∀ x, Rel (nested x) (nested' x))
    (r : Renaming) (o : Option Operand) :
    Rel (renamedOption nested r o) (renamedOption nested' r o) := by
  cases o with
  | none => exact seq.value _
  | some o => exact seq.bind (related_renamed seq clones r o) fun _ => seq.value _

end Operand

theorem Guard.related_renamed (seq : Sequential Rel) (clones : ∀ x, Rel (nested x) (nested' x))
    (r : Renaming) (g : Guard) : Rel (g.renamed nested r) (g.renamed nested' r) := by
  apply seq.bind (g.candidate.related_renamed seq clones r)
  intro _
  exact seq.bind (seq.renameLabel _ _) fun _ => seq.value _

namespace Instr

theorem related_renamed (seq : Sequential Rel) (clones : ∀ x, Rel (nested x) (nested' x))
    (r : Renaming) (i : Instr) : Rel (i.renamed nested r) (i.renamed nested' r) := by
  have operand (o : Operand) : Rel (o.renamed nested r) (o.renamed nested' r) :=
    o.related_renamed seq clones r
  cases i with
  | copy result source =>
    exact seq.bind (seq.renameVariable _ _) fun _ => seq.bind (operand source) fun _ => seq.value _
  | receive result index => exact seq.bind (seq.renameVariable _ _) fun _ => seq.value _
  | receiveOpt result index default =>
    exact seq.bind (seq.renameVariable _ _) fun _ => seq.bind (operand default) fun _ => seq.value _
  | receiveRest result index => exact seq.bind (seq.renameVariable _ _) fun _ => seq.value _
  | label l => exact seq.bind (seq.renameLabel _ _) fun _ => seq.value _
  | jump target => exact seq.bind (seq.renameLabel _ _) fun _ => seq.value _
  | branchFalse condition target =>
    exact seq.bind (operand condition) fun _ => seq.bind (seq.renameLabel _ _) fun _ => seq.value _
  | call result receiver method args closure =>
    have written : Rel (renamedResult r result) (renamedResult r result) := by
      cases result with
      | none => exact seq.value _
      | some v => exact seq.bind (seq.renameVariable _ _) fun _ => seq.value _
    refine seq.bind written fun _ => seq.bind (operand receiver) fun _ => ?_
    apply seq.bind (Operand.related_renamedAll seq clones r args)
    intro _
    exact seq.bind (Operand.related_renamedOption seq clones r closure) fun _ => seq.value _
  | ret value => exact seq.bind (operand value) fun _ => seq.value _
  | guard g => exact seq.bind (g.related_renamed seq clones r) fun _ => seq.value _

theorem related_renamedAll (seq : Sequential Rel) (clones : ∀ x, Rel (nested x) (nested' x))
    (r : Renaming) (is : List Instr) : Rel (renamedAll nested r is) (renamedAll nested' r is) := by
  induction is with
  | nil => exact seq.value _
  | cons i rest ih =>
    exact seq.bind (i.related_renamed seq clones r) fun _ => seq.bind ih fun _ => seq.value _

end Instr

namespace Block

theorem related_renamed (seq : Sequential Rel) (clones : ∀ x, Rel (nested x) (nested' x))
    (r : Renaming) (b : Block) : Rel (b.renamed nested r) (b.renamed nested' r) := by
  apply seq.bind (Instr.related_renamedAll seq clones r b.instrs)
  intro _
  exact seq.bind (seq.renameLabel _ _) fun _ => seq.value _

theorem related_renamedAll (seq : Sequential Rel) (clones : ∀ x, Rel (nested x) (nested' x))
    (r : Renaming) (bs : List Block) : Rel (renamedAll nested r bs) (renamedAll nested' r bs) := by
  induction bs with
  | nil => exact seq.value _
  | cons b rest ih =>
    exact seq.bind (b.related_renamed seq clones r) fun _ => seq.bind ih fun _ => seq.value _

end Block

theorem Graph.related_renamed (seq : Sequential Rel) (clones : ∀ x, Rel (nested x) (nested' x))
    (r : Renaming) (owner : ScopeId) (g : Graph) :
    Rel (g.renamed nested r owner) (g.renamed nested' r owner) :=
  seq.bind (Block.related_renamedAll seq clones r g.blocks) fun _ => seq.value _

end ClosureIR
