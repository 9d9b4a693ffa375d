import ClosureIR.Proofs.Everywhere
import ClosureIR.Proofs.Flow.Lookup
import ClosureIR.Proofs.Flow.Paths

/-!
# Graphs that follow their instructions

The blocks of a graph that is kept are the stretches of its own instructions,
and its edges are those that the blocks call for.  A copy has this from its
original, though no builder has made it: renaming labels moves no cut, and
leads no jump to another block.
-/

namespace ClosureIR

/-! ## Stretches of copies -/

namespace Stretch

variable {m : NameMap} {sub : ScopeId → ScopeId → Prop}

structure Copied (m : NameMap) (sub : ScopeId → ScopeId → Prop) (s s' : Stretch) : Prop where
  label : s'.label = s.label.map m.label
  instrs : List.Forall₂ (Instr.Copied m sub) s.instrs s'.instrs

theorem prepend_copied {i i' : Instr} (here : i.Copied m sub i')
    {stretches stretches' : List Stretch}
    (rest : List.Forall₂ (Copied m sub) stretches stretches') :
    List.Forall₂ (Copied m sub) (prepend i stretches) (prepend i' stretches') := by
  have alone : Copied m sub ⟨i.placed?, [i]⟩ ⟨i'.placed?, [i']⟩ :=
    ⟨here.placed?, .cons here .nil⟩
  cases rest with
  | nil => exact .cons alone .nil
  | @cons s s' others others' first rest =>
    -- A stretch with a label stays as it is, and so does its copy, which has one too.
    rcases s with ⟨_ | l, body⟩
    · obtain ⟨label', body'⟩ := s'
      obtain ⟨bare, copied⟩ := first
      obtain rfl : label' = none := bare
      simp only [prepend, here.isTerminator]
      split
      · exact .cons alone (.cons ⟨rfl, copied⟩ rest)
      · exact .cons ⟨here.placed?, .cons here copied⟩ rest
    · obtain ⟨label', body'⟩ := s'
      obtain ⟨named, copied⟩ := first
      obtain rfl : label' = some (m.label l) := named
      exact .cons alone (.cons ⟨rfl, copied⟩ rest)

/-- The stretches of a copy are the copies of the stretches. -/
theorem split_copied {is is' : List Instr}
    (copied : List.Forall₂ (Instr.Copied m sub) is is') :
    List.Forall₂ (Copied m sub) (split is) (split is') := by
  induction copied with
  | nil => exact .nil
  | cons here _ ih => exact prepend_copied here ih

end Stretch

/-! ## The last instruction decides -/

namespace Block

def target? (b : Block) : Option Label := b.instrs.getLast?.bind Instr.target?

def passes (b : Block) : Bool := b.instrs.getLast?.all Instr.passes

end Block

namespace Graph

variable {resolves resolves' : Label → Except Refusal BlockId} {exit : BlockId} {b b' : Block}
  {edges : List FlowEdge}

/-- The edges of a block depend on its id, its target, and whether it passes control on. -/
theorem leaving_eq (resolves : Label → Except Refusal BlockId) (exit : BlockId) (b : Block) :
    leaving resolves exit b = match b.target? with
      | some l => do
        let there ← resolves l
        return ⟨b.id, there, .regular⟩ :: if b.passes then [onward exit b.id] else []
      | none => .ok [if b.passes then onward exit b.id else ⟨b.id, exit, .exit⟩] := by
  rw [leaving, Block.target?, Block.passes]
  cases b.instrs.getLast? with
  | none => rfl
  | some i => cases i <;> rfl

/-- Blocks in one place with targets that lead to one place are left by the same edges. -/
theorem leaving_of_target?_eq (rename : Label → Label) (id : b'.id = b.id)
    (target : b'.target? = b.target?.map rename) (passes : b'.passes = b.passes)
    (resolved : ∀ l there, b.target? = some l → resolves l = .ok there →
      resolves' (rename l) = .ok there)
    (left : leaving resolves exit b = .ok edges) : leaving resolves' exit b' = .ok edges := by
  rw [leaving_eq] at left ⊢
  rw [target, passes, id]
  cases jumps : b.target? with
  | none =>
    rw [jumps] at left
    exact left
  | some l =>
    cases there : resolves l with
    | error refusal => simp [jumps, there, bind, Except.bind] at left
    | ok place =>
      rw [jumps] at left
      simp only [there] at left
      simp only [Option.map_some, resolved l place jumps there]
      exact left

end Graph

section Copied

variable {m : NameMap} {sub : ScopeId → ScopeId → Prop}

theorem Instr.Copied.target? {i i' : Instr} (copied : i.Copied m sub i') :
    i'.target? = i.target?.map m.label := by
  cases copied <;> rfl

theorem Instr.Copied.passes {i i' : Instr} (copied : i.Copied m sub i') :
    i'.passes = i.passes := by
  cases copied <;> rfl

namespace Block.Copied

variable {b b' : Block}

theorem target? (copied : b.Copied m sub b') : b'.target? = b.target?.map m.label := by
  have last := rel_getLast? copied.instrs
  rw [Block.target?, Block.target?]
  generalize b.instrs.getLast? = i, b'.instrs.getLast? = i' at last
  cases last with
  | none => rfl
  | some here => exact here.target?

theorem passes (copied : b.Copied m sub b') : b'.passes = b.passes := by
  have last := rel_getLast? copied.instrs
  rw [Block.passes, Block.passes]
  generalize b.instrs.getLast? = i, b'.instrs.getLast? = i' at last
  cases last with
  | none => rfl
  | some here => exact here.passes

end Block.Copied

namespace Graph

/-- The blocks that bear `l'` in a copy are the partners of those that bear `l`, if the map tells `l` so. -/
theorem bearers_copied {blocks blocks' : List Block} {l l' : Label}
    (copied : List.Forall₂ (Block.Copied m sub) blocks blocks')
    (known : ∀ b ∈ blocks, m.label b.label = l' ↔ b.label = l) :
    (bearers blocks' l').map (·.id) = (bearers blocks l).map (·.id) := by
  rw [bearers, bearers]
  induction copied with
  | nil => rfl
  | @cons b b' _ _ here _ ih =>
    obtain ⟨first, others⟩ := List.forall_mem_cons.1 known
    have bears : b'.label = l' ↔ b.label = l := by rw [here.label, first]
    by_cases named : b.label = l
    · simp [bears, named, here.id, ih others]
    · simp [bears, named, ih others]

/-- A jump leads to the same place in a copy, where no label comes to stand for another. -/
theorem resolve_copied {blocks blocks' : List Block} {l : Label} {there : BlockId}
    {scopeName : String} (copied : List.Forall₂ (Block.Copied m sub) blocks blocks')
    (apart : ∀ b ∈ blocks, m.label b.label = m.label l → b.label = l)
    (resolved : resolve blocks scopeName l = .ok there) :
    resolve blocks' scopeName (m.label l) = .ok there := by
  rw [resolve_eq_ok_iff, ← Option.map_eq_some_iff, ← List.getLast?_map] at resolved ⊢
  rw [bearers_copied copied fun b member => ⟨apart b member, congrArg m.label⟩]
  exact resolved

theorem label_mem_mentions {g : Graph} {b : Block} (member : b ∈ g.blocks) :
    .label b.label ∈ g.mentions :=
  List.mem_flatMap.2 ⟨b, member, List.mem_cons_self⟩

theorem mentions_of_target? {g : Graph} {b : Block} {i : Instr} {l : Label} (member : b ∈ g.blocks)
    (inside : i ∈ b.instrs) (target : i.target? = some l) : .label l ∈ g.mentions := by
  have named : .label l ∈ i.mentions := by
    rw [Instr.mentions, List.append_assoc, List.mem_append, List.mem_map]
    exact .inl ⟨l, Instr.mem_labels_of_target? target, rfl⟩
  have within := List.mem_flatMap.2 ⟨i, inside, named⟩
  exact List.mem_flatMap.2 ⟨b, member, List.mem_cons_of_mem _ within⟩

theorem target_mem_mentions {g : Graph} {b : Block} {l : Label} (member : b ∈ g.blocks)
    (target : b.target? = some l) : .label l ∈ g.mentions := by
  obtain ⟨i, last, target⟩ := Option.bind_eq_some_iff.1 target
  exact mentions_of_target? member (List.mem_of_getLast? last) target

end Graph

end Copied

/-! ## Built graphs and their copies -/

namespace Graph

/--
The blocks are the stretches of the instructions between two empty ones, and
every block but the last is left by the edges that it calls for.
-/
structure Faithful (g : Graph) : Prop where
  cut : g.blocks.map (·.instrs) = [] :: ((Stretch.split g.instrs).map (·.instrs) ++ [[]])
  increasing : ∀ side id, (g.edgesAt side id).Increasing
  left : ∃ scopeName, ∀ b ∈ g.blocks.dropLast, ∃ edges,
    leaving (resolve g.blocks scopeName) g.exit b = .ok edges ∧
      ∀ e, e ∈ g.outgoingOf b.id ↔ e ∈ edges

variable {scope : ScopeId} {scopeName : String} {is : List Instr} {fresh : Nat → Label} {g g' : Graph}

theorem map_instrs_layout (fresh : Nat → Label) (is : List Instr) :
    (layout fresh is).map (·.instrs) = [] :: ((Stretch.split is).map (·.instrs) ++ [[]]) := by
  have body : (bodyBlocks fresh 1 1 (Stretch.split is)).map (·.instrs) =
      (Stretch.split is).map (·.instrs) := by
    have partners := bodyBlocks_forall₂ fresh 1 1 (Stretch.split is)
    exact map_eq_of_forall₂ (partners.imp fun _ _ here => here.1)
  simp [layout, body]

theorem faithful_of_build (built : build scope scopeName is fresh = .ok g) : g.Faithful where
  cut := by
    have whole : g.instrs = is := (laid_of_build built).instrs
    rw [blocks_of_build built, map_instrs_layout, whole]
  increasing := increasing_of_build built
  left := by
    refine ⟨scopeName, fun b member => ?_⟩
    obtain ⟨edges, left⟩ := exists_leaving_of_build built member
    refine ⟨edges, left, fun e => ?_⟩
    rw [mem_outgoingOf_id_iff built member, mem_leaving_iff left]

theorem Faithful.copied {m : NameMap} {sub : ScopeId → ScopeId → Prop} {owner : ScopeId}
    (faithful : g.Faithful) (copied : g.Copied m sub owner g')
    (injective : ∀ l₁ l₂, .label l₁ ∈ g.mentions → .label l₂ ∈ g.mentions →
      m.label l₁ = m.label l₂ → l₁ = l₂) : g'.Faithful where
  cut := by
    -- The blocks of the copy and its stretches are both partners of the stretches of the original.
    have blocks : List.Forall₂ (List.Forall₂ (Instr.Copied m sub))
        (g.blocks.map (·.instrs)) (g'.blocks.map (·.instrs)) := by
      rw [List.forall₂_map_left_iff, List.forall₂_map_right_iff]
      exact copied.blocks.imp fun _ _ here => here.instrs
    have stretches : List.Forall₂ (List.Forall₂ (Instr.Copied m sub))
        ((Stretch.split g.instrs).map (·.instrs)) ((Stretch.split g'.instrs).map (·.instrs)) := by
      rw [List.forall₂_map_left_iff, List.forall₂_map_right_iff]
      exact (Stretch.split_copied copied.instrs).imp fun _ _ here => here.instrs
    rw [faithful.cut] at blocks
    apply eq_of_forall₂_of_flatten blocks (.cons .nil (List.rel_append stretches (.cons .nil .nil)))
    rw [← List.flatMap_def, List.flatten_cons, List.flatten_append, ← List.flatMap_def,
      Stretch.flatMap_split]
    simp [Graph.instrs]
  increasing side id := by
    have before := faithful.increasing side id
    cases side with
    | source => rwa [edgesAt_source, copied.outgoingOf]
    | destination => rwa [edgesAt_destination, copied.incomingOf]
  left := by
    obtain ⟨scopeName, left⟩ := faithful.left
    refine ⟨scopeName, fun b' member => ?_⟩
    rw [List.dropLast_eq_take, ← copied.blocks.length_eq] at member
    obtain ⟨b, among, here⟩ := exists_left_of_forall₂ (List.forall₂_take _ copied.blocks) member
    rw [← List.dropLast_eq_take] at among
    obtain ⟨edges, leaves, same⟩ := left b among
    refine ⟨edges, ?_, fun e => ?_⟩
    · rw [copied.exit]
      apply leaving_of_target?_eq m.label here.id here.target? here.passes _ leaves
      intro l there jumps found
      have named := target_mem_mentions (List.dropLast_subset _ among) jumps
      apply resolve_copied copied.blocks _ found
      exact fun c inside => injective _ _ (label_mem_mentions inside) named
    · rw [here.id, copied.outgoingOf]
      exact same e

end Graph

/-! ## Graphs that are kept -/

namespace Scope

def DrawnFaithfully (s : Scope) : Prop := ∀ g, s.graph = some g → g.Faithful

theorem invariant_drawnFaithfully : Invariant fun _ _ s => s.DrawnFaithfully :=
  invariant_of_graphs Graph.faithful_of_build fun body faithful =>
    faithful.copied body.copied body.fresh.label_injective

end Scope

end ClosureIR
