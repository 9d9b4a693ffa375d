import ClosureIR.Proofs.Flow.Layout

/-!
# The edges of a built graph

A block of a built graph is left exactly by the edges that its last instruction
calls for.
-/

namespace ClosureIR

/-- Equal in the order of edges are only equal edges. -/
theorem FlowEdge.eq_of_compare {a b : FlowEdge} (same : compare a b = .eq) : a = b := by
  rcases a with ⟨⟨s⟩, ⟨d⟩, k⟩
  rcases b with ⟨⟨s'⟩, ⟨d'⟩, k'⟩
  change (compare s s').then ((compare d d').then (compare k.rank k'.rank)) = .eq at same
  rw [Ordering.then_eq_eq, Ordering.then_eq_eq, Nat.compare_eq_eq, Nat.compare_eq_eq,
    Nat.compare_eq_eq] at same
  obtain ⟨rfl, rfl, rank⟩ := same
  rw [EdgeKind.rank_injective rank]

theorem FlowEdges.mem_insert_iff {edge other : FlowEdge} {set : FlowEdges} :
    other ∈ EdgeSet.insert edge set ↔ other = edge ∨ other ∈ set := by
  constructor
  · exact EdgeSet.mem_of_mem_insert
  · rintro (rfl | member)
    · induction set with
      | nil => simp
      | cons first rest ih =>
        unfold EdgeSet.insert
        split
        · exact List.mem_cons_self
        · rename_i same
          rw [FlowEdge.eq_of_compare same]
          exact List.mem_cons_self
        · exact List.mem_cons_of_mem _ ih
    · exact EdgeSet.mem_insert_of_mem member

def Instr.passes : Instr → Bool
  | .jump _ | .ret _ => false
  | _ => true

namespace Graph

/-! ## Adding edges -/

def setsAt (g : Graph) : Side → List FlowEdges
  | .source => g.outgoing
  | .destination => g.incoming

def edgesAt (g : Graph) (side : Side) (id : BlockId) : FlowEdges := (g.setsAt side).getD id.index []

@[simp] theorem edgesAt_source (g : Graph) (id : BlockId) :
    g.edgesAt .source id = g.outgoingOf id := rfl

@[simp] theorem edgesAt_destination (g : Graph) (id : BlockId) :
    g.edgesAt .destination id = g.incomingOf id := rfl

theorem setsAt_addEdge (g : Graph) (edge : FlowEdge) (side : Side) :
    (g.addEdge edge).setsAt side =
      (g.setsAt side).modify (edge.endpoint side).index (EdgeSet.insert edge) := by
  cases side <;> rfl

theorem length_setsAt_addEdges (g : Graph) (edges : List FlowEdge) (side : Side) :
    ((g.addEdges edges).setsAt side).length = (g.setsAt side).length := by
  induction edges generalizing g with
  | nil => rfl
  | cons e rest ih =>
    have step := ih (g.addEdge e)
    rwa [setsAt_addEdge, List.length_modify] at step

theorem mem_edgesAt_addEdge {g : Graph} {edge other : FlowEdge} {side : Side} {id : BlockId}
    (inside : (edge.endpoint side).index < (g.setsAt side).length) :
    other ∈ (g.addEdge edge).edgesAt side id ↔
      other ∈ g.edgesAt side id ∨ (other = edge ∧ edge.endpoint side = id) := by
  rcases id with ⟨k⟩
  simp only [edgesAt, setsAt_addEdge, List.getD_eq_getElem?_getD, List.getElem?_modify]
  by_cases here : (edge.endpoint side).index = k
  · subst here
    rw [List.getElem?_eq_getElem inside]
    simp only [if_true, Option.map_eq_map, Option.map_some, Option.getD_some, FlowEdges.mem_insert_iff]
    constructor
    · rintro (rfl | member)
      · exact .inr ⟨rfl, trivial⟩
      · exact .inl member
    · rintro (member | ⟨rfl, -⟩)
      · exact .inr member
      · exact .inl rfl
  · have apart : edge.endpoint side ≠ ⟨k⟩ := fun same => here (congrArg BlockId.index same)
    simp [here, apart]

/-- An edge that was added is found at both of its ends, and nowhere else. -/
theorem mem_edgesAt_addEdges {g : Graph} {edges : List FlowEdge} {other : FlowEdge} {side : Side}
    {id : BlockId} (inside : ∀ e ∈ edges, (e.endpoint side).index < (g.setsAt side).length) :
    other ∈ (g.addEdges edges).edgesAt side id ↔
      other ∈ g.edgesAt side id ∨ (other ∈ edges ∧ other.endpoint side = id) := by
  induction edges generalizing g with
  | nil => simp [addEdges]
  | cons e rest ih =>
    obtain ⟨here, others⟩ := List.forall_mem_cons.1 inside
    have step := ih (g := g.addEdge e) (by simpa [setsAt_addEdge] using others)
    rw [addEdges, List.foldl_cons]
    apply step.trans
    rw [mem_edgesAt_addEdge here, List.mem_cons, or_assoc]
    apply or_congr_right
    constructor
    · rintro (⟨rfl, source⟩ | ⟨member, source⟩)
      · exact ⟨.inl rfl, source⟩
      · exact ⟨.inr member, source⟩
    · rintro ⟨rfl | member, source⟩
      · exact .inl ⟨rfl, source⟩
      · exact .inr ⟨member, source⟩

/-! ## The edges that leave a block -/

/-- How control may leave a block, where jumps are resolved in some way. -/
inductive Leaves (resolves : Label → Except Refusal BlockId) (exit : BlockId) (b : Block) :
    FlowEdge → Prop where
  | taken {i : Instr} {l : Label} {there : BlockId} (last : b.instrs.getLast? = some i)
      (target : i.target? = some l) (resolved : resolves l = .ok there) :
      Leaves resolves exit b ⟨b.id, there, .regular⟩
  | ret {v : Operand} (last : b.instrs.getLast? = some (.ret v)) :
      Leaves resolves exit b ⟨b.id, exit, .exit⟩
  | onward (passes : ∀ i, b.instrs.getLast? = some i → i.passes = true) :
      Leaves resolves exit b (onward exit b.id)

variable {resolves : Label → Except Refusal BlockId} {exit : BlockId} {b : Block}
  {edges : List FlowEdge} {edge : FlowEdge}

theorem Leaves.source (leaves : Leaves resolves exit b edge) : edge.source = b.id := by
  cases leaves <;> rfl

/-- A target is resolved first; whether there is a way onward depends on the instruction. -/
theorem leaving_of_target {i : Instr} {l : Label} (last : b.instrs.getLast? = some i)
    (target : i.target? = some l) : leaving resolves exit b = (do
      let there ← resolves l
      return ⟨b.id, there, .regular⟩ :: if i.passes then [onward exit b.id] else []) := by
  rw [leaving, last]
  cases i <;> cases target <;> rfl

theorem leaving_of_no_target (bare : ∀ i, b.instrs.getLast? = some i → i.target? = none)
    (passes : ∀ i, b.instrs.getLast? = some i → i.passes = true) :
    leaving resolves exit b = .ok [onward exit b.id] := by
  unfold leaving
  cases last : b.instrs.getLast? with
  | none => rfl
  | some i =>
    have bare := bare i last
    have passes := passes i last
    cases i with
    | ret v => cases passes
    | jump target => cases passes
    | branchFalse condition target => cases bare
    | guard g => cases bare
    | _ => rfl

/-- The three kinds of blocks, by their last instructions. -/
theorem leaving_cases (left : leaving resolves exit b = .ok edges) :
    (∃ i l there, b.instrs.getLast? = some i ∧ i.target? = some l ∧ resolves l = .ok there ∧
      edges = ⟨b.id, there, .regular⟩ :: if i.passes then [onward exit b.id] else []) ∨
    (∃ v, b.instrs.getLast? = some (.ret v) ∧ edges = [⟨b.id, exit, .exit⟩]) ∨
    ((∀ i, b.instrs.getLast? = some i → i.target? = none ∧ i.passes = true) ∧
      edges = [onward exit b.id]) := by
  cases last : b.instrs.getLast? with
  | none =>
    rw [leaving_of_no_target (by simp [last]) (by simp [last])] at left
    cases left
    exact .inr (.inr ⟨by simp, rfl⟩)
  | some i =>
    cases target : i.target? with
    | some l =>
      rw [leaving_of_target last target] at left
      cases resolved : resolves l with
      | error refusal => simp [resolved, bind, Except.bind] at left
      | ok there =>
        simp only [resolved, bind, Except.bind, pure, Except.pure, Except.ok.injEq] at left
        exact .inl ⟨i, l, there, rfl, target, resolved, left.symm⟩
    | none =>
      cases passes : i.passes with
      | true =>
        rw [leaving_of_no_target (by simp [last, target]) (by simp [last, passes])] at left
        cases left
        exact .inr (.inr ⟨by simp [target, passes], rfl⟩)
      | false =>
        cases i with
        | ret v =>
          rw [leaving, last] at left
          cases left
          exact .inr (.inl ⟨v, rfl, rfl⟩)
        | jump l => cases target
        | _ => cases passes

/-- The edges of a block are the ways to leave it. -/
theorem mem_leaving_iff (left : leaving resolves exit b = .ok edges) :
    edge ∈ edges ↔ Leaves resolves exit b edge := by
  obtain ⟨i, l, there, last, target, resolved, rfl⟩ | ⟨v, last, rfl⟩ | ⟨plain, rfl⟩ :=
    leaving_cases left
  · constructor
    · intro member
      rcases List.mem_cons.1 member with rfl | next
      · exact .taken last target resolved
      · cases passes : i.passes with
        | false => simp [passes] at next
        | true =>
          simp only [passes, if_true, List.mem_singleton] at next
          subst next
          exact .onward (by simp [last, passes])
    · intro leaves
      cases leaves with
      | taken last' target' resolved' =>
        cases last.symm.trans last'
        cases target.symm.trans target'
        cases resolved.symm.trans resolved'
        exact List.mem_cons_self
      | ret last' =>
        cases last.symm.trans last'
        cases target
      | onward passes => simp [passes i last]
  · constructor
    · intro member
      cases List.mem_singleton.1 member
      exact .ret last
    · intro leaves
      cases leaves with
      | taken last' target' resolved' =>
        cases last.symm.trans last'
        cases target'
      | ret last' => exact List.mem_singleton_self _
      | onward passes => cases passes _ last
  · constructor
    · intro member
      cases List.mem_singleton.1 member
      exact .onward fun i last => (plain i last).2
    · intro leaves
      cases leaves with
      | taken last target resolved =>
        rw [(plain _ last).1] at target
        cases target
      | ret last => cases (plain _ last).2
      | onward passes => exact List.mem_singleton_self _

theorem exists_resolved (left : leaving resolves exit b = .ok edges) {i : Instr} {l : Label}
    (last : b.instrs.getLast? = some i) (target : i.target? = some l) :
    ∃ there, resolves l = .ok there := by
  rw [leaving_of_target last target] at left
  cases resolved : resolves l with
  | error refusal => simp [resolved, bind, Except.bind] at left
  | ok there => exact ⟨there, rfl⟩

theorem exists_leaves (left : leaving resolves exit b = .ok edges) :
    ∃ edge, Leaves resolves exit b edge := by
  obtain ⟨i, l, there, last, target, resolved, -⟩ | ⟨v, last, -⟩ | ⟨plain, -⟩ := leaving_cases left
  · exact ⟨_, .taken last target resolved⟩
  · exact ⟨_, .ret last⟩
  · exact ⟨_, .onward fun i last => (plain i last).2⟩

/-! ## The whole graph -/

variable {scope : ScopeId} {scopeName : String} {is : List Instr} {fresh : Nat → Label} {g : Graph}

theorem addEdges_scope (g : Graph) (edges : List FlowEdge) :
    (g.addEdges edges).scope = g.scope := by
  induction edges generalizing g with
  | nil => rfl
  | cons e rest ih => exact ih (g.addEdge e)

theorem addEdges_entry (g : Graph) (edges : List FlowEdge) :
    (g.addEdges edges).entry = g.entry := by
  induction edges generalizing g with
  | nil => rfl
  | cons e rest ih => exact ih (g.addEdge e)

theorem addEdges_exit (g : Graph) (edges : List FlowEdge) : (g.addEdges edges).exit = g.exit := by
  induction edges generalizing g with
  | nil => rfl
  | cons e rest ih => exact ih (g.addEdge e)

/-- A built graph has the blocks of the layout and the edges of all blocks but the last. -/
theorem exists_edges_of_build (built : build scope scopeName is fresh = .ok g) :
    ∃ lists, g = (unconnected scope (layout fresh is)).addEdges lists.flatten ∧
      List.Forall₂ (fun b es => leaving (resolve g.blocks scopeName) g.exit b = .ok es)
        g.blocks.dropLast lists := by
  rw [build] at built
  cases edges : (unconnected scope (layout fresh is)).blocks.dropLast.mapM
      (leaving (resolve (unconnected scope (layout fresh is)).blocks scopeName)
        (unconnected scope (layout fresh is)).exit) with
  | error refusal => simp [edges, bind, Except.bind] at built
  | ok lists =>
    simp only [edges, bind, Except.bind, pure, Except.pure, Except.ok.injEq] at built
    subst built
    refine ⟨lists, rfl, ?_⟩
    rw [addEdges_blocks, addEdges_exit]
    exact forall₂_of_mapM edges

theorem blocks_of_build (built : build scope scopeName is fresh = .ok g) :
    g.blocks = layout fresh is := by
  obtain ⟨lists, rfl, -⟩ := exists_edges_of_build built
  exact addEdges_blocks _ _

theorem scope_of_build (built : build scope scopeName is fresh = .ok g) : g.scope = scope := by
  obtain ⟨lists, rfl, -⟩ := exists_edges_of_build built
  exact addEdges_scope _ _

theorem entry_of_build (built : build scope scopeName is fresh = .ok g) : g.entry = ⟨0⟩ := by
  obtain ⟨lists, rfl, -⟩ := exists_edges_of_build built
  exact addEdges_entry _ _

theorem exit_of_build (built : build scope scopeName is fresh = .ok g) :
    g.exit = ⟨g.blocks.length - 1⟩ := by
  obtain ⟨lists, rfl, -⟩ := exists_edges_of_build built
  rw [addEdges_exit, addEdges_blocks]
  rfl

theorem laid_of_build (built : build scope scopeName is fresh = .ok g) :
    Laid g.blocks fresh is := by
  rw [blocks_of_build built]
  exact laid_layout fresh is

/-- Every block but the last has its edges. -/
theorem exists_leaving_of_build (built : build scope scopeName is fresh = .ok g)
    (member : b ∈ g.blocks.dropLast) :
    ∃ es, leaving (resolve g.blocks scopeName) g.exit b = .ok es := by
  obtain ⟨lists, -, each⟩ := exists_edges_of_build built
  obtain ⟨es, -, left⟩ := exists_right_of_forall₂ each member
  exact ⟨es, left⟩

theorem edgesAt_unconnected (scope : ScopeId) (blocks : List Block) (side : Side) (id : BlockId) :
    (unconnected scope blocks).edgesAt side id = [] := by
  cases side <;>
    simp only [edgesAt, setsAt, unconnected, List.getD_eq_getElem?_getD, List.getElem?_map] <;>
    cases blocks[id.index]? <;> rfl

/-- A jump reaches a block that is there. -/
theorem exists_block_of_resolve {blocks : List Block} {l : Label} {there : BlockId}
    (resolved : resolve blocks scopeName l = .ok there) : ∃ b ∈ blocks, b.id = there := by
  rw [resolve] at resolved
  cases target : jumpTarget? blocks l with
  | none => simp [target] at resolved
  | some id =>
    rw [target] at resolved
    cases resolved
    obtain ⟨b, last, rfl⟩ := Option.map_eq_some_iff.1 target
    exact ⟨b, (List.mem_filter.1 (List.mem_of_getLast? last)).1, rfl⟩

namespace Laid

variable {blocks : List Block}

/-- A block stands at the place that its id says. -/
theorem getElem?_of_mem (laid : Laid blocks fresh is) (member : b ∈ blocks) :
    blocks[b.id.index]? = some b := by
  obtain ⟨k, found⟩ := List.mem_iff_getElem?.1 member
  rwa [laid.ids k b found]

theorem lt_length_of_mem (laid : Laid blocks fresh is) (member : b ∈ blocks) :
    b.id.index < blocks.length :=
  (List.getElem?_eq_some_iff.1 (laid.getElem?_of_mem member)).1

theorem succ_lt_length_of_mem (laid : Laid blocks fresh is) (member : b ∈ blocks.dropLast) :
    b.id.index + 1 < blocks.length := by
  obtain ⟨k, found⟩ := List.mem_iff_getElem?.1 member
  rw [List.getElem?_dropLast] at found
  split at found
  · rw [laid.ids k b found]
    simp only
    omega
  · cases found

/-- A block with an instruction stands between the entry and the exit. -/
theorem straight_of_mem (laid : Laid blocks fresh is) (member : b ∈ blocks) {i : Instr}
    (inside : i ∈ b.instrs) : Instr.Straight b.instrs := by
  have place := laid.getElem?_of_mem member
  have bound := laid.lt_length_of_mem member
  have notEntry : b.id.index ≠ 0 := by
    intro first
    rw [laid.entry b (first ▸ place)] at inside
    cases inside
  have notExit : b.id.index ≠ blocks.length - 1 := by
    intro last
    rw [laid.exit b (last ▸ place)] at inside
    cases inside
  exact laid.body b.id.index b (by omega) (by omega) place

theorem eq_of_id (laid : Laid blocks fresh is) {b' : Block} (member : b ∈ blocks)
    (member' : b' ∈ blocks) (same : b.id = b'.id) : b = b' := by
  have found := laid.getElem?_of_mem member
  rw [same, laid.getElem?_of_mem member'] at found
  exact (Option.some.inj found).symm

/-- The edges that leave the blocks before the exit stay among the blocks. -/
theorem inside_of_leaves (laid : Laid blocks fresh is) (member : b ∈ blocks.dropLast)
    (leaves : Leaves (resolve blocks scopeName) ⟨blocks.length - 1⟩ b edge) (side : Side) :
    (edge.endpoint side).index < blocks.length := by
  have next := laid.succ_lt_length_of_mem member
  cases side with
  | source =>
    rw [Edge.endpoint_source, leaves.source]
    omega
  | destination =>
    cases leaves with
    | taken last target resolved =>
      obtain ⟨there, among, rfl⟩ := exists_block_of_resolve resolved
      exact laid.lt_length_of_mem among
    | ret last =>
      simp only [Edge.endpoint_destination]
      omega
    | onward passes => exact next

end Laid

/-- The edges of a built graph are those that its blocks call for, at both of their ends. -/
theorem mem_edgesAt_build_iff (built : build scope scopeName is fresh = .ok g) (side : Side)
    {id : BlockId} : edge ∈ g.edgesAt side id ↔ edge.endpoint side = id ∧
      ∃ b ∈ g.blocks.dropLast, Leaves (resolve g.blocks scopeName) g.exit b edge := by
  have laid := laid_of_build built
  obtain ⟨lists, shape, each⟩ := exists_edges_of_build built
  have listed (e : FlowEdge) : e ∈ lists.flatten ↔
      ∃ b ∈ g.blocks.dropLast, Leaves (resolve g.blocks scopeName) g.exit b e := by
    constructor
    · intro member
      obtain ⟨es, inside, here⟩ := List.mem_flatten.1 member
      obtain ⟨b, among, left⟩ := exists_left_of_forall₂ each inside
      exact ⟨b, among, (mem_leaving_iff left).1 here⟩
    · rintro ⟨b, among, leaves⟩
      obtain ⟨es, inside, left⟩ := exists_right_of_forall₂ each among
      exact List.mem_flatten.2 ⟨es, inside, (mem_leaving_iff left).2 leaves⟩
  have added : edge ∈ g.edgesAt side id ↔ edge ∈ lists.flatten ∧ edge.endpoint side = id := by
    rw [shape, mem_edgesAt_addEdges, edgesAt_unconnected]
    · simp
    · intro e member
      obtain ⟨b, among, leaves⟩ := (listed e).1 member
      rw [exit_of_build built] at leaves
      have inside := laid.inside_of_leaves among leaves side
      rw [blocks_of_build built] at inside
      cases side <;> simpa [unconnected, setsAt] using inside
  rw [added, listed, and_comm]

/-- A block of a built graph is left by the edges that it calls for; the last block is not left. -/
theorem mem_outgoingOf_build_iff (built : build scope scopeName is fresh = .ok g) {id : BlockId} :
    edge ∈ g.outgoingOf id ↔
      ∃ b ∈ g.blocks.dropLast, b.id = id ∧ Leaves (resolve g.blocks scopeName) g.exit b edge := by
  rw [← edgesAt_source, mem_edgesAt_build_iff built .source]
  constructor
  · rintro ⟨rfl, b, among, leaves⟩
    exact ⟨b, among, leaves.source.symm, leaves⟩
  · rintro ⟨b, among, rfl, leaves⟩
    exact ⟨leaves.source, b, among, leaves⟩

/-- A block other than the exit is left by the edges that it calls for itself. -/
theorem mem_outgoingOf_id_iff (built : build scope scopeName is fresh = .ok g)
    (member : b ∈ g.blocks.dropLast) :
    edge ∈ g.outgoingOf b.id ↔ Leaves (resolve g.blocks scopeName) g.exit b edge := by
  rw [mem_outgoingOf_build_iff built]
  constructor
  · rintro ⟨b', among, id, leaves⟩
    rwa [← (laid_of_build built).eq_of_id (List.dropLast_subset _ among)
      (List.dropLast_subset _ member) id]
  · exact fun leaves => ⟨b, member, rfl, leaves⟩

end Graph

end ClosureIR
