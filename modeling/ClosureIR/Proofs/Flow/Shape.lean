import ClosureIR.Proofs.Clone.Copy
import ClosureIR.Proofs.Flow.Edges
import Mathlib.Data.List.Perm.Subperm

/-!
# Well-formed graphs

Blocks stand at the places that their ids say, labels and terminators stand at
the ends of blocks, and every edge is known at both of its ends.  What is built
is of this form, and so is every copy of it.
-/

namespace ClosureIR

/-! ## Sets of edges -/

theorem FlowEdge.compare_eq_lt_iff {a b : FlowEdge} : compare a b = .lt ↔
    a.source.index < b.source.index ∨ a.source.index = b.source.index ∧
      (a.destination.index < b.destination.index ∨ a.destination.index = b.destination.index ∧
        a.kind.rank < b.kind.rank) := by
  change (compare a.source.index b.source.index).then
    ((compare a.destination.index b.destination.index).then
      (compare a.kind.rank b.kind.rank)) = .lt ↔ _
  simp only [Ordering.then_eq_lt, Nat.compare_eq_lt, Nat.compare_eq_eq]

theorem FlowEdge.compare_eq_gt_iff {a b : FlowEdge} : compare a b = .gt ↔ compare b a = .lt := by
  rw [compare_eq_lt_iff]
  change (compare a.source.index b.source.index).then
    ((compare a.destination.index b.destination.index).then
      (compare a.kind.rank b.kind.rank)) = .gt ↔ _
  simp only [Ordering.then_eq_gt, Nat.compare_eq_gt, Nat.compare_eq_eq]
  omega

theorem FlowEdge.lt_trans {a b c : FlowEdge} (first : compare a b = .lt)
    (second : compare b c = .lt) : compare a c = .lt := by
  rw [compare_eq_lt_iff] at *
  omega

namespace FlowEdges

def Increasing (set : FlowEdges) : Prop := set.Pairwise fun a b => compare a b = .lt

theorem Increasing.insert {set : FlowEdges} (increasing : set.Increasing) (edge : FlowEdge) :
    Increasing (EdgeSet.insert edge set) := by
  induction set with
  | nil => exact List.pairwise_singleton _ _
  | cons first rest ih =>
    obtain ⟨before, later⟩ := List.pairwise_cons.1 increasing
    unfold EdgeSet.insert
    split
    · rename_i less
      refine List.pairwise_cons.2 ⟨fun other member => ?_, increasing⟩
      rcases List.mem_cons.1 member with rfl | member
      · exact less
      · exact FlowEdge.lt_trans less (before other member)
    · exact increasing
    · rename_i greater
      refine List.pairwise_cons.2 ⟨fun other member => ?_, ih later⟩
      rcases mem_insert_iff.1 member with rfl | member
      · exact FlowEdge.compare_eq_gt_iff.1 greater
      · exact before other member

theorem Increasing.nodup {set : FlowEdges} (increasing : set.Increasing) : set.Nodup := by
  refine List.Pairwise.imp (fun {a b} less => ?_) increasing
  rintro rfl
  rw [FlowEdge.compare_eq_lt_iff] at less
  omega

end FlowEdges

namespace Graph

/-- What holds of every graph that was built, or copied from one that was. -/
structure WellFormed (g : Graph) : Prop where
  two_le : 2 ≤ g.blocks.length
  ids : ∀ (k : Nat) (b : Block), g.blocks[k]? = some b → b.id = ⟨k⟩
  entry : g.entry = ⟨0⟩
  exit : g.exit = ⟨g.blocks.length - 1⟩
  bare : ∀ b ∈ g.blocks, b.id = g.entry ∨ b.id = g.exit → b.instrs = []
  body : ∀ b ∈ g.blocks, b.id ≠ g.entry → b.id ≠ g.exit → Instr.Straight b.instrs
  label : ∀ b ∈ g.blocks, ∀ l, b.instrs.head? = some (.label l) → b.label = l
  outgoing_length : g.outgoing.length = g.blocks.length
  incoming_length : g.incoming.length = g.blocks.length
  outgoing_nodup : ∀ id, (g.outgoingOf id).Nodup
  incoming_nodup : ∀ id, (g.incomingOf id).Nodup
  source : ∀ id, ∀ e ∈ g.outgoingOf id, e.source = id
  destination : ∀ id, ∀ e ∈ g.incomingOf id, e.destination = id
  paired : ∀ e : FlowEdge, e ∈ g.outgoingOf e.source ↔ e ∈ g.incomingOf e.destination
  inside : ∀ id, ∀ e ∈ g.outgoingOf id,
    e.source.index < g.blocks.length ∧ e.destination.index < g.blocks.length
  entry_leaves : (g.outgoingOf g.entry).length = 1
  exit_stays : g.outgoingOf g.exit = []
  leaves : ∀ b ∈ g.blocks, b.id ≠ g.exit →
    1 ≤ (g.outgoingOf b.id).length ∧ (g.outgoingOf b.id).length ≤ 2

/-! ## Built graphs -/

section Built

variable {scope : ScopeId} {scopeName : String} {is : List Instr} {fresh : Nat → Label} {g : Graph}
  {b : Block} {edges : List FlowEdge}

theorem increasing_addEdges {g : Graph} {side : Side}
    (increasing : ∀ id, (g.edgesAt side id).Increasing) (edges : List FlowEdge) (id : BlockId) :
    ((g.addEdges edges).edgesAt side id).Increasing := by
  induction edges generalizing g with
  | nil => exact increasing id
  | cons e rest ih =>
    refine ih (g := g.addEdge e) fun id => ?_
    have before := increasing id
    rw [edgesAt, List.getD_eq_getElem?_getD] at before ⊢
    rw [setsAt_addEdge, List.getElem?_modify]
    split
    · cases found : (g.setsAt side)[id.index]? with
      | none => exact List.Pairwise.nil
      | some set =>
        rw [found] at before
        exact before.insert e
    · simpa using before

theorem increasing_of_build (built : build scope scopeName is fresh = .ok g) (side : Side)
    (id : BlockId) : (g.edgesAt side id).Increasing := by
  obtain ⟨lists, rfl, -⟩ := exists_edges_of_build built
  refine increasing_addEdges (fun id => ?_) _ id
  rw [edgesAt_unconnected]
  exact List.Pairwise.nil

theorem length_setsAt_of_build (built : build scope scopeName is fresh = .ok g) (side : Side) :
    (g.setsAt side).length = g.blocks.length := by
  rw [blocks_of_build built]
  obtain ⟨lists, rfl, -⟩ := exists_edges_of_build built
  rw [length_setsAt_addEdges]
  cases side <;> exact List.length_map ..

/-- No block calls for more than two edges, and one without instructions for one. -/
theorem length_leaving_le {resolves : Label → Except Refusal BlockId} {exit : BlockId}
    (left : leaving resolves exit b = .ok edges) : edges.length ≤ if b.instrs = [] then 1 else 2 := by
  obtain ⟨i, l, there, last, -, -, rfl⟩ | ⟨v, last, rfl⟩ | ⟨-, rfl⟩ := leaving_cases left
  · have some : b.instrs ≠ [] := by
      intro none
      simp [none] at last
    rw [if_neg some]
    split <;> simp
  · split <;> simp
  · split <;> simp

theorem length_outgoingOf_build (built : build scope scopeName is fresh = .ok g)
    (member : b ∈ g.blocks.dropLast) :
    1 ≤ (g.outgoingOf b.id).length ∧
      (g.outgoingOf b.id).length ≤ if b.instrs = [] then 1 else 2 := by
  obtain ⟨es, left⟩ := exists_leaving_of_build built member
  have same (e : FlowEdge) : e ∈ g.outgoingOf b.id ↔ e ∈ es := by
    rw [mem_outgoingOf_id_iff built member, mem_leaving_iff left]
  constructor
  · obtain ⟨e, leaves⟩ := exists_leaves left
    exact List.length_pos_of_mem ((same e).2 ((mem_leaving_iff left).2 leaves))
  · have distinct := (increasing_of_build built .source b.id).nodup
    have fewer := (List.subperm_of_subset distinct fun e => (same e).1).length_le
    exact Nat.le_trans fewer (length_leaving_le left)

/-- Every graph that is built is well formed. -/
theorem wellFormed_of_build (built : build scope scopeName is fresh = .ok g) : g.WellFormed := by
  have laid := laid_of_build built
  have entry := entry_of_build built
  have exit := exit_of_build built
  have size := laid.two_le
  have inner {b : Block} (member : b ∈ g.blocks) (other : b.id ≠ g.exit) : b ∈ g.blocks.dropLast := by
    have place := laid.getElem?_of_mem member
    have bound := laid.lt_length_of_mem member
    apply mem_dropLast_of_getElem? place
    have apart : b.id.index ≠ g.blocks.length - 1 := fun same => other (exit ▸ congrArg BlockId.mk same)
    omega
  constructor
  case two_le => exact size
  case ids => exact laid.ids
  case entry => exact entry
  case exit => exact exit
  case bare =>
    intro b member ends
    have place := laid.getElem?_of_mem member
    rcases ends with first | last
    · rw [first, entry] at place
      exact laid.entry b place
    · rw [last, exit] at place
      exact laid.exit b place
  case body =>
    intro b member notEntry notExit
    have place := laid.getElem?_of_mem member
    have positive : 0 < b.id.index := by
      rw [entry] at notEntry
      exact Nat.pos_of_ne_zero fun zero => notEntry (congrArg BlockId.mk zero)
    exact laid.body _ b positive (laid.succ_lt_length_of_mem (inner member notExit)) place
  case label =>
    intro b member l head
    rcases laid.label b member with ⟨-, bare⟩ | named
    · simp [head, Instr.placed?] at bare
    · cases named.symm.trans head
      rfl
  case outgoing_length => exact length_setsAt_of_build built .source
  case incoming_length => exact length_setsAt_of_build built .destination
  case outgoing_nodup => exact fun id => (increasing_of_build built .source id).nodup
  case incoming_nodup => exact fun id => (increasing_of_build built .destination id).nodup
  case source => exact fun id e member => ((mem_edgesAt_build_iff built .source).1 member).1
  case destination =>
    exact fun id e member => ((mem_edgesAt_build_iff built .destination).1 member).1
  case paired =>
    intro e
    rw [← edgesAt_source, ← edgesAt_destination, mem_edgesAt_build_iff built,
      mem_edgesAt_build_iff built, Edge.endpoint_source, Edge.endpoint_destination]
    simp only [true_and]
  case inside =>
    intro id e member
    obtain ⟨-, b, among, leaves⟩ := (mem_edgesAt_build_iff built .source).1 member
    rw [exit] at leaves
    exact ⟨laid.inside_of_leaves among leaves .source, laid.inside_of_leaves among leaves .destination⟩
  case entry_leaves =>
    have found : g.blocks[0]? = some g.blocks[0] := List.getElem?_eq_getElem (by omega)
    have place : g.blocks[0].id = g.entry := (laid.ids 0 _ found).trans entry.symm
    have edges := length_outgoingOf_build built (mem_dropLast_of_getElem? found (by omega))
    rw [if_pos (laid.entry _ found), place] at edges
    omega
  case exit_stays =>
    rw [List.eq_nil_iff_forall_not_mem]
    intro e member
    obtain ⟨b, among, place, -⟩ := (mem_outgoingOf_build_iff built).1 member
    have before := laid.succ_lt_length_of_mem among
    rw [place, exit] at before
    simp only at before
    omega
  case leaves =>
    intro b member other
    obtain ⟨some, few⟩ := length_outgoingOf_build built (inner member other)
    exact ⟨some, Nat.le_trans few (by split <;> omega)⟩

end Built

end Graph

/-! ## Copied graphs -/

section Copied

variable {m : NameMap} {sub : ScopeId → ScopeId → Prop}

theorem Instr.Copied.isTerminator {i i' : Instr} (copied : i.Copied m sub i') :
    i'.isTerminator = i.isTerminator := by
  cases copied <;> rfl

theorem Instr.Copied.placed? {i i' : Instr} (copied : i.Copied m sub i') :
    i'.placed? = i.placed?.map m.label := by
  cases copied <;> rfl

/-- A copy of one block is one block. -/
theorem Instr.Straight.copied {is is' : List Instr} (straight : Straight is)
    (copied : List.Forall₂ (Instr.Copied m sub) is is') : Straight is' := by
  constructor
  case nonempty =>
    rintro rfl
    exact straight.nonempty (List.forall₂_nil_right_iff.1 copied)
  case inner =>
    intro i' member
    rw [← List.drop_one] at member
    obtain ⟨i, among, here⟩ := exists_left_of_forall₂ (List.forall₂_drop 1 copied) member
    rw [List.drop_one] at among
    rw [here.placed?, straight.inner i among]
    rfl
  case flowing =>
    intro i' member
    rw [List.dropLast_eq_take, ← copied.length_eq] at member
    obtain ⟨i, among, here⟩ := exists_left_of_forall₂ (List.forall₂_take _ copied) member
    rw [← List.dropLast_eq_take] at among
    rw [here.isTerminator, straight.flowing i among]

namespace Graph

variable {owner : ScopeId} {g g' : Graph}

theorem Copied.outgoingOf (copied : g.Copied m sub owner g') (id : BlockId) :
    g'.outgoingOf id = g.outgoingOf id := by
  rw [Graph.outgoingOf, copied.outgoing, Graph.outgoingOf]

theorem Copied.incomingOf (copied : g.Copied m sub owner g') (id : BlockId) :
    g'.incomingOf id = g.incomingOf id := by
  rw [Graph.incomingOf, copied.incoming, Graph.incomingOf]

/-- A copy of a well-formed graph is well formed: it has the same edges between the same places. -/
theorem WellFormed.copied (formed : g.WellFormed) (copied : g.Copied m sub owner g') :
    g'.WellFormed := by
  have size := copied.blocks.length_eq
  constructor
  case two_le => exact size ▸ formed.two_le
  case ids =>
    intro k b' found
    obtain ⟨b, place, here⟩ := exists_left_at_of_forall₂ copied.blocks found
    rw [here.id, formed.ids k b place]
  case entry => rw [copied.entry, formed.entry]
  case exit => rw [copied.exit, formed.exit, size]
  case bare =>
    intro b' member ends
    obtain ⟨b, among, here⟩ := exists_left_of_forall₂ copied.blocks member
    rw [here.id, copied.entry, copied.exit] at ends
    have none := here.instrs
    rw [formed.bare b among ends] at none
    exact List.forall₂_nil_left_iff.1 none
  case body =>
    intro b' member notEntry notExit
    obtain ⟨b, among, here⟩ := exists_left_of_forall₂ copied.blocks member
    rw [here.id, copied.entry] at notEntry
    rw [here.id, copied.exit] at notExit
    exact (formed.body b among notEntry notExit).copied here.instrs
  case label =>
    intro b' member l' head
    obtain ⟨b, among, here⟩ := exists_left_of_forall₂ copied.blocks member
    have instrs := here.instrs
    cases same : b.instrs with
    | nil =>
      rw [same, List.forall₂_nil_left_iff] at instrs
      rw [instrs] at head
      cases head
    | cons i rest =>
      rw [same] at instrs
      cases shape : b'.instrs with
      | nil =>
        rw [shape] at head
        cases head
      | cons i' rest' =>
        rw [shape] at head instrs
        cases head
        obtain ⟨first, -⟩ := List.forall₂_cons.1 instrs
        cases first with
        | label l => rw [here.label, formed.label b among l (by rw [same]; rfl)]
  case outgoing_length => rw [copied.outgoing, formed.outgoing_length, size]
  case incoming_length => rw [copied.incoming, formed.incoming_length, size]
  case outgoing_nodup => exact fun id => copied.outgoingOf id ▸ formed.outgoing_nodup id
  case incoming_nodup => exact fun id => copied.incomingOf id ▸ formed.incoming_nodup id
  case source => exact fun id => copied.outgoingOf id ▸ formed.source id
  case destination => exact fun id => copied.incomingOf id ▸ formed.destination id
  case paired =>
    intro e
    rw [copied.outgoingOf, copied.incomingOf]
    exact formed.paired e
  case inside => exact fun id => copied.outgoingOf id ▸ size ▸ formed.inside id
  case entry_leaves => rw [copied.entry, copied.outgoingOf, formed.entry_leaves]
  case exit_stays => rw [copied.exit, copied.outgoingOf, formed.exit_stays]
  case leaves =>
    intro b' member other
    obtain ⟨b, among, here⟩ := exists_left_of_forall₂ copied.blocks member
    rw [here.id, copied.exit] at other
    rw [here.id, copied.outgoingOf]
    exact formed.leaves b among other

end Graph

end Copied

end ClosureIR
