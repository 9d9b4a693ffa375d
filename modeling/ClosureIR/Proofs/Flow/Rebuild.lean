import ClosureIR.Proofs.Flow.Faithful
import Mathlib.Data.List.Nodup

/-!
# Building a graph again

A graph that follows its instructions is built again from them, when it is clear
where its jumps lead and the labels that the builder invents are placed nowhere.
Invented labels are all that the two graphs differ in.
-/

namespace ClosureIR

/-- Sets with the same edges in increasing order are the same. -/
theorem FlowEdges.Increasing.eq_of_mem_iff {a b : FlowEdges} (first : a.Increasing)
    (second : b.Increasing) (same : ∀ e, e ∈ a ↔ e ∈ b) : a = b := by
  have members : a.Perm b := (List.perm_ext_iff_of_nodup first.nodup second.nodup).2 same
  refine members.eq_of_pairwise (fun d e _ _ before after => ?_) first second
  rw [FlowEdge.compare_eq_lt_iff] at before after
  omega

/-- The blocks have one place and the same instructions, and bear one label if these place it. -/
structure Block.Alike (b b' : Block) : Prop where
  id : b'.id = b.id
  instrs : b'.instrs = b.instrs
  label : ∀ l, .label l ∈ b.instrs → b'.label = b.label

namespace Graph

/-- The graphs differ at most in the labels of blocks that place none. -/
structure Alike (g h : Graph) : Prop where
  scope : h.scope = g.scope
  entry : h.entry = g.entry
  exit : h.exit = g.exit
  outgoing : h.outgoing = g.outgoing
  incoming : h.incoming = g.incoming
  blocks : List.Forall₂ Block.Alike g.blocks h.blocks

structure Unambiguous (g : Graph) : Prop where
  distinct : (g.blocks.map (·.label)).Nodup
  placed : ∀ i ∈ g.instrs, ∀ l, i.target? = some l → .label l ∈ g.instrs

variable {g h : Graph} {b b' : Block} {l : Label}

/-! ## Well-formed graphs with the same edges -/

namespace WellFormed

/-- Edges leave blocks before the last only. -/
theorem lt_of_mem_outgoingOf (formed : g.WellFormed) {id : BlockId} {e : FlowEdge}
    (member : e ∈ g.outgoingOf id) : id.index + 1 < g.blocks.length := by
  have inside := (formed.inside id e member).1
  rw [formed.source id e member] at inside
  have notExit : id ≠ g.exit := by
    rintro rfl
    rw [formed.exit_stays] at member
    cases member
  have other : id.index ≠ g.blocks.length - 1 :=
    fun last => notExit (formed.exit ▸ congrArg BlockId.mk last)
  omega

theorem exists_block (formed : g.WellFormed) {id : BlockId} (inner : id.index + 1 < g.blocks.length) :
    ∃ b ∈ g.blocks.dropLast, b.id = id := by
  have found : g.blocks[id.index]? = some g.blocks[id.index] := List.getElem?_eq_getElem (by omega)
  exact ⟨_, mem_dropLast_of_getElem? found inner, formed.ids _ _ found⟩

/-- A label stands at the head of its block only, and the block bears it. -/
theorem head_of_mem (formed : g.WellFormed) (member : b ∈ g.blocks) (placed : .label l ∈ b.instrs) :
    b.instrs.head? = some (.label l) := by
  have inner : ¬ (b.id = g.entry ∨ b.id = g.exit) := by
    intro ends
    rw [formed.bare b member ends] at placed
    cases placed
  obtain ⟨notEntry, notExit⟩ := not_or.1 inner
  exact (formed.body b member notEntry notExit).head?_of_mem placed

theorem mem_incomingOf_iff (formed : g.WellFormed) {id : BlockId} {e : FlowEdge} :
    e ∈ g.incomingOf id ↔ e.destination = id ∧ e ∈ g.outgoingOf e.source := by
  rw [formed.paired]
  constructor
  · intro member
    have there := formed.destination id e member
    exact ⟨there, there ▸ member⟩
  · rintro ⟨rfl, member⟩
    exact member

theorem length_setsAt (formed : g.WellFormed) (side : Side) :
    (g.setsAt side).length = g.blocks.length := by
  cases side with
  | source => exact formed.outgoing_length
  | destination => exact formed.incoming_length

/-- Graphs of one size with the same edges out of their blocks have the same sets of edges. -/
theorem setsAt_eq (formed : g.WellFormed) (formed' : h.WellFormed)
    (increasing : ∀ side id, (g.edgesAt side id).Increasing)
    (increasing' : ∀ side id, (h.edgesAt side id).Increasing)
    (size : h.blocks.length = g.blocks.length)
    (same : ∀ id e, e ∈ h.outgoingOf id ↔ e ∈ g.outgoingOf id) (side : Side) :
    h.setsAt side = g.setsAt side := by
  have members (id : BlockId) (e : FlowEdge) : e ∈ h.edgesAt side id ↔ e ∈ g.edgesAt side id := by
    cases side with
    | source => exact same id e
    | destination =>
      rw [edgesAt_destination, edgesAt_destination, formed.mem_incomingOf_iff,
        formed'.mem_incomingOf_iff, same]
  apply List.ext_getElem
  · rw [formed.length_setsAt, formed'.length_setsAt, size]
  · intro k inside' inside
    have sets := (increasing' side ⟨k⟩).eq_of_mem_iff (increasing side ⟨k⟩) (members ⟨k⟩)
    simpa [edgesAt, inside, inside'] using sets

end WellFormed

/-! ## The blocks that the builder makes -/

/-- The blocks of a graph that is made again from the same instructions. -/
theorem Faithful.alike_layout (faithful : g.Faithful) (formed : g.WellFormed) (fresh : Nat → Label) :
    List.Forall₂ Block.Alike g.blocks (layout fresh g.instrs) := by
  have laid := laid_layout fresh g.instrs
  have cut := faithful.cut
  rw [← map_instrs_layout fresh g.instrs] at cut
  have size : g.blocks.length = (layout fresh g.instrs).length := by
    simpa using congrArg List.length cut
  refine List.forall₂_of_length_eq_of_get size fun k inside inside' => ?_
  rw [List.get_eq_getElem, List.get_eq_getElem]
  have found := List.getElem?_eq_getElem inside
  have found' := List.getElem?_eq_getElem inside'
  have instrs : (layout fresh g.instrs)[k].instrs = g.blocks[k].instrs := by
    have here := congrArg (·[k]?) cut
    simpa [found, found'] using here.symm
  refine ⟨?_, instrs, fun l placed => ?_⟩
  · rw [formed.ids k _ found, laid.ids k _ found']
  · have head := formed.head_of_mem (List.mem_of_getElem? found) placed
    rw [formed.label _ (List.mem_of_getElem? found) l head]
    rw [← instrs] at head
    rcases laid.label _ (List.mem_of_getElem? found') with ⟨-, bare⟩ | named
    · simp [head, Instr.placed?] at bare
    · cases named.symm.trans head
      rfl

/-- A label that one block alone bears leads there. -/
theorem resolve_eq_ok_of_unique {blocks : List Block} (scopeName : String) (member : b ∈ blocks)
    (bears : b.label = l) (only : ∀ c ∈ blocks, c.label = l → c = b) :
    resolve blocks scopeName l = .ok b.id := by
  have bearer := mem_bearers.2 ⟨member, bears⟩
  obtain ⟨c, last⟩ : ∃ c, (bearers blocks l).getLast? = some c := by
    cases shape : (bearers blocks l).getLast? with
    | none =>
      rw [List.getLast?_eq_none_iff.1 shape] at bearer
      cases bearer
    | some c => exact ⟨c, rfl⟩
  obtain ⟨among, named⟩ := mem_bearers.1 (List.mem_of_getLast? last)
  exact resolve_eq_ok_iff.2 ⟨c, last, congrArg Block.id (only c among named)⟩

/-- A graph exists when all blocks but the last know where they lead. -/
theorem exists_build {scope : ScopeId} {scopeName : String} {is : List Instr} {fresh : Nat → Label}
    (each : ∀ b ∈ (layout fresh is).dropLast, ∃ edges,
      leaving (resolve (layout fresh is) scopeName) ⟨(layout fresh is).length - 1⟩ b = .ok edges) :
    ∃ h, build scope scopeName is fresh = .ok h := by
  obtain ⟨lists, done⟩ := exists_mapM_of_forall each
  refine ⟨(unconnected scope (layout fresh is)).addEdges lists.flatten, ?_⟩
  change (layout fresh is).dropLast.mapM
    (leaving (resolve (layout fresh is) scopeName) ⟨(layout fresh is).length - 1⟩) >>= _ = _
  rw [done]
  rfl

/-! ## The edges that it finds -/

section Rebuilt

variable (formed : g.WellFormed) (faithful : g.Faithful) (clear : g.Unambiguous)
  {fresh : Nat → Label} (unplaced : ∀ n < labelsNeeded g.instrs, .label (fresh n) ∉ g.instrs)

include formed faithful clear unplaced

/-- A label that is placed leads to the same place again. -/
theorem resolve_layout {scopeName scopeName' : String} {there : BlockId}
    (placed : .label l ∈ g.instrs) (resolved : resolve g.blocks scopeName l = .ok there) :
    resolve (layout fresh g.instrs) scopeName' l = .ok there := by
  have laid := laid_layout fresh g.instrs
  have partners := faithful.alike_layout formed fresh
  obtain ⟨b, member, inside⟩ := List.mem_flatMap.1 placed
  have label := formed.label b member l (formed.head_of_mem member inside)
  -- The label has one bearer in the graph, and its partner bears it in the new one.
  have only (c : Block) (among : c ∈ g.blocks) (bears : c.label = l) : c = b :=
    List.inj_on_of_nodup_map clear.distinct among member (bears.trans label.symm)
  have known := resolve_eq_ok_of_unique scopeName member label only
  obtain rfl : b.id = there := Except.ok.inj (known.symm.trans resolved)
  obtain ⟨b', member', alike⟩ := exists_right_of_forall₂ partners member
  rw [← alike.id]
  refine resolve_eq_ok_of_unique scopeName' member' ((alike.label l inside).trans label) ?_
  intro c' among' bears'
  rcases laid.label c' among' with ⟨⟨n, small, invented⟩, -⟩ | head
  · rw [bears'] at invented
    rw [invented] at placed
    exact absurd placed (unplaced n small)
  · rw [bears'] at head
    obtain ⟨c, among, alike'⟩ := exists_left_of_forall₂ partners among'
    rw [alike'.instrs] at head
    have same := only c among (formed.label c among l head)
    exact laid.eq_of_id among' member' (by rw [alike'.id, alike.id, same])

/-- Before the last, every block is left by the edges that leave its partner. -/
theorem exists_leaving_layout (scopeName : String) {b' : Block}
    (member' : b' ∈ (layout fresh g.instrs).dropLast) :
    ∃ b ∈ g.blocks.dropLast, b'.id = b.id ∧ ∃ edges,
      leaving (resolve (layout fresh g.instrs) scopeName) g.exit b' = .ok edges ∧
        ∀ e, e ∈ g.outgoingOf b.id ↔ e ∈ edges := by
  have partners := faithful.alike_layout formed fresh
  rw [List.dropLast_eq_take, ← partners.length_eq] at member'
  obtain ⟨b, member, alike⟩ := exists_left_of_forall₂ (List.forall₂_take _ partners) member'
  rw [← List.dropLast_eq_take] at member
  obtain ⟨_, left⟩ := faithful.left
  obtain ⟨edges, leaves, same⟩ := left b member
  refine ⟨b, member, alike.id, edges, ?_, same⟩
  have target : b'.target? = b.target? := by rw [Block.target?, alike.instrs, Block.target?]
  have passes : b'.passes = b.passes := by rw [Block.passes, alike.instrs, Block.passes]
  apply leaving_of_target?_eq (fun l => l) alike.id (by simp [target]) passes _ leaves
  intro l there jumps found
  obtain ⟨i, last, target⟩ := Option.bind_eq_some_iff.1 jumps
  have inside := List.mem_flatMap.2 ⟨b, List.dropLast_subset _ member, List.mem_of_getLast? last⟩
  exact resolve_layout formed faithful clear unplaced (clear.placed i inside l target) found

/-- So the graph is built again, up to the labels that the builder invents. -/
theorem exists_build_alike (scopeName : String) :
    ∃ h, build g.scope scopeName g.instrs fresh = .ok h ∧ g.Alike h := by
  have partners := faithful.alike_layout formed fresh
  have size := partners.length_eq
  have exit : g.exit = ⟨(layout fresh g.instrs).length - 1⟩ := by rw [formed.exit, size]
  have each (b' : Block) (member' : b' ∈ (layout fresh g.instrs).dropLast) :=
    exists_leaving_layout formed faithful clear unplaced scopeName member'
  obtain ⟨h, built⟩ : ∃ h, build g.scope scopeName g.instrs fresh = .ok h := by
    apply exists_build
    intro b' member'
    obtain ⟨b, -, -, edges, left, -⟩ := each b' member'
    exact ⟨edges, exit ▸ left⟩
  have formed' := wellFormed_of_build built
  have blocks := blocks_of_build built
  have exit' : h.exit = g.exit := by rw [exit_of_build built, blocks, exit]
  have outgoing (id : BlockId) (e : FlowEdge) : e ∈ h.outgoingOf id ↔ e ∈ g.outgoingOf id := by
    by_cases inner : id.index + 1 < h.blocks.length
    · obtain ⟨b', member', rfl⟩ := formed'.exists_block inner
      obtain ⟨b, -, place, edges, left, same⟩ := each b' (blocks ▸ member')
      rw [← blocks, ← exit'] at left
      rw [mem_outgoingOf_id_iff built member', place, same, mem_leaving_iff left]
    · have size' : h.blocks.length = g.blocks.length := by rw [blocks, size]
      exact ⟨fun member => absurd (formed'.lt_of_mem_outgoingOf member) inner,
        fun member => absurd (formed.lt_of_mem_outgoingOf member) (size' ▸ inner)⟩
  have sets := formed.setsAt_eq formed' faithful.increasing (increasing_of_build built)
    (by rw [blocks, size]) outgoing
  refine ⟨h, built, ?_⟩
  exact {
    scope := scope_of_build built
    entry := by rw [entry_of_build built, formed.entry]
    exit := exit'
    outgoing := sets .source
    incoming := sets .destination
    blocks := blocks ▸ partners }

end Rebuilt

end Graph

end ClosureIR
