import ClosureIR.Proofs.Flow.Positions

/-!
# Paths of a graph are runs of its instructions

Instructions run from position to position.  Their graph is walked from block
to block, all instructions of a block at a time.  Both execute the same
instructions and pass on control in the same way.
-/

namespace ClosureIR

/-- An instruction that was executed, and how control went on from there. -/
abbrev Executed := Instr × EdgeKind

namespace Instr

/-- Control goes from the position `i` to the position `j`; the end is the position behind the last. -/
inductive Step (is : List Instr) (i : Nat) : EdgeKind → Nat → Prop where
  | taken {j : Nat} {instr : Instr} {l : Label} (here : is[i]? = some instr)
      (target : instr.target? = some l) (there : is[j]? = some (.label l)) : Step is i .regular j
  | ret {v : Operand} (here : is[i]? = some (.ret v)) : Step is i .exit is.length
  | onward {instr : Instr} (here : is[i]? = some instr) (passes : instr.passes = true) :
      Step is i (if i + 1 = is.length then .exit else .fallThrough) (i + 1)

/-- Instructions that are executed on the way from the first position to another. -/
inductive Run (is : List Instr) : List Executed → Nat → Prop where
  | start : Run is [] 0
  | step {trace : List Executed} {i j : Nat} {instr : Instr} {kind : EdgeKind}
      (before : Run is trace i) (here : is[i]? = some instr) (step : Step is i kind j) :
      Run is (trace ++ [(instr, kind)]) j

theorem mem_labels_of_target? {i : Instr} {l : Label} (target : i.target? = some l) :
    l ∈ i.labels := by
  cases i <;> cases target <;> exact List.mem_singleton_self _

/-- Inside a block there is one way, to the next position. -/
theorem step_iff_of_not_isTerminator {is : List Instr} {i j : Nat} {instr : Instr} {kind : EdgeKind}
    (here : is[i]? = some instr) (flows : instr.isTerminator = false) (before : i + 1 < is.length) :
    Step is i kind j ↔ kind = .fallThrough ∧ j = i + 1 := by
  have passes : instr.passes = true := by cases instr <;> first | rfl | cases flows
  have onward := Step.onward here passes
  rw [if_neg (Nat.ne_of_lt before)] at onward
  constructor
  · intro step
    cases step with
    | taken here' target =>
      cases here.symm.trans here'
      rw [target?_isSome_isTerminator target] at flows
      cases flows
    | ret here' =>
      cases here.symm.trans here'
      cases flows
    | onward here' passes' => exact ⟨if_neg (Nat.ne_of_lt before), rfl⟩
  · rintro ⟨rfl, rfl⟩
    exact onward

end Instr

def Block.executed (b : Block) (kind : EdgeKind) : List Executed :=
  b.instrs.dropLast.map (·, .fallThrough) ++ b.instrs.getLast?.toList.map (·, kind)

namespace Graph

/-- Instructions of the blocks that are left on a way from the entry to a block. -/
inductive Path (g : Graph) : List Executed → BlockId → Prop where
  | start : Path g [] g.entry
  | step {trace : List Executed} {id : BlockId} {b : Block} {edge : FlowEdge}
      (before : Path g trace id) (block : g.blocks[id.index]? = some b)
      (left : edge ∈ g.outgoingOf id) : Path g (trace ++ b.executed edge.kind) edge.destination

variable {scope : ScopeId} {scopeName : String} {is : List Instr} {fresh : Nat → Label} {g : Graph}
  {k : Nat} {b : Block}

/-! ## Inside a block -/

theorem target_ne_fresh (unnamed : ∀ n < labelsNeeded is, fresh n ∉ is.flatMap (·.labels))
    {i : Instr} {l : Label} (member : i ∈ is) (target : i.target? = some l) (n : Nat)
    (taken : n < labelsNeeded is) : fresh n ≠ l := by
  rintro rfl
  exact unnamed n taken (List.mem_flatMap.2 ⟨i, member, Instr.mem_labels_of_target? target⟩)

theorem getElem?_last (laid : Laid g.blocks fresh is) (found : g.blocks[k]? = some b) {d : Nat}
    (last : d + 1 = b.instrs.length) : is[g.startOf k + d]? = b.instrs.getLast? := by
  rw [laid.getElem?_startOf found (by omega), List.getLast?_eq_getElem?, ← last,
    Nat.add_sub_cancel]

theorem startOf_next (found : g.blocks[k]? = some b) {d : Nat} (last : d + 1 = b.instrs.length) :
    g.startOf (k + 1) = g.startOf k + d + 1 := by
  rw [startOf_succ found, ← last, Nat.add_assoc]

/-- Inside a block control goes on to the next instruction of the block. -/
theorem step_inside_iff (laid : Laid g.blocks fresh is) (found : g.blocks[k]? = some b)
    (positive : 0 < k) (inner : k + 1 < g.blocks.length) {d j : Nat} {kind : EdgeKind}
    (inside : d + 1 < b.instrs.length) :
    Instr.Step is (g.startOf k + d) kind j ↔
      kind = .fallThrough ∧ j = g.startOf k + (d + 1) := by
  have before := Nat.lt_of_succ_lt inside
  have here := laid.getElem?_within found before
  have member : b.instrs[d] ∈ b.instrs.dropLast :=
    mem_dropLast_of_getElem? (List.getElem?_eq_getElem before) inside
  have flows := (laid.body k b positive inner found).flowing _ member
  exact Instr.step_iff_of_not_isTerminator here flows (laid.lt_length found inside)

/-- A run that comes to a block executes its instructions, one after the other. -/
theorem run_through (laid : Laid g.blocks fresh is) (found : g.blocks[k]? = some b)
    (positive : 0 < k) (inner : k + 1 < g.blocks.length) {trace : List Executed}
    (run : Instr.Run is trace (g.startOf k)) {d : Nat} (inside : d < b.instrs.length) :
    Instr.Run is (trace ++ (b.instrs.take d).map (·, .fallThrough)) (g.startOf k + d) := by
  induction d with
  | zero => simpa using run
  | succ d ih =>
    have before := Nat.lt_of_succ_lt inside
    have here := laid.getElem?_within found before
    have step := (step_inside_iff laid found positive inner inside).2 ⟨rfl, rfl⟩
    have extended := (ih before).step here step
    rw [List.take_add_one, List.getElem?_eq_getElem before, List.map_append, ← List.append_assoc]
    exact extended

theorem executed_eq {d : Nat} {i : Instr} (here : b.instrs[d]? = some i)
    (last : d + 1 = b.instrs.length) (kind : EdgeKind) :
    b.executed kind = (b.instrs.take d).map (·, .fallThrough) ++ [(i, kind)] := by
  have final : b.instrs.getLast? = some i := by
    rw [List.getLast?_eq_getElem?, ← last, Nat.add_sub_cancel, here]
  rw [Block.executed, final, List.dropLast_eq_take, ← last, Nat.add_sub_cancel]
  rfl

/-- Where a run is in the graph: inside a block on some path, or at the exit. -/
inductive Reached (g : Graph) : List Executed → Nat → Prop where
  | inside {before : List Executed} {k d : Nat} {b : Block} (path : Path g before ⟨k⟩)
      (found : g.blocks[k]? = some b) (positive : 0 < k) (inner : k + 1 < g.blocks.length)
      (within : d < b.instrs.length) :
      Reached g (before ++ (b.instrs.take d).map (·, .fallThrough)) (g.startOf k + d)
  | exit {trace : List Executed} (path : Path g trace g.exit) :
      Reached g trace (g.startOf g.exit.index)

/-! ## Out of a block -/

section Built

variable (built : build scope scopeName is fresh = .ok g)
  (once : (is.filterMap Instr.placed?).Nodup)
  (unnamed : ∀ n < labelsNeeded is, fresh n ∉ is.flatMap (·.labels))

include built

/-- The edges that leave a block other than the exit are the ways to leave it. -/
theorem mem_outgoingOf_iff_leaves (found : g.blocks[k]? = some b)
    (inner : k + 1 < g.blocks.length) {edge : FlowEdge} :
    edge ∈ g.outgoingOf ⟨k⟩ ↔ Leaves (resolve g.blocks scopeName) g.exit b edge := by
  rw [← (laid_of_build built).ids k b found]
  exact mem_outgoingOf_id_iff built (mem_dropLast_of_getElem? found inner)

/-- Only the exit is not left. -/
theorem exists_outgoing (found : g.blocks[k]? = some b) (inner : k + 1 < g.blocks.length) :
    ∃ edge, edge ∈ g.outgoingOf ⟨k⟩ := by
  obtain ⟨es, left⟩ := exists_leaving_of_build built (mem_dropLast_of_getElem? found inner)
  obtain ⟨edge, leaves⟩ := exists_leaves left
  exact ⟨edge, (mem_outgoingOf_iff_leaves built found inner).2 leaves⟩

theorem inner_of_mem_outgoingOf {edge : FlowEdge} (left : edge ∈ g.outgoingOf ⟨k⟩) :
    k + 1 < g.blocks.length := by
  obtain ⟨b, member, here, -⟩ := (mem_outgoingOf_build_iff built).1 left
  have before := (laid_of_build built).succ_lt_length_of_mem member
  rwa [here] at before

/-- The step onward from the last instruction of a block is of the kind of the edge onward. -/
theorem kind_onward (inner : k + 1 < g.blocks.length) :
    (onward g.exit ⟨k⟩).kind = if g.startOf (k + 1) = is.length then .exit else .fallThrough := by
  have atEnd := (laid_of_build built).startOf_eq_length_iff (Nat.succ_pos k) inner
  rw [onward, exit_of_build built]
  simp only [BlockId.mk.injEq, atEnd]

include unnamed in
/-- An edge leads to a block behind the entry. -/
theorem destination_bounds (found : g.blocks[k]? = some b) (inner : k + 1 < g.blocks.length)
    {edge : FlowEdge} (left : edge ∈ g.outgoingOf ⟨k⟩) :
    0 < edge.destination.index ∧ edge.destination.index < g.blocks.length := by
  have laid := laid_of_build built
  have leaves := (mem_outgoingOf_iff_leaves built found inner).1 left
  rw [exit_of_build built] at leaves
  refine ⟨?_, laid.inside_of_leaves (mem_dropLast_of_getElem? found inner) leaves .destination⟩
  cases leaves with
  | @taken i l there last target resolved =>
    have member : i ∈ is := by
      rw [← laid.instrs]
      exact List.mem_flatMap.2 ⟨b, List.mem_of_getElem? found, List.mem_of_getLast? last⟩
    exact (laid.position_of_resolve (target_ne_fresh unnamed member target) resolved).1
  | ret last =>
    have size := laid.two_le
    simp only
    omega
  | onward passes =>
    rw [laid.ids k b found]
    exact Nat.succ_pos k

include once unnamed in
/-- A step from the last instruction of a block follows an edge that leaves the block. -/
theorem exists_edge_of_step (found : g.blocks[k]? = some b) (inner : k + 1 < g.blocks.length)
    {d j : Nat} {kind : EdgeKind} (last : d + 1 = b.instrs.length) (step : Instr.Step is (g.startOf k + d) kind j) :
    ∃ edge ∈ g.outgoingOf ⟨k⟩, edge.kind = kind ∧ g.startOf edge.destination.index = j := by
  have laid := laid_of_build built
  have place := getElem?_last laid found last
  cases step with
  | taken here target there =>
    obtain ⟨es, left⟩ := exists_leaving_of_build built (mem_dropLast_of_getElem? found inner)
    obtain ⟨id, resolved⟩ := exists_resolved left (place ▸ here) target
    have leaves : Leaves (resolve g.blocks scopeName) g.exit b ⟨b.id, id, .regular⟩ :=
      .taken (place ▸ here) target resolved
    refine ⟨_, (mem_outgoingOf_iff_leaves built found inner).2 leaves, rfl, ?_⟩
    obtain ⟨-, -, start⟩ := laid.position_of_resolve
      (target_ne_fresh unnamed (List.mem_of_getElem? here) target) resolved
    exact Instr.label_position_unique once start there
  | ret here =>
    have leaves : Leaves (resolve g.blocks scopeName) g.exit b ⟨b.id, g.exit, .exit⟩ :=
      .ret (place ▸ here)
    refine ⟨_, (mem_outgoingOf_iff_leaves built found inner).2 leaves, rfl, ?_⟩
    rw [exit_of_build built]
    exact laid.startOf_last
  | onward here passes =>
    have leaves : Leaves (resolve g.blocks scopeName) g.exit b (Graph.onward g.exit b.id) := by
      refine .onward fun i last => ?_
      cases here.symm.trans (place.trans last)
      exact passes
    refine ⟨_, (mem_outgoingOf_iff_leaves built found inner).2 leaves, ?_, ?_⟩
    · rw [laid.ids k b found, kind_onward built inner, startOf_next found last]
    · rw [laid.ids k b found]
      exact startOf_next found last

include unnamed in
/-- An edge that leaves a block is a step from its last instruction. -/
theorem step_of_edge (found : g.blocks[k]? = some b) (inner : k + 1 < g.blocks.length) {d : Nat}
    (last : d + 1 = b.instrs.length) {edge : FlowEdge} (left : edge ∈ g.outgoingOf ⟨k⟩) :
    Instr.Step is (g.startOf k + d) edge.kind (g.startOf edge.destination.index) := by
  have laid := laid_of_build built
  have place := getElem?_last laid found last
  cases (mem_outgoingOf_iff_leaves built found inner).1 left with
  | taken final target resolved =>
    have here := place.trans final
    obtain ⟨-, -, start⟩ := laid.position_of_resolve
      (target_ne_fresh unnamed (List.mem_of_getElem? here) target) resolved
    exact .taken here target start
  | ret final =>
    rw [exit_of_build built, laid.startOf_last]
    exact .ret (place.trans final)
  | onward passes =>
    have bound : d < b.instrs.length := by omega
    have here := laid.getElem?_within found bound
    have step := Instr.Step.onward here (passes _ (place ▸ here))
    rw [← startOf_next found last, ← kind_onward built inner] at step
    rw [laid.ids k b found]
    exact step

/-! ## From paths to runs -/

include unnamed in
/-- A run that comes to a block goes on along any edge that leaves the block. -/
theorem run_across (found : g.blocks[k]? = some b) {edge : FlowEdge}
    (left : edge ∈ g.outgoingOf ⟨k⟩) {trace : List Executed} (run : Instr.Run is trace (g.startOf k)) :
    Instr.Run is (trace ++ b.executed edge.kind) (g.startOf edge.destination.index) := by
  have laid := laid_of_build built
  have inner := inner_of_mem_outgoingOf built left
  rcases Nat.eq_zero_or_pos k with rfl | positive
  · have bare := laid.entry b found
    have next : edge.destination = ⟨1⟩ := by
      cases (mem_outgoingOf_iff_leaves built found inner).1 left with
      | taken last => simp [bare] at last
      | ret last => simp [bare] at last
      | onward passes =>
        rw [laid.ids 0 b found]
        rfl
    have nothing : b.executed edge.kind = [] := by simp [Block.executed, bare]
    rw [nothing, next, List.append_nil, laid.startOf_one]
    exact run
  · have size := List.length_pos_iff.2 (laid.body k b positive inner found).nonempty
    have last : b.instrs.length - 1 + 1 = b.instrs.length := Nat.sub_add_cancel size
    have bound : b.instrs.length - 1 < b.instrs.length := Nat.sub_lt size Nat.one_pos
    have here := laid.getElem?_within found bound
    have step := step_of_edge built unnamed found inner last left
    rw [executed_eq (List.getElem?_eq_getElem bound) last, ← List.append_assoc]
    exact (run_through laid found positive inner run bound).step here step

include unnamed in
theorem run_of_path {trace : List Executed} {id : BlockId} (path : Path g trace id) :
    Instr.Run is trace (g.startOf id.index) := by
  induction path with
  | start =>
    rw [entry_of_build built]
    exact .start
  | step before block left ih => exact run_across built unnamed block left ih

/-! ## From runs to paths -/

/-- A path to a block behind the entry reaches the start of the block. -/
theorem reached_of_path {trace : List Executed} {id : BlockId} (path : Path g trace id)
    (positive : 0 < id.index) (bound : id.index < g.blocks.length) : Reached g trace (g.startOf id.index) := by
  rcases id with ⟨k⟩
  change 0 < k at positive
  change k < g.blocks.length at bound
  by_cases last : k + 1 = g.blocks.length
  · have exit : g.exit = ⟨k⟩ := by rw [exit_of_build built, ← last, Nat.add_sub_cancel]
    have reached := Reached.exit (exit ▸ path)
    rw [exit] at reached
    exact reached
  · have inner : k + 1 < g.blocks.length := by omega
    have found := List.getElem?_eq_getElem bound
    have straight := (laid_of_build built).body k _ positive inner found
    have start := Reached.inside path found positive inner (List.length_pos_iff.2 straight.nonempty)
    simpa using start

/-- The entry is left for the block behind it. -/
theorem path_behind_entry : Path g [] ⟨1⟩ := by
  have laid := laid_of_build built
  have size := laid.two_le
  have first : 0 < g.blocks.length := by omega
  have found := List.getElem?_eq_getElem first
  have bare := laid.entry _ found
  have leaves : Leaves (resolve g.blocks scopeName) g.exit g.blocks[0] (onward g.exit ⟨0⟩) := by
    rw [← laid.ids 0 _ found]
    exact .onward fun i last => by simp [bare] at last
  have left := (mem_outgoingOf_iff_leaves built found size).2 leaves
  have entry : Path g [] ⟨0⟩ := by
    rw [← entry_of_build built]
    exact .start
  have path := entry.step found left
  rw [Block.executed, bare] at path
  exact path

include once unnamed in
theorem reached_of_run {trace : List Executed} {j : Nat} (run : Instr.Run is trace j) :
    Reached g trace j := by
  have laid := laid_of_build built
  induction run with
  | start =>
    have start := reached_of_path built (path_behind_entry built) Nat.one_pos laid.two_le
    rw [laid.startOf_one] at start
    exact start
  | step before here step ih =>
    cases ih with
    | @inside trace k d b path found positive inner within =>
      rw [laid.getElem?_startOf found within] at here
      rcases Nat.lt_or_eq_of_le (Nat.succ_le_of_lt within) with more | last
      · obtain ⟨rfl, rfl⟩ := (step_inside_iff laid found positive inner more).1 step
        have further := Reached.inside path found positive inner more
        rw [List.take_add_one, here, List.map_append, ← List.append_assoc] at further
        exact further
      · obtain ⟨edge, left, rfl, rfl⟩ := exists_edge_of_step built once unnamed found inner last step
        obtain ⟨behind, bound⟩ := destination_bounds built unnamed found inner left
        rw [List.append_assoc, ← executed_eq here last]
        exact reached_of_path built (path.step found left) behind bound
    | exit path =>
      rw [exit_of_build built, laid.startOf_last] at here
      simp at here

/-- A run can be finished to the end of the block that it is in. -/
theorem path_of_reached {trace : List Executed} {j : Nat} (reached : Reached g trace j) :
    ∃ rest id, Path g (trace ++ rest) id := by
  cases reached with
  | @inside before k d b path found positive inner within =>
    obtain ⟨edge, left⟩ := exists_outgoing built found inner
    have early : b.instrs.take d <+: b.instrs.dropLast := by
      rw [List.dropLast_eq_take]
      exact List.take_prefix_take_left (by omega)
    obtain ⟨others, whole⟩ := early
    refine ⟨others.map (·, .fallThrough) ++ b.instrs.getLast?.toList.map (·, edge.kind),
      edge.destination, ?_⟩
    have step := path.step found left
    rw [Block.executed, ← whole, List.map_append] at step
    simpa only [List.append_assoc] using step
  | exit path => exact ⟨[], g.exit, by rwa [List.append_nil]⟩

/-- What reaches the end has left the last block on its way. -/
theorem path_of_reached_end {trace : List Executed} {j : Nat} (reached : Reached g trace j)
    (atEnd : j = is.length) : Path g trace g.exit := by
  cases reached with
  | inside path found positive inner within =>
    have before := (laid_of_build built).lt_length found within
    omega
  | exit path => exact path

end Built

/-- The paths of the graph from its entry and the runs of the instructions execute the same. -/
structure Follows (g : Graph) (is : List Instr) : Prop where
  path_of_run : ∀ trace i, Instr.Run is trace i → ∃ rest id, Path g (trace ++ rest) id
  run_of_path : ∀ trace id, Path g trace id → ∃ i, Instr.Run is trace i
  end_iff_exit : ∀ trace, Instr.Run is trace is.length ↔ Path g trace g.exit

/-- The paths of a built graph are the runs of its instructions. -/
theorem follows_of_build (built : build scope scopeName is fresh = .ok g)
    (once : (is.filterMap Instr.placed?).Nodup)
    (unnamed : ∀ n < labelsNeeded is, fresh n ∉ is.flatMap (·.labels)) : Follows g is := by
  constructor
  · intro trace i run
    exact path_of_reached built (reached_of_run built once unnamed run)
  · intro trace id path
    exact ⟨_, run_of_path built unnamed path⟩
  · intro trace
    constructor
    · intro run
      exact path_of_reached_end built (reached_of_run built once unnamed run) rfl
    · intro path
      have run := run_of_path built unnamed path
      rw [exit_of_build built, (laid_of_build built).startOf_last] at run
      exact run

def spin : List Instr :=
  [.label ⟨"AGAIN"⟩, .branchFalse (.boolean true) ⟨"DONE"⟩, .jump ⟨"AGAIN"⟩, .label ⟨"DONE"⟩,
    .ret .nil]

theorem follows_spin :
    ∃ g, build ⟨0⟩ "spin" spin (fun n => ⟨numbered "BB" n⟩) = .ok g ∧
      (spin.filterMap Instr.placed?).Nodup ∧
      (∀ n < labelsNeeded spin, (⟨numbered "BB" n⟩ : Label) ∉ spin.flatMap (·.labels)) ∧
      Follows g spin := by
  have once : (spin.filterMap Instr.placed?).Nodup := by decide
  have unnamed : ∀ n < labelsNeeded spin,
      (⟨numbered "BB" n⟩ : Label) ∉ spin.flatMap (·.labels) := by decide +kernel
  obtain ⟨g, built⟩ : ∃ g, build ⟨0⟩ "spin" spin (fun n => ⟨numbered "BB" n⟩) = .ok g := ⟨_, rfl⟩
  exact ⟨g, built, once, unnamed, follows_of_build built once unnamed⟩

end Graph

end ClosureIR
