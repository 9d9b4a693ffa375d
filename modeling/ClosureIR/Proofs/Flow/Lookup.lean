import ClosureIR.Proofs.Flow.Shape

/-!
# Finding blocks by their labels

A jump leads to the last block that bears its label, and a look-up by label
finds the first one.  The two agree just when no other block bears the label.
-/

namespace ClosureIR

namespace Graph

variable {scope : ScopeId} {scopeName : String} {is : List Instr} {fresh : Nat → Label} {g : Graph}
  {blocks : List Block} {b c : Block} {i : Instr} {l : Label} {there : BlockId} {edge : FlowEdge}

/-! ## Bearers of a label -/

def bearers (blocks : List Block) (l : Label) : List Block :=
  blocks.filter fun b => decide (b.label = l)

theorem mem_bearers : b ∈ bearers blocks l ↔ b ∈ blocks ∧ b.label = l := by
  simp [bearers]

/-- A jump leads to the last of them. -/
theorem resolve_eq_ok_iff : resolve blocks scopeName l = .ok there ↔
    ∃ b, (bearers blocks l).getLast? = some b ∧ b.id = there := by
  have target : jumpTarget? blocks l = some there ↔
      ∃ b, (bearers blocks l).getLast? = some b ∧ b.id = there := Option.map_eq_some_iff
  rw [← target, resolve]
  cases jumpTarget? blocks l <;> simp

/-- A look-up finds the first of them. -/
theorem blockForLabel?_eq_map_head? (g : Graph) (l : Label) :
    g.blockForLabel? l = (bearers g.blocks l).head?.map (·.id) := by
  rw [blockForLabel?, bearers, List.head?_filter]

/-- Blocks stand in the order of their numbers. -/
theorem Laid.increasing (laid : Laid blocks fresh is) :
    blocks.Pairwise fun a b => a.id.index < b.id.index := by
  rw [List.pairwise_iff_getElem]
  intro j k small large before
  rw [laid.ids j blocks[j] (List.getElem?_eq_getElem small),
    laid.ids k blocks[k] (List.getElem?_eq_getElem large)]
  exact before

section Laid

variable (laid : Laid blocks fresh is)

include laid in
/-- The last bearer of a label has the largest number. -/
theorem Laid.le_of_last (last : (bearers blocks l).getLast? = some c) (bears : b ∈ bearers blocks l) :
    b.id.index ≤ c.id.index := by
  have increasing := laid.increasing.filter (fun b => decide (b.label = l))
  obtain ⟨before, split⟩ := List.getLast?_eq_some_iff.1 last
  rw [bearers] at split bears
  rw [split, List.pairwise_append] at increasing
  rw [split, List.mem_append, List.mem_singleton] at bears
  rcases bears with earlier | rfl
  · exact Nat.le_of_lt (increasing.2.2 b earlier c List.mem_cons_self)
  · exact Nat.le_refl _

include laid in
/-- The first one has the smallest. -/
theorem Laid.le_of_first (first : (bearers blocks l).head? = some c) (bears : b ∈ bearers blocks l) :
    c.id.index ≤ b.id.index := by
  have increasing := laid.increasing.filter (fun b => decide (b.label = l))
  obtain ⟨after, split⟩ := List.head?_eq_some_iff.1 first
  rw [bearers] at split bears
  rw [split, List.pairwise_cons] at increasing
  rw [split, List.mem_cons] at bears
  rcases bears with rfl | later
  · exact Nat.le_refl _
  · exact Nat.le_of_lt (increasing.1 b later)

include laid in
/-- They are one block just when no other block bears the label. -/
theorem Laid.first_eq_last_iff (first : (bearers blocks l).head? = some b)
    (last : (bearers blocks l).getLast? = some c) :
    some b.id = some c.id ↔ ∀ d ∈ blocks, d.label = l → d = c := by
  obtain ⟨inside, -⟩ := mem_bearers.1 (List.mem_of_getLast? last)
  rw [Option.some.injEq]
  constructor
  · intro same d among bears
    have bearer := mem_bearers.2 ⟨among, bears⟩
    have low := laid.le_of_first first bearer
    have high := laid.le_of_last last bearer
    rw [same] at low
    have equal : d.id.index = c.id.index := Nat.le_antisymm high low
    exact laid.eq_of_id among inside (congrArg BlockId.mk equal)
  · intro only
    obtain ⟨among, bears⟩ := mem_bearers.1 (List.mem_of_head? first)
    rw [only b among bears]

end Laid

theorem exists_first_of_last (last : (bearers blocks l).getLast? = some c) :
    ∃ b, (bearers blocks l).head? = some b := by
  cases shape : bearers blocks l with
  | nil =>
    rw [shape] at last
    cases last
  | cons b rest => exact ⟨b, rfl⟩

/-! ## The edge of a jump -/

/-- A block with instructions is not the exit. -/
theorem Laid.mem_dropLast (laid : Laid blocks fresh is) (member : b ∈ blocks) (some : b.instrs ≠ []) :
    b ∈ blocks.dropLast := by
  have place := laid.getElem?_of_mem member
  have bound := laid.lt_length_of_mem member
  apply mem_dropLast_of_getElem? place
  have inner : b.id.index ≠ blocks.length - 1 := by
    intro atEnd
    rw [atEnd] at place
    exact some (laid.exit b place)
  omega

theorem kind_onward_ne_regular (exit id : BlockId) : (onward exit id).kind ≠ .regular := by
  by_cases atEnd : (⟨id.index + 1⟩ : BlockId) = exit <;> simp [onward, atEnd]

/-- The only regular edge of a block is that of its last instruction. -/
theorem mem_outgoingOf_regular_iff (built : build scope scopeName is fresh = .ok g)
    (member : b ∈ g.blocks.dropLast) (last : b.instrs.getLast? = some i) (target : i.target? = some l)
    (resolved : resolve g.blocks scopeName l = .ok there) :
    edge ∈ g.outgoingOf b.id ∧ edge.kind = .regular ↔ edge = ⟨b.id, there, .regular⟩ := by
  rw [mem_outgoingOf_id_iff built member]
  constructor
  · rintro ⟨leaves, regular⟩
    cases leaves with
    | taken last' target' resolved' =>
      cases last.symm.trans last'
      cases target.symm.trans target'
      cases resolved.symm.trans resolved'
      rfl
    | ret => cases regular
    | onward => exact absurd regular (kind_onward_ne_regular g.exit b.id)
  · rintro rfl
    exact ⟨.taken last target resolved, rfl⟩

/-- The regular edges of a block are one, to the block that its target resolves to. -/
theorem regular_of_resolved (built : build scope scopeName is fresh = .ok g)
    (member : b ∈ g.blocks.dropLast) (last : b.instrs.getLast? = some i) (target : i.target? = some l)
    (resolved : resolve g.blocks scopeName l = .ok there) :
    (g.outgoingOf b.id).filter (fun e => decide (e.kind = .regular)) = [⟨b.id, there, .regular⟩] := by
  have distinct := (wellFormed_of_build built).outgoing_nodup b.id
  have same : ((g.outgoingOf b.id).filter fun e => decide (e.kind = .regular)).Perm
      [⟨b.id, there, .regular⟩] := by
    have single : [(⟨b.id, there, .regular⟩ : FlowEdge)].Nodup := List.pairwise_singleton _ _
    apply (List.perm_ext_iff_of_nodup (distinct.filter _) single).2
    intro edge
    rw [List.mem_filter, decide_eq_true_iff, List.mem_singleton]
    exact mem_outgoingOf_regular_iff built member last target resolved
  exact List.perm_singleton.1 same

/--
A block that jumps to a label has one regular edge, to the last block that bears
the label, while a look-up of the label finds the first such block.  Both are
the same block just when no other block bears the label.
-/
theorem regular_of_build (built : build scope scopeName is fresh = .ok g) (member : b ∈ g.blocks)
    (last : b.instrs.getLast? = some i) (target : i.target? = some l) :
    ∃ first there, first ∈ g.blocks ∧ first.label = l ∧ there ∈ g.blocks ∧ there.label = l ∧
      (g.outgoingOf b.id).filter (fun e => decide (e.kind = .regular)) =
        [⟨b.id, there.id, .regular⟩] ∧
      g.blockForLabel? l = some first.id ∧
      (∀ c ∈ g.blocks, c.label = l →
        first.id.index ≤ c.id.index ∧ c.id.index ≤ there.id.index) ∧
      (g.blockForLabel? l = some there.id ↔ ∀ c ∈ g.blocks, c.label = l → c = there) := by
  have laid := laid_of_build built
  have some : b.instrs ≠ [] := by
    intro none
    rw [none] at last
    cases last
  have inner := laid.mem_dropLast member some
  obtain ⟨edges, left⟩ := exists_leaving_of_build built inner
  obtain ⟨id, resolved⟩ := exists_resolved left last target
  have regular := regular_of_resolved built inner last target resolved
  obtain ⟨there, final, rfl⟩ := resolve_eq_ok_iff.1 resolved
  obtain ⟨among, bears⟩ := mem_bearers.1 (List.mem_of_getLast? final)
  obtain ⟨first, initial⟩ := exists_first_of_last final
  obtain ⟨among', bears'⟩ := mem_bearers.1 (List.mem_of_head? initial)
  refine ⟨first, there, among', bears', among, bears, regular, ?_, ?_, ?_⟩
  · rw [blockForLabel?_eq_map_head?, initial, Option.map_some]
  · intro c inside same
    have bearer := mem_bearers.2 ⟨inside, same⟩
    exact ⟨laid.le_of_first initial bearer, laid.le_of_last final bearer⟩
  · rw [blockForLabel?_eq_map_head?, initial]
    exact laid.first_eq_last_iff initial final

def placedTwice : List Instr := [.label ⟨"AGAIN"⟩, .jump ⟨"AGAIN"⟩, .label ⟨"AGAIN"⟩]

def jumping : Block := ⟨⟨1⟩, ⟨"AGAIN"⟩, [.label ⟨"AGAIN"⟩, .jump ⟨"AGAIN"⟩]⟩

/-- The jump leads on to the second place, while a look-up finds the first. -/
theorem regular_placedTwice :
    ∃ g, build ⟨0⟩ "twice" placedTwice (fun n => ⟨numbered "BB" n⟩) = .ok g ∧ jumping ∈ g.blocks ∧
      ∃ there, (g.outgoingOf ⟨1⟩).filter (fun e => decide (e.kind = .regular)) =
          [⟨⟨1⟩, there, .regular⟩] ∧
        g.blockForLabel? ⟨"AGAIN"⟩ = some ⟨1⟩ ∧ there ≠ ⟨1⟩ := by
  obtain ⟨g, built⟩ : ∃ g, build ⟨0⟩ "twice" placedTwice (fun n => ⟨numbered "BB" n⟩) = .ok g :=
    ⟨_, rfl⟩
  have blocks := blocks_of_build built
  have member : jumping ∈ g.blocks := by
    rw [blocks]
    decide +kernel
  have second : (⟨⟨2⟩, ⟨"AGAIN"⟩, [.label ⟨"AGAIN"⟩]⟩ : Block) ∈ g.blocks := by
    rw [blocks]
    decide +kernel
  have found : g.blockForLabel? ⟨"AGAIN"⟩ = some ⟨1⟩ := by
    rw [blockForLabel?, blocks]
    decide +kernel
  obtain ⟨first, there, -, -, -, -, regular, -, bounds, -⟩ :=
    regular_of_build built member (i := .jump ⟨"AGAIN"⟩) rfl rfl
  refine ⟨g, built, member, there.id, regular, found, fun same => ?_⟩
  have later := (bounds _ second rfl).2
  rw [same] at later
  exact absurd later (by decide)

/-- So jumps do not always lead to the block that a look-up finds. -/
theorem not_forall_regular_blockForLabel? :
    ¬ ∀ (scope : ScopeId) (scopeName : String) (is : List Instr) (fresh : Nat → Label) (g : Graph)
      (b : Block) (i : Instr) (l : Label), build scope scopeName is fresh = .ok g →
      g.blocks.length < Counter.bound → b ∈ g.blocks → b.instrs.getLast? = some i →
      i.target? = some l →
      ∃ there, (g.outgoingOf b.id).filter (fun e => decide (e.kind = .regular)) =
        [⟨b.id, there, .regular⟩] ∧ g.blockForLabel? l = some there := by
  intro always
  have shape : (build ⟨0⟩ "twice" placedTwice fun n => ⟨numbered "BB" n⟩).toOption.any (fun g =>
      decide (g.blocks.length < Counter.bound ∧ jumping ∈ g.blocks ∧
        (g.outgoingOf ⟨1⟩).filter (fun e => decide (e.kind = .regular)) =
          [⟨⟨1⟩, ⟨2⟩, .regular⟩] ∧
        g.blockForLabel? ⟨"AGAIN"⟩ = some ⟨1⟩)) = true := by decide +kernel
  obtain ⟨g, built⟩ : ∃ g, build ⟨0⟩ "twice" placedTwice (fun n => ⟨numbered "BB" n⟩) = .ok g :=
    ⟨_, rfl⟩
  rw [built] at shape
  obtain ⟨small, member, regular, found⟩ := of_decide_eq_true shape
  obtain ⟨there, regular', found'⟩ := always _ _ _ _ g jumping _ _ built small member rfl rfl
  cases regular.symm.trans regular'
  cases found.symm.trans found'

end Graph

end ClosureIR
