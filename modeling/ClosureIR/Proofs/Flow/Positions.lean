import ClosureIR.Proofs.Flow.Edges

/-!
# Where the blocks of a built graph stand

The instructions of a block stand in a row in the list that the graph was built
from.  A label resolves to the block that begins where the label is placed.
-/

namespace ClosureIR

/-- A label that is placed once is placed at one position. -/
theorem Instr.label_position_unique {is : List Instr} (once : (is.filterMap placed?).Nodup)
    {l : Label} {i j : Nat} (here : is[i]? = some (.label l)) (there : is[j]? = some (.label l)) :
    i = j := by
  rw [List.Nodup, List.pairwise_filterMap, List.pairwise_iff_getElem] at once
  have apart (i j : Nat) (before : i < j) (here : is[i]? = some (.label l))
      (there : is[j]? = some (.label l)) : False := by
    obtain ⟨first, here⟩ := List.getElem?_eq_some_iff.1 here
    obtain ⟨second, there⟩ := List.getElem?_eq_some_iff.1 there
    exact once i j first second before l (here ▸ rfl) l (there ▸ rfl) rfl
  rcases Nat.lt_trichotomy i j with before | same | after
  · exact (apart i j before here there).elim
  · exact same
  · exact (apart j i after there here).elim

namespace Graph

def startOf (g : Graph) (k : Nat) : Nat := ((g.blocks.take k).flatMap (·.instrs)).length

variable {g : Graph} {fresh : Nat → Label} {is : List Instr} {k : Nat} {b : Block}

theorem startOf_succ (found : g.blocks[k]? = some b) :
    g.startOf (k + 1) = g.startOf k + b.instrs.length := by
  simp [startOf, List.take_add_one, found]

namespace Laid

/-- The instructions of a block stand in a row from its start on. -/
theorem getElem?_startOf (laid : Laid g.blocks fresh is) (found : g.blocks[k]? = some b) {d : Nat}
    (inside : d < b.instrs.length) : is[g.startOf k + d]? = b.instrs[d]? := by
  obtain ⟨bound, rfl⟩ := List.getElem?_eq_some_iff.1 found
  have parts : g.blocks = g.blocks.take k ++ g.blocks[k] :: g.blocks.drop (k + 1) := by simp
  have whole : is = (g.blocks.take k).flatMap (·.instrs) ++
      (g.blocks[k].instrs ++ (g.blocks.drop (k + 1)).flatMap (·.instrs)) := by
    rw [← List.flatMap_cons, ← List.flatMap_append, ← parts]
    exact laid.instrs.symm
  rw [whole, startOf, List.getElem?_append_right (Nat.le_add_right _ _), Nat.add_sub_cancel_left,
    List.getElem?_append_left inside]

theorem getElem?_within (laid : Laid g.blocks fresh is) (found : g.blocks[k]? = some b) {d : Nat}
    (inside : d < b.instrs.length) : is[g.startOf k + d]? = some b.instrs[d] :=
  (laid.getElem?_startOf found inside).trans (List.getElem?_eq_getElem inside)

theorem startOf_last (laid : Laid g.blocks fresh is) :
    g.startOf (g.blocks.length - 1) = is.length := by
  have size := laid.two_le
  have last : g.blocks.length - 1 < g.blocks.length := by omega
  have found := List.getElem?_eq_getElem last
  have behind := startOf_succ found
  rw [laid.exit _ found, Nat.sub_add_cancel (by omega), startOf, List.take_length,
    laid.instrs] at behind
  exact behind.symm

theorem startOf_one (laid : Laid g.blocks fresh is) : g.startOf 1 = 0 := by
  have size := laid.two_le
  have first : 0 < g.blocks.length := by omega
  have found := List.getElem?_eq_getElem first
  rw [startOf_succ found, laid.entry _ found]
  rfl

/-- A place inside a block lies before the end. -/
theorem lt_length (laid : Laid g.blocks fresh is) (found : g.blocks[k]? = some b) {d : Nat}
    (inside : d < b.instrs.length) : g.startOf k + d < is.length :=
  (List.getElem?_eq_some_iff.1 (laid.getElem?_within found inside)).1

/-- Behind the entry only the exit begins at the end. -/
theorem startOf_eq_length_iff (laid : Laid g.blocks fresh is) (positive : 0 < k)
    (inside : k < g.blocks.length) : g.startOf k = is.length ↔ k = g.blocks.length - 1 := by
  constructor
  · intro atEnd
    by_contra other
    have found := List.getElem?_eq_getElem inside
    have straight := laid.body k _ positive (by omega) found
    have before := laid.lt_length found (List.length_pos_iff.2 straight.nonempty)
    omega
  · rintro rfl
    exact laid.startOf_last

/-- A named label resolves to a block that it heads, as fresh labels are not named. -/
theorem position_of_resolve (laid : Laid g.blocks fresh is) {scopeName : String} {l : Label}
    {there : BlockId} (unnamed : ∀ n < labelsNeeded is, fresh n ≠ l)
    (resolved : resolve g.blocks scopeName l = .ok there) :
    0 < there.index ∧ there.index + 1 < g.blocks.length ∧
      is[g.startOf there.index]? = some (.label l) := by
  rw [resolve] at resolved
  cases target : jumpTarget? g.blocks l with
  | none => simp [target] at resolved
  | some id =>
    rw [target] at resolved
    cases resolved
    rw [jumpTarget?, Option.map_eq_some_iff] at target
    obtain ⟨b, last, rfl⟩ := target
    obtain ⟨member, same⟩ := List.mem_filter.1 (List.mem_of_getLast? last)
    have label : b.label = l := of_decide_eq_true same
    subst label
    obtain ⟨k, found⟩ := List.mem_iff_getElem?.1 member
    have head : b.instrs.head? = some (.label b.label) := by
      rcases laid.label b member with ⟨⟨n, taken, invented⟩, -⟩ | head
      · exact (unnamed n taken invented.symm).elim
      · exact head
    have bound := (List.getElem?_eq_some_iff.1 found).1
    have notEntry : k ≠ 0 := by
      rintro rfl
      simp [laid.entry b found] at head
    have notExit : k ≠ g.blocks.length - 1 := by
      rintro rfl
      simp [laid.exit b found] at head
    have start := laid.getElem?_startOf found (d := 0) (by
      cases shape : b.instrs with
      | nil => simp [shape] at head
      | cons i rest => exact Nat.succ_pos _)
    have inner : k + 1 < g.blocks.length := by omega
    rw [laid.ids k b found]
    refine ⟨Nat.pos_of_ne_zero notEntry, inner, ?_⟩
    rw [Nat.add_zero, ← List.head?_eq_getElem?] at start
    exact start.trans head

end Laid

end Graph

end ClosureIR
