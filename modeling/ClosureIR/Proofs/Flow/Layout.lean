import ClosureIR.Graph.Build
import ClosureIR.Proofs.Lists

/-!
# The blocks of a built graph

Between an empty entry and an empty exit stand the stretches of the
instructions.  Labels begin blocks and terminators end them.
-/

namespace ClosureIR

/-- Instructions that make up one block: a label comes first, a terminator last. -/
structure Instr.Straight (is : List Instr) : Prop where
  nonempty : is ≠ []
  inner : ∀ i ∈ is.tail, i.placed? = none
  flowing : ∀ i ∈ is.dropLast, i.isTerminator = false

namespace Instr.Straight

theorem singleton (i : Instr) : Straight [i] := ⟨by simp, by simp, by simp⟩

/-- An instruction without a label behind it joins the block that it leads to. -/
theorem cons {i : Instr} {is : List Instr} (straight : Straight is) (flows : i.isTerminator = false)
    (bare : is.head?.bind placed? = none) : Straight (i :: is) := by
  refine ⟨by simp, fun j member => ?_, fun j member => ?_⟩
  · rcases List.eq_nil_or_concat is with rfl | _
    · cases member
    · cases is with
      | nil => cases member
      | cons k rest =>
        rcases List.mem_cons.1 member with rfl | later
        · simpa using bare
        · exact straight.inner j later
  · rw [List.dropLast_cons_of_ne_nil straight.nonempty] at member
    rcases List.mem_cons.1 member with rfl | later
    · exact flows
    · exact straight.flowing j later

/-- A label is the first instruction. -/
theorem head?_of_mem {l : Label} {is : List Instr} (straight : Straight is)
    (placed : .label l ∈ is) : is.head? = some (.label l) := by
  cases is with
  | nil => cases placed
  | cons i rest =>
    rcases List.mem_cons.1 placed with rfl | later
    · rfl
    · cases straight.inner (.label l) later

/-- Only the last instruction may jump. -/
theorem target?_eq_none {i : Instr} {is : List Instr} (straight : Straight is)
    (before : i ∈ is.dropLast) : i.target? = none := by
  refine Option.eq_none_iff_forall_ne_some.2 fun l target => ?_
  have ends := target?_isSome_isTerminator target
  rw [straight.flowing i before] at ends
  cases ends

end Instr.Straight

namespace Stretch

structure Sound (s : Stretch) : Prop where
  straight : Instr.Straight s.instrs
  label : s.label = s.instrs.head?.bind Instr.placed?

theorem sound_of_mem_split {is : List Instr} {s : Stretch} (member : s ∈ split is) : s.Sound := by
  induction is generalizing s with
  | nil => cases member
  | cons i rest ih =>
    have alone : Sound ⟨i.placed?, [i]⟩ := ⟨.singleton i, rfl⟩
    rw [split] at member
    unfold prepend at member
    split at member
    · rename_i body others shape
      have next : Sound ⟨none, body⟩ := ih (shape ▸ List.mem_cons_self)
      split at member
      · rcases List.mem_cons.1 member with rfl | later
        · exact alone
        · exact ih (shape ▸ later)
      · rename_i flows
        rcases List.mem_cons.1 member with rfl | later
        · exact ⟨next.straight.cons (by simpa using flows) next.label.symm, rfl⟩
        · exact ih (shape ▸ List.mem_cons_of_mem _ later)
    · rcases List.mem_cons.1 member with rfl | later
      · exact alone
      · exact ih later

end Stretch

def Block.isAnonymous (b : Block) : Bool := (b.instrs.head?.bind Instr.placed?).isNone

namespace Graph

/-- What the blocks of a graph are, whose instructions are `is` and whose fresh labels are `fresh`. -/
structure Laid (blocks : List Block) (fresh : Nat → Label) (is : List Instr) : Prop where
  two_le : 2 ≤ blocks.length
  ids : ∀ (k : Nat) (b : Block), blocks[k]? = some b → b.id = ⟨k⟩
  instrs : blocks.flatMap (·.instrs) = is
  entry : ∀ b, blocks[0]? = some b → b.instrs = []
  exit : ∀ b, blocks[blocks.length - 1]? = some b → b.instrs = []
  body : ∀ k b, 0 < k → k + 1 < blocks.length → blocks[k]? = some b → Instr.Straight b.instrs
  label : ∀ b ∈ blocks, ((∃ n < labelsNeeded is, b.label = fresh n) ∧
    b.instrs.head?.bind Instr.placed? = none) ∨ b.instrs.head? = some (.label b.label)

variable {fresh : Nat → Label}

theorem id_of_bodyBlocks {id used k : Nat} {stretches : List Stretch} {b : Block}
    (found : (bodyBlocks fresh id used stretches)[k]? = some b) : b.id = ⟨id + k⟩ := by
  induction stretches generalizing id used k with
  | nil => simp [bodyBlocks] at found
  | cons s rest ih =>
    rcases s with ⟨_ | l, instrs⟩ <;> cases k with
    | zero =>
      cases found
      rfl
    | succ k =>
      have later := ih found
      rw [later, Nat.add_right_comm, Nat.add_assoc]

/-- Block by block the body has the instructions and the labels of the stretches. -/
theorem bodyBlocks_forall₂ (fresh : Nat → Label) (id used : Nat) (stretches : List Stretch) :
    List.Forall₂ (fun s b => b.instrs = s.instrs ∧
      (s.label = some b.label ∨
        s.label = none ∧ ∃ n < used + Stretch.anonymous stretches, b.label = fresh n))
      stretches (bodyBlocks fresh id used stretches) := by
  induction stretches generalizing id used with
  | nil => exact .nil
  | cons s rest ih =>
    rcases s with ⟨_ | l, instrs⟩
    · have count : Stretch.anonymous (⟨none, instrs⟩ :: rest) = Stretch.anonymous rest + 1 := rfl
      rw [count, ← Nat.add_assoc, Nat.add_right_comm]
      exact .cons ⟨rfl, .inr ⟨rfl, used, by omega, rfl⟩⟩ (ih _ _)
    · exact .cons ⟨rfl, .inl rfl⟩ (ih _ _)

/-- A block of the body is straight; it has the label that it begins with, or a fresh one. -/
theorem sound_of_mem_bodyBlocks {is : List Instr} {b : Block}
    (member : b ∈ bodyBlocks fresh 1 1 (Stretch.split is)) :
    Instr.Straight b.instrs ∧
      (((∃ n < labelsNeeded is, b.label = fresh n) ∧ b.instrs.head?.bind Instr.placed? = none) ∨
        b.instrs.head? = some (.label b.label)) := by
  obtain ⟨s, inside, same, label⟩ := exists_left_of_forall₂ (bodyBlocks_forall₂ ..) member
  have sound := Stretch.sound_of_mem_split inside
  rw [same]
  constructor
  · exact sound.straight
  · rcases label with known | ⟨bare, n, taken, invented⟩
    · rw [sound.label, Option.bind_eq_some_iff] at known
      obtain ⟨i, head, placed⟩ := known
      rw [Instr.placed?_eq_some_iff] at placed
      exact .inr (head.trans (congrArg some placed))
    · refine .inl ⟨⟨n, ?_, invented⟩, sound.label.symm.trans bare⟩
      rw [labelsNeeded]
      omega

theorem laid_layout (fresh : Nat → Label) (is : List Instr) : Laid (layout fresh is) fresh is := by
  have partners := bodyBlocks_forall₂ fresh 1 1 (Stretch.split is)
  have sound (b : Block) (member : b ∈ bodyBlocks fresh 1 1 (Stretch.split is)) :=
    sound_of_mem_bodyBlocks member
  generalize shape : bodyBlocks fresh 1 1 (Stretch.split is) = body at partners sound
  have blocks : layout fresh is = ⟨⟨0⟩, fresh 0, []⟩ :: (body ++
      [⟨⟨body.length + 1⟩, fresh (Stretch.anonymous (Stretch.split is) + 1), []⟩]) := by
    rw [layout, shape]
  rw [blocks]
  refine ⟨by simp, ?_, ?_, ?_, ?_, ?_, ?_⟩
  · intro k b found
    cases k with
    | zero =>
      cases found
      rfl
    | succ k =>
      rw [List.getElem?_cons_succ, List.getElem?_append] at found
      split at found
      · rw [← shape] at found
        rw [id_of_bodyBlocks found, Nat.add_comm]
      · rename_i beyond
        obtain ⟨last, rfl⟩ := List.getElem?_eq_some_iff.1 found
        simp only [List.length_singleton] at last
        have here : k = body.length := by omega
        simp [here]
  · have same := flatMap_eq_of_forall₂ (partners.imp fun _ _ here => here.1)
    simp [same, Stretch.flatMap_split]
  · rintro b found
    cases found
    rfl
  · intro b found
    simp at found
    rw [← found]
  · intro k b positive inner found
    obtain ⟨k, rfl⟩ := Nat.exists_eq_succ_of_ne_zero (Nat.pos_iff_ne_zero.1 positive)
    simp only [List.length_cons, List.length_append, List.length_nil] at inner
    rw [Nat.succ_eq_add_one, List.getElem?_cons_succ, List.getElem?_append_left (by omega)] at found
    exact (sound b (List.mem_of_getElem? found)).1
  · intro b member
    rcases List.mem_cons.1 member with rfl | later
    · exact .inl ⟨⟨0, Nat.succ_pos _, rfl⟩, rfl⟩
    · rcases List.mem_append.1 later with inner | last
      · exact (sound b inner).2
      · cases List.mem_singleton.1 last
        exact .inl ⟨⟨_, Nat.lt_succ_self _, rfl⟩, rfl⟩

theorem anonymous_bodyBlocks (fresh : Nat → Label) (id used : Nat) {stretches : List Stretch}
    (sound : ∀ s ∈ stretches, s.Sound) :
    ((bodyBlocks fresh id used stretches).filter (·.isAnonymous)).map (·.label) =
      (List.range' used (Stretch.anonymous stretches)).map fresh := by
  induction stretches generalizing id used with
  | nil => rfl
  | cons s rest ih =>
    obtain ⟨here, others⟩ := List.forall_mem_cons.1 sound
    rcases s with ⟨_ | l, instrs⟩
    · have first : Block.isAnonymous ⟨⟨id⟩, fresh used, instrs⟩ = true := by
        rw [Block.isAnonymous, ← here.label]
        rfl
      have count : Stretch.anonymous (⟨none, instrs⟩ :: rest) = Stretch.anonymous rest + 1 := rfl
      rw [bodyBlocks, List.filter_cons_of_pos first, List.map_cons, ih _ _ others, count,
        List.range'_succ, List.map_cons]
    · have first : ¬ Block.isAnonymous ⟨⟨id⟩, l, instrs⟩ = true := by
        rw [Block.isAnonymous, ← here.label]
        simp
      have count : Stretch.anonymous (⟨some l, instrs⟩ :: rest) = Stretch.anonymous rest := rfl
      rw [bodyBlocks, List.filter_cons_of_neg first, ih _ _ others, count]

/-- The blocks without a label of their own take all fresh labels, in order. -/
theorem anonymous_layout (fresh : Nat → Label) (is : List Instr) :
    ((layout fresh is).filter (·.isAnonymous)).map (·.label) =
      (List.range (labelsNeeded is)).map fresh := by
  have body := anonymous_bodyBlocks fresh 1 1 fun s (member : s ∈ Stretch.split is) =>
    Stretch.sound_of_mem_split member
  have empty (id : BlockId) (l : Label) : Block.isAnonymous ⟨id, l, []⟩ = true := rfl
  have numbers : List.range (labelsNeeded is) =
      0 :: (List.range' 1 (Stretch.anonymous (Stretch.split is)) ++
        [Stretch.anonymous (Stretch.split is) + 1]) := by
    rw [List.range_eq_range', labelsNeeded, List.range'_succ, List.range'_concat]
    simp [Nat.add_comm]
  rw [numbers]
  simp [layout, empty, body]

end Graph

end ClosureIR
