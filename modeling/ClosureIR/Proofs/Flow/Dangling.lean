import ClosureIR.Proofs.Clone.Names
import ClosureIR.Proofs.Flow.Lookup
import ClosureIR.Proofs.Reachable

/-!
# Jumps that lead nowhere

A graph is built unless some instruction targets a label that is neither placed
by an instruction nor minted for a block.  The first such instruction is named
in the refusal, and only the labels that were minted for the blocks are gone.
-/

namespace ClosureIR

open BuildM

namespace Graph

variable {scope : ScopeId} {scopeName : String} {is : List Instr} {fresh : Nat → Label} {g : Graph}
  {blocks : List Block} {b : Block} {l : Label} {minted : List Label} {refusal : Refusal}

/-- The label is neither placed by one of the instructions nor among those that were minted. -/
def Dangles (is : List Instr) (minted : List Label) (l : Label) : Prop :=
  .label l ∉ is ∧ l ∉ minted

instance : Decidable (Dangles is minted l) := inferInstanceAs (Decidable (_ ∧ _))

def danglingTarget? (is : List Instr) (minted : List Label) (i : Instr) : Option Label :=
  i.target?.filter fun l => decide (Dangles is minted l)

def firstDangling? (is : List Instr) (minted : List Label) : Option Label :=
  is.findSome? (danglingTarget? is minted)

theorem danglingTarget?_eq_some_iff {i : Instr} :
    danglingTarget? is minted i = some l ↔ i.target? = some l ∧ Dangles is minted l := by
  rw [danglingTarget?, Option.filter_eq_some_iff, decide_eq_true_iff]

theorem exists_firstDangling?_iff : (∃ l, firstDangling? is minted = some l) ↔
    ∃ i ∈ is, ∃ l, i.target? = some l ∧ Dangles is minted l := by
  simp only [← Option.isSome_iff_exists, firstDangling?, List.findSome?_isSome_iff,
    ← danglingTarget?_eq_some_iff]

/-! ## Blocks that a jump can reach -/

def mintedFor (fresh : Nat → Label) (is : List Instr) : List Label :=
  (List.range (labelsNeeded is)).map fresh

/-- No block bears a label just when it dangles. -/
theorem bearers_layout_eq_nil_iff : bearers (layout fresh is) l = [] ↔
    Dangles is (mintedFor fresh is) l := by
  have laid := laid_layout fresh is
  rw [List.eq_nil_iff_forall_not_mem]
  constructor
  · intro borne
    constructor
    · intro placed
      rw [← laid.instrs] at placed
      obtain ⟨b, member, inside⟩ := List.mem_flatMap.1 placed
      have head := (laid.straight_of_mem member inside).head?_of_mem inside
      refine borne b (mem_bearers.2 ⟨member, ?_⟩)
      rcases laid.label b member with ⟨-, bare⟩ | named
      · simp [head, Instr.placed?] at bare
      · cases named.symm.trans head
        rfl
    · intro invented
      rw [mintedFor, ← anonymous_layout] at invented
      obtain ⟨b, member, bears⟩ := List.mem_map.1 invented
      exact borne b (mem_bearers.2 ⟨(List.mem_filter.1 member).1, bears⟩)
  · rintro ⟨unplaced, unminted⟩ b bears
    obtain ⟨member, rfl⟩ := mem_bearers.1 bears
    rcases laid.label b member with ⟨⟨n, small, invented⟩, -⟩ | named
    · exact unminted (List.mem_map.2 ⟨n, List.mem_range.2 small, invented.symm⟩)
    · refine unplaced ?_
      rw [← laid.instrs]
      exact List.mem_flatMap.2 ⟨b, member, List.mem_of_head? named⟩

theorem resolve_eq_error_iff : resolve blocks scopeName l = .error refusal ↔
    bearers blocks l = [] ∧ refusal = .unknownLabel l scopeName := by
  have target : jumpTarget? blocks l = none ↔ bearers blocks l = [] := by
    rw [jumpTarget?, Option.map_eq_none_iff, List.getLast?_eq_none_iff, bearers]
  rw [← target, resolve]
  cases jumpTarget? blocks l <;> simp [eq_comm]

/-! ## Graphs that cannot be built -/

theorem leaving_eq_error_iff {resolves : Label → Except Refusal BlockId} {exit : BlockId} :
    leaving resolves exit b = .error refusal ↔
      ∃ i l, b.instrs.getLast? = some i ∧ i.target? = some l ∧ resolves l = .error refusal := by
  constructor
  · intro failed
    cases last : b.instrs.getLast? with
    | none => simp [leaving, last] at failed
    | some i =>
      cases target : i.target? with
      | none => cases i <;> simp [leaving, last, Instr.target?] at failed target
      | some l =>
        rw [leaving_of_target last target] at failed
        refine ⟨i, l, rfl, target, ?_⟩
        cases resolved : resolves l with
        | error earlier => simpa [resolved, bind, Except.bind] using failed
        | ok there => simp [resolved, bind, Except.bind, pure, Except.pure] at failed
  · rintro ⟨i, l, last, target, failed⟩
    rw [leaving_of_target last target, failed]
    rfl

/-- A block cannot be left just when a target in it dangles. -/
theorem leaving_layout_eq_error_iff (member : b ∈ layout fresh is) {exit : BlockId} :
    leaving (resolve (layout fresh is) scopeName) exit b = .error refusal ↔
      (b.instrs.findSome? (danglingTarget? is (mintedFor fresh is))).map
        (Refusal.unknownLabel · scopeName) = some refusal := by
  have only (i : Instr) (before : i ∈ b.instrs.dropLast) :
      danglingTarget? is (mintedFor fresh is) i = none := by
    have straight := (laid_layout fresh is).straight_of_mem member (List.dropLast_subset _ before)
    rw [danglingTarget?, straight.target?_eq_none before, Option.filter_none]
  rw [leaving_eq_error_iff, findSome?_eq_bind_getLast? only]
  simp only [resolve_eq_error_iff, bearers_layout_eq_nil_iff, Option.map_eq_some_iff,
    Option.bind_eq_some_iff, danglingTarget?_eq_some_iff]
  constructor
  · rintro ⟨i, l, last, target, dangles, rfl⟩
    exact ⟨l, ⟨i, last, target, dangles⟩, rfl⟩
  · rintro ⟨l, ⟨i, last, target, dangles⟩, rfl⟩
    exact ⟨i, l, last, target, dangles, rfl⟩

/-- Before the exit stand all instructions. -/
theorem Laid.flatMap_dropLast (laid : Laid blocks fresh is) :
    blocks.dropLast.flatMap (·.instrs) = is := by
  have size := laid.two_le
  have last : blocks.getLast? = blocks[blocks.length - 1]? := List.getLast?_eq_getElem?
  rw [List.getElem?_eq_getElem (by omega)] at last
  have empty := laid.exit _ (List.getElem?_eq_getElem (by omega))
  have whole := laid.instrs
  rw [← List.dropLast_append_getLast? _ last, List.flatMap_append, List.flatMap_singleton, empty,
    List.append_nil] at whole
  exact whole

/-- Building fails just when a target dangles, and names the first one that does. -/
theorem build_eq_error_iff : build scope scopeName is fresh = .error refusal ↔
    ∃ l, firstDangling? is (mintedFor fresh is) = some l ∧
      refusal = .unknownLabel l scopeName := by
  let exit := (unconnected scope (layout fresh is)).exit
  have fails : build scope scopeName is fresh = .error refusal ↔
      (layout fresh is).dropLast.mapM (leaving (resolve (layout fresh is) scopeName) exit) =
        .error refusal := by
    change ((layout fresh is).dropLast.mapM (leaving (resolve (layout fresh is) scopeName) exit) >>=
      fun edges => .ok ((unconnected scope (layout fresh is)).addEdges edges.flatten)) = _ ↔ _
    cases (layout fresh is).dropLast.mapM (leaving (resolve (layout fresh is) scopeName) exit) <;>
      simp [bind, Except.bind]
  have first : firstDangling? is (mintedFor fresh is) = (layout fresh is).dropLast.findSome?
      fun b => b.instrs.findSome? (danglingTarget? is (mintedFor fresh is)) := by
    rw [← findSome?_flatMap, (laid_layout fresh is).flatMap_dropLast, firstDangling?]
  have each : ∀ b ∈ (layout fresh is).dropLast, ∀ refusal,
      leaving (resolve (layout fresh is) scopeName) exit b = .error refusal ↔
        (b.instrs.findSome? (danglingTarget? is (mintedFor fresh is))).map
          (Refusal.unknownLabel · scopeName) = some refusal :=
    fun b member _ => leaving_layout_eq_error_iff (List.dropLast_subset _ member)
  rw [fails, mapM_eq_error_iff each, first, ← Function.comp_def, ← List.map_findSome?,
    Option.map_eq_some_iff]
  exact exists_congr fun l => and_congr_right fun _ => eq_comm

/-- Two labels are needed for the entry and the exit, and one for each other block without its own. -/
theorem labelsNeeded_eq (fresh : Nat → Label) (is : List Instr) :
    labelsNeeded is = 2 + (layout fresh is).tail.dropLast.countP (·.isAnonymous) := by
  have body := congrArg List.length <| anonymous_bodyBlocks fresh 1 1
    fun s (member : s ∈ Stretch.split is) => Stretch.sound_of_mem_split member
  rw [List.length_map, List.length_map, List.length_range', ← List.countP_eq_length_filter] at body
  rw [labelsNeeded, layout, List.tail_cons, List.dropLast_concat, body, Nat.add_comm]

end Graph

namespace Program

variable {p : Program} {id : ScopeId} {s : Scope}

/-- The labels that a builder finds in a list of the right length are all of it. -/
theorem mintedFor_getD {is : List Instr} {labels : List Label}
    (enough : labels.length = Graph.labelsNeeded is) :
    Graph.mintedFor (fun n => labels.getD n default) is = labels := by
  rw [Graph.mintedFor, ← enough]
  apply List.ext_getElem
  · simp
  · intro n small small'
    simp [small']

/-- The labels of a graph are minted first, and stay minted; then it is built and kept, or refused. -/
theorem yields_buildGraph_of_room (found : p.scope? id = some s) (live : s.isInlined = false)
    (room : s.ownLabels + Graph.labelsNeeded s.instrs < Counter.bound) {minted : List Label}
    (next : minted = s.nextLabels (Graph.labelsNeeded s.instrs)) :
    (buildGraph id).Yields p
      (fun g q => Graph.firstDangling? s.instrs minted = none ∧
        g.blocks = Graph.layout (fun k => minted.getD k default) s.instrs ∧
        q = p.replace id { s.labelled (Graph.labelsNeeded s.instrs) with graph := some g })
      fun fault q => q = p.replace id (s.labelled (Graph.labelsNeeded s.instrs)) ∧
        ∃ l, Graph.firstDangling? s.instrs minted = some l ∧
          fault = .refused (.unknownLabel l s.name) := by
  have labels : Graph.mintedFor (fun k => minted.getD k default) s.instrs = minted :=
    mintedFor_getD (by simp [next, Scope.nextLabels])
  refine yields_ask_of_ok (liveScope_eq_ok_iff.2 ⟨found, live⟩) ?_
  refine yields_bind.2 ((yields_ownLabels found live _).mono ?_ ?_)
  · rintro handed t ⟨rfl, rfl⟩
    have there := scope?_replace_self found (s.labelled (Graph.labelsNeeded s.instrs))
    rw [← Graph.labelsNeeded, ← next]
    refine yields_bind.2 (yields_ofRefusal.2 ⟨fun g built => ?_, fun refusal failed => ?_⟩)
    · refine yields_bind.2 (yields_ask_of_ok (scope_eq_ok_iff.2 there) ?_)
      refine ⟨?_, Graph.blocks_of_build built, replace_replace p id _ _⟩
      refine Option.eq_none_iff_forall_ne_some.2 fun l first => ?_
      rw [← labels] at first
      cases built.symm.trans (Graph.build_eq_error_iff.2 ⟨l, first, rfl⟩)
    · obtain ⟨l, first, rfl⟩ := Graph.build_eq_error_iff.1 failed
      rw [labels] at first
      exact ⟨rfl, l, first, rfl⟩
  · rintro fault t ⟨-, full⟩
    exact absurd room (Nat.not_lt.2 full)

/--
Building the graph of a scope fails just when the target of some instruction is
neither placed in the scope nor minted for this graph.  The refusal names the
first such target.  Nothing is changed then but the counter of the scope's own
labels, which moves on as far as it does when a graph is built.
-/
theorem buildGraph_fails_iff (found : p.scope? id = some s) (live : s.isInlined = false)
    (room : s.ownLabels + Graph.labelsNeeded s.instrs < Counter.bound) :
    ∃ minted blocks, blocks = Graph.layout (fun k => minted.getD k default) s.instrs ∧
      Graph.labelsNeeded s.instrs = 2 + blocks.tail.dropLast.countP (·.isAnonymous) ∧
      (newLabels id (Graph.labelsNeeded s.instrs)).runOn p =
        (.ok minted, p.replace id (s.labelled (Graph.labelsNeeded s.instrs))) ∧
      ((∃ fault q, (buildGraph id).runOn p = (.error fault, q)) ↔
        ∃ i ∈ s.instrs, ∃ l, i.target? = some l ∧ Graph.Dangles s.instrs minted l) ∧
      (buildGraph id).Yields p
        (fun g q => g.blocks = blocks ∧
          q = p.replace id { s.labelled (Graph.labelsNeeded s.instrs) with graph := some g })
        fun fault q => q = p.replace id (s.labelled (Graph.labelsNeeded s.instrs)) ∧
          ∃ l, Graph.firstDangling? s.instrs minted = some l ∧
            fault = .refused (.unknownLabel l s.name) := by
  have yields := yields_buildGraph_of_room found live room rfl
  refine ⟨_, _, rfl, Graph.labelsNeeded_eq _ _, ?_, ?_,
    yields.mono (fun _ _ built => built.2) fun _ _ failed => failed⟩
  · refine ((yields_ownLabels found live _).mono (fun _ _ handed => handed) ?_).runOn_eq
    rintro fault q ⟨-, full⟩
    exact absurd room (Nat.not_lt.2 full)
  · rw [← Graph.exists_firstDangling?_iff]
    constructor
    · rintro ⟨fault, q, failed⟩
      obtain ⟨-, l, first, -⟩ := yields.of_error failed
      exact ⟨l, first⟩
    · rintro ⟨l, first⟩
      cases run : (buildGraph id).runOn p with
      | mk outcome q =>
        cases outcome with
        | error fault => exact ⟨fault, q, rfl⟩
        | ok g => cases first.symm.trans (yields.of_ok run).1

def strayJump : Program :=
  ({} : Program)
    |>.after (newScript "main.rb")
    |>.after (buildGraph ⟨0⟩)
    |>.after (addInstr ⟨0⟩ (.jump ⟨"MISSING"⟩))

/-- The graph is kept, as the jump leads nowhere; three labels more are used up. -/
theorem buildGraph_strayJump : ∃ s q, strayJump.scope? ⟨0⟩ = some s ∧ s.graph.isSome = true ∧
    (buildGraph ⟨0⟩).runOn strayJump =
      (.error (.refused (.unknownLabel ⟨"MISSING"⟩ "main.rb")), q) ∧
    q = strayJump.replace ⟨0⟩ (s.labelled 3) := by
  have shape : (strayJump.scope? ⟨0⟩).any (fun s => decide (s.graph.isSome = true ∧
      s.isInlined = false ∧ s.name = "main.rb" ∧ s.instrs = [.jump ⟨"MISSING"⟩] ∧
      s.ownLabels = 2)) = true := by
    decide +kernel
  obtain ⟨s, found, known⟩ := (Option.any_eq_true _ _).1 shape
  obtain ⟨kept, live, name, instrs, used⟩ := of_decide_eq_true known
  have three : Graph.labelsNeeded s.instrs = 3 := by
    rw [instrs]
    rfl
  have room : s.ownLabels + Graph.labelsNeeded s.instrs < Counter.bound := by
    rw [used, three]
    decide
  obtain ⟨minted, blocks, -, -, handed, fails, outcome⟩ := buildGraph_fails_iff found live room
  rw [three] at handed outcome
  have new : ((newLabels ⟨0⟩ 3).runOn strayJump).1 = .ok [⟨"LBL_2"⟩, ⟨"LBL_3"⟩, ⟨"LBL_4"⟩] := by
    decide +kernel
  rw [handed] at new
  cases new
  rw [instrs] at fails outcome
  obtain ⟨fault, q, failed⟩ := fails.2
    ⟨.jump ⟨"MISSING"⟩, List.mem_cons_self, ⟨"MISSING"⟩, rfl, by decide +kernel⟩
  obtain ⟨rfl, l, first, rfl⟩ := outcome.of_error failed
  cases first
  rw [name] at failed
  exact ⟨s, _, found, kept, failed, rfl⟩

end Program

end ClosureIR
