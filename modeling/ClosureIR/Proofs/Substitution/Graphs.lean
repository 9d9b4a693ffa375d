import ClosureIR.Instr.Substitution
import ClosureIR.Proofs.Flow.Faithful

/-!
# Substitution and graphs

Substitution exchanges the operands that instructions read, one by one, and
nothing else of them.  The graph of a list of instructions asks them only which
label they place, where they jump, and whether control may go on; so it is the
same graph before and after, with the instructions exchanged in their blocks.
-/

namespace ClosureIR

/-! ## Exchanging what an instruction reads -/

namespace Instr

def mapOperands (f : Operand → Operand) : Instr → Instr
  | .copy result source => .copy result (f source)
  | .receiveOpt result index default => .receiveOpt result index (f default)
  | .branchFalse condition target => .branchFalse (f condition) target
  | .call result receiver method args closure =>
    .call result (f receiver) method (args.map f) (closure.map f)
  | .ret value => .ret (f value)
  | .guard g => .guard { g with candidate := f g.candidate }
  | i => i

theorem simplified_eq_mapOperands (map : ValueMap) (force : Bool) (i : Instr) :
    i.simplified map force = i.mapOperands (·.simplified map force) := by
  cases i <;> rfl

def method? : Instr → Option String
  | .call _ _ method _ _ => some method
  | _ => none

def passedClosure? : Instr → Option Operand
  | .call _ _ _ _ closure => closure
  | _ => none

def index? : Instr → Option Nat
  | .receive _ index | .receiveOpt _ index _ | .receiveRest _ index => some index
  | _ => none

def assumption? : Instr → Option (ModuleRef × UInt64)
  | .guard g => some (g.assumed, g.version)
  | _ => none

/-- The second instruction is the first with `f` applied to every operand, in its place. -/
structure Rereads (f : Operand → Operand) (i i' : Instr) : Prop where
  operands : i'.operands = i.operands.map f
  passedClosure? : i'.passedClosure? = i.passedClosure?.map f
  opcode : i'.opcode = i.opcode
  result? : i'.result? = i.result?
  labels : i'.labels = i.labels
  target? : i'.target? = i.target?
  method? : i'.method? = i.method?
  index? : i'.index? = i.index?
  assumption? : i'.assumption? = i.assumption?

theorem operands_mapOperands (f : Operand → Operand) (i : Instr) :
    (i.mapOperands f).operands = i.operands.map f := by
  cases i with
  | call result receiver method args closure => cases closure <;> simp [mapOperands, operands]
  | _ => rfl

theorem rereads_mapOperands (f : Operand → Operand) (i : Instr) :
    i.Rereads f (i.mapOperands f) := by
  constructor
  case operands => exact operands_mapOperands f i
  all_goals cases i <;> rfl

/-- A change of instructions that the order of execution does not depend on. -/
structure KeepsFlow (f : Instr → Instr) : Prop where
  placed? : ∀ i, (f i).placed? = i.placed?
  target? : ∀ i, (f i).target? = i.target?
  isTerminator : ∀ i, (f i).isTerminator = i.isTerminator
  passes : ∀ i, (f i).passes = i.passes

theorem keepsFlow_mapOperands (f : Operand → Operand) : KeepsFlow (mapOperands f) := by
  constructor <;> intro i <;> cases i <;> rfl

end Instr

/-! ## Cuts -/

namespace Stretch

variable {f : Instr → Instr}

def mapInstrs (f : Instr → Instr) (s : Stretch) : Stretch := { s with instrs := s.instrs.map f }

theorem prepend_map (keeps : Instr.KeepsFlow f) (i : Instr) (stretches : List Stretch) :
    prepend (f i) (stretches.map (mapInstrs f)) = (prepend i stretches).map (mapInstrs f) := by
  rcases stretches with _ | ⟨⟨_ | l, body⟩, rest⟩
  · simp [prepend, mapInstrs, keeps.placed?]
  · by_cases ends : i.isTerminator
    · simp [prepend, mapInstrs, keeps.placed?, keeps.isTerminator, ends]
    · simp [prepend, mapInstrs, keeps.placed?, keeps.isTerminator, ends]
  · simp [prepend, mapInstrs, keeps.placed?]

theorem split_map (keeps : Instr.KeepsFlow f) (is : List Instr) :
    split (is.map f) = (split is).map (mapInstrs f) := by
  induction is with
  | nil => rfl
  | cons i rest ih => rw [List.map_cons, split, ih, prepend_map keeps, split]

theorem anonymous_map (f : Instr → Instr) (stretches : List Stretch) :
    anonymous (stretches.map (mapInstrs f)) = anonymous stretches := by
  rw [anonymous, anonymous, List.filter_map, List.length_map]
  rfl

end Stretch

/-! ## Blocks -/

namespace Block

variable {f : Instr → Instr}

def mapInstrs (f : Instr → Instr) (b : Block) : Block := { b with instrs := b.instrs.map f }

theorem target?_mapInstrs (keeps : Instr.KeepsFlow f) (b : Block) :
    (b.mapInstrs f).target? = b.target? := by
  rw [target?, target?, mapInstrs, List.getLast?_map]
  cases b.instrs.getLast? with
  | none => rfl
  | some i => exact keeps.target? i

theorem passes_mapInstrs (keeps : Instr.KeepsFlow f) (b : Block) :
    (b.mapInstrs f).passes = b.passes := by
  rw [passes, passes, mapInstrs, List.getLast?_map]
  cases b.instrs.getLast? with
  | none => rfl
  | some i => exact keeps.passes i

end Block

namespace Graph

variable {f : Instr → Instr}

theorem labelsNeeded_map (keeps : Instr.KeepsFlow f) (is : List Instr) :
    labelsNeeded (is.map f) = labelsNeeded is := by
  rw [labelsNeeded, labelsNeeded, Stretch.split_map keeps, Stretch.anonymous_map]

theorem bodyBlocks_map (f : Instr → Instr) (fresh : Nat → Label) (id used : Nat)
    (stretches : List Stretch) :
    bodyBlocks fresh id used (stretches.map (Stretch.mapInstrs f)) =
      (bodyBlocks fresh id used stretches).map (Block.mapInstrs f) := by
  induction stretches generalizing id used with
  | nil => rfl
  | cons s rest ih =>
    rcases s with ⟨_ | l, body⟩
    · exact congrArg (_ :: ·) (ih (id + 1) (used + 1))
    · exact congrArg (_ :: ·) (ih (id + 1) used)

theorem layout_map (keeps : Instr.KeepsFlow f) (fresh : Nat → Label) (is : List Instr) :
    layout fresh (is.map f) = (layout fresh is).map (Block.mapInstrs f) := by
  simp [layout, Stretch.split_map keeps, Stretch.anonymous_map, bodyBlocks_map, Block.mapInstrs]

/-- Look-ups read the labels of blocks, not their instructions. -/
theorem resolve_map (f : Instr → Instr) (blocks : List Block) :
    resolve (blocks.map (Block.mapInstrs f)) = resolve blocks := by
  have same (l : Label) : jumpTarget? (blocks.map (Block.mapInstrs f)) l = jumpTarget? blocks l := by
    rw [jumpTarget?, jumpTarget?, List.filter_map, List.getLast?_map, Option.map_map]
    rfl
  funext scopeName l
  rw [resolve, resolve, same]

theorem leaving_mapInstrs (keeps : Instr.KeepsFlow f) (resolves : Label → Except Refusal BlockId)
    (exit : BlockId) (b : Block) :
    leaving resolves exit (b.mapInstrs f) = leaving resolves exit b := by
  rw [leaving_eq, leaving_eq, Block.target?_mapInstrs keeps, Block.passes_mapInstrs keeps]
  rfl

/-! ## Graphs -/

def mapInstrs (f : Instr → Instr) (g : Graph) : Graph :=
  { g with blocks := g.blocks.map (Block.mapInstrs f) }

theorem unconnected_map (f : Instr → Instr) (scope : ScopeId) (blocks : List Block) :
    unconnected scope (blocks.map (Block.mapInstrs f)) = (unconnected scope blocks).mapInstrs f := by
  simp [unconnected, mapInstrs, Function.comp_def]

theorem mapInstrs_addEdges (f : Instr → Instr) (g : Graph) (edges : List FlowEdge) :
    (g.mapInstrs f).addEdges edges = (g.addEdges edges).mapInstrs f := by
  induction edges generalizing g with
  | nil => rfl
  | cons e rest ih => exact ih (g.addEdge e)

/-- The blocks call for the same edges, or fail in the same way. -/
theorem mapM_leaving_mapInstrs (keeps : Instr.KeepsFlow f) (g : Graph) (scopeName : String) :
    (g.mapInstrs f).blocks.dropLast.mapM
        (leaving (resolve (g.mapInstrs f).blocks scopeName) (g.mapInstrs f).exit) =
      g.blocks.dropLast.mapM (leaving (resolve g.blocks scopeName) g.exit) := by
  rw [mapInstrs, resolve_map, ← List.map_dropLast, List.mapM_map]
  congr 1
  funext b
  exact leaving_mapInstrs keeps _ _ b

/-- The graph of exchanged instructions is the graph of the instructions, exchanged in their blocks. -/
theorem build_map (keeps : Instr.KeepsFlow f) (scope : ScopeId) (scopeName : String)
    (is : List Instr) (fresh : Nat → Label) :
    build scope scopeName (is.map f) fresh =
      (build scope scopeName is fresh).map (mapInstrs f) := by
  simp only [build, layout_map keeps, unconnected_map, mapM_leaving_mapInstrs keeps,
    mapInstrs_addEdges]
  cases (unconnected scope (layout fresh is)).blocks.dropLast.mapM
      (leaving (resolve (unconnected scope (layout fresh is)).blocks scopeName)
        (unconnected scope (layout fresh is)).exit) with
  | error refusal => rfl
  | ok edges => rfl

end Graph

/-! ## Substitution -/

/--
Substitution takes what an instruction reads to the substituted operands, one
by one and in order, and leaves the rest of it.  So the graph of substituted
instructions takes as many fresh labels, and it fails in the same way or has
the same blocks, labels, entry, exit and edges with substituted instructions in
the blocks.
-/
theorem Graph.build_simplified (map : ValueMap) (force : Bool) :
    (∀ i : Instr, i.Rereads (·.simplified map force) (i.simplified map force)) ∧
    ∀ (scope : ScopeId) (scopeName : String) (is : List Instr) (fresh : Nat → Label),
      labelsNeeded (is.map (·.simplified map force)) = labelsNeeded is ∧
        build scope scopeName (is.map (·.simplified map force)) fresh =
          (build scope scopeName is fresh).map (mapInstrs (·.simplified map force)) := by
  have same : Instr.simplified map force = Instr.mapOperands (·.simplified map force) :=
    funext (Instr.simplified_eq_mapOperands map force)
  have keeps : Instr.KeepsFlow (Instr.simplified map force) := same ▸ Instr.keepsFlow_mapOperands _
  constructor
  · intro i
    rw [Instr.simplified_eq_mapOperands]
    exact i.rereads_mapOperands _
  · intro scope scopeName is fresh
    exact ⟨labelsNeeded_map keeps is, build_map keeps scope scopeName is fresh⟩

end ClosureIR
