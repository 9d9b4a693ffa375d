import ClosureIR.Proofs.Lists
import ClosureIR.Proofs.Nesting

/-!
# Copies under a map of names

A copy has the labels, temporaries and owners of locals of its original under
one map of names, and in the place of every closure a clone of it.  How a
closure and its clone are related is a parameter.
-/

namespace ClosureIR

/-- What labels and temporaries become in a copy, and to whom locals then belong. -/
structure NameMap where
  label : Label → Label
  temp : Temporary → Temporary
  owner : ScopeId → ScopeId

namespace NameMap

def var (m : NameMap) : Variable → Variable
  | .ofLocal v => .ofLocal { v with owner := m.owner v.owner }
  | .ofTemp t => .ofTemp (m.temp t)

def mention (m : NameMap) : Mention → Mention
  | .label l => .label (m.label l)
  | .temp t => .temp (m.temp t)

end NameMap

section Relations

variable (m : NameMap) (sub : ScopeId → ScopeId → Prop)

mutual

/-- The second operand is a copy of the first; closures are related by `sub`. -/
inductive Operand.Copied : Operand → Operand → Prop where
  | nil : Copied .nil .nil
  | boolean (b : Bool) : Copied (.boolean b) (.boolean b)
  | fixnum (n : Int64) : Copied (.fixnum n) (.fixnum n)
  | string (s : String) : Copied (.string s) (.string s)
  | symbol (s : String) : Copied (.symbol s) (.symbol s)
  | self : Copied .self .self
  | var (v : Variable) : Copied (.var v) (.var (m.var v))
  | label (l : Label) : Copied (.label l) (.label (m.label l))
  | splat {inner inner' : Operand} (copied : Copied inner inner') :
      Copied (.splat inner) (.splat inner')
  | array {os os' : List Operand} (copied : AllCopied os os') : Copied (.array os) (.array os')
  | closure {id clone : ScopeId} (related : sub id clone) : Copied (.closure id) (.closure clone)

inductive Operand.AllCopied : List Operand → List Operand → Prop where
  | nil : AllCopied [] []
  | cons {o o' : Operand} {os os' : List Operand} (first : Copied o o') (rest : AllCopied os os') :
      AllCopied (o :: os) (o' :: os')

end

inductive Instr.Copied : Instr → Instr → Prop where
  | copy (result : Variable) {source source' : Operand} (read : source.Copied m sub source') :
      Copied (.copy result source) (.copy (m.var result) source')
  | receive (result : Variable) (index : Nat) :
      Copied (.receive result index) (.receive (m.var result) index)
  | receiveOpt (result : Variable) (index : Nat) {default default' : Operand}
      (read : default.Copied m sub default') :
      Copied (.receiveOpt result index default) (.receiveOpt (m.var result) index default')
  | receiveRest (result : Variable) (index : Nat) :
      Copied (.receiveRest result index) (.receiveRest (m.var result) index)
  | label (l : Label) : Copied (.label l) (.label (m.label l))
  | jump (target : Label) : Copied (.jump target) (.jump (m.label target))
  | branchFalse {condition condition' : Operand} (read : condition.Copied m sub condition')
      (target : Label) :
      Copied (.branchFalse condition target) (.branchFalse condition' (m.label target))
  | call (result : Option Variable) (method : String) {receiver receiver' : Operand}
      {args args' : List Operand} {closure closure' : Option Operand}
      (called : receiver.Copied m sub receiver') (passed : Operand.AllCopied m sub args args')
      (block : Option.Rel (Operand.Copied m sub) closure closure') :
      Copied (.call result receiver method args closure)
        (.call (result.map m.var) receiver' method args' closure')
  | ret {value value' : Operand} (read : value.Copied m sub value') :
      Copied (.ret value) (.ret value')
  | guard (g : Guard) {candidate' : Operand} (read : g.candidate.Copied m sub candidate') :
      Copied (.guard g)
        (.guard { g with candidate := candidate', failure := m.label g.failure })

structure Block.Copied (b b' : Block) : Prop where
  id : b'.id = b.id
  label : b'.label = m.label b.label
  instrs : List.Forall₂ (Instr.Copied m sub) b.instrs b'.instrs

/-- The second graph is a copy of the first for the scope `owner`, with the same edges. -/
structure Graph.Copied (owner : ScopeId) (g g' : Graph) : Prop where
  scope : g'.scope = owner
  entry : g'.entry = g.entry
  exit : g'.exit = g.exit
  outgoing : g'.outgoing = g.outgoing
  incoming : g'.incoming = g.incoming
  blocks : List.Forall₂ (Block.Copied m sub) g.blocks g'.blocks

end Relations

variable {m : NameMap} {sub sub' : ScopeId → ScopeId → Prop}

/-! ## Clones stand where the closures stood, and names where their originals stood -/

namespace Operand

mutual

theorem Copied.mono (weaker : ∀ x c, sub x c → sub' x c) :
    ∀ {o o' : Operand}, o.Copied m sub o' → o.Copied m sub' o' := by
  intro o o' copied
  cases copied with
  | nil => exact .nil
  | boolean b => exact .boolean b
  | fixnum n => exact .fixnum n
  | string s => exact .string s
  | symbol s => exact .symbol s
  | self => exact .self
  | var v => exact .var v
  | label l => exact .label l
  | splat copied => exact .splat (Copied.mono weaker copied)
  | array copied => exact .array (AllCopied.mono weaker copied)
  | closure related => exact .closure (weaker _ _ related)

theorem AllCopied.mono (weaker : ∀ x c, sub x c → sub' x c) :
    ∀ {os os' : List Operand}, AllCopied m sub os os' → AllCopied m sub' os os' := by
  intro os os' copied
  cases copied with
  | nil => exact .nil
  | cons first rest => exact .cons (Copied.mono weaker first) (AllCopied.mono weaker rest)

end

mutual

/-- Part by part, a copy consists of copies. -/
theorem Copied.visited :
    ∀ {o o' : Operand}, o.Copied m sub o' → List.Forall₂ (Copied m sub) o.visited o'.visited := by
  intro o o' copied
  have whole := copied
  cases copied with
  | splat inner => exact .cons whole (Copied.visited inner)
  | array elements =>
    rw [Operand.visited, Operand.visited, visitedAll_eq_flatMap, visitedAll_eq_flatMap]
    exact .cons whole (AllCopied.visited elements)
  | _ => exact .cons whole .nil

theorem AllCopied.visited :
    ∀ {os os' : List Operand}, AllCopied m sub os os' →
      List.Forall₂ (Copied m sub) (os.flatMap (·.visited)) (os'.flatMap (·.visited)) := by
  intro os os' copied
  cases copied with
  | nil => exact .nil
  | cons first rest =>
    rw [List.flatMap_cons, List.flatMap_cons]
    exact List.rel_append (Copied.visited first) (AllCopied.visited rest)

end

mutual

theorem Copied.closures :
    ∀ {o o' : Operand}, o.Copied m sub o' → List.Forall₂ sub o.closures o'.closures := by
  intro o o' copied
  cases copied with
  | splat copied => simpa using Copied.closures copied
  | array copied => simpa using AllCopied.closures copied
  | closure related => exact .cons related .nil
  | _ => exact .nil

theorem AllCopied.closures :
    ∀ {os os' : List Operand}, AllCopied m sub os os' →
      List.Forall₂ sub (os.flatMap (·.closures)) (os'.flatMap (·.closures)) := by
  intro os os' copied
  cases copied with
  | nil => exact .nil
  | cons first rest =>
    simpa using List.rel_append (Copied.closures first) (AllCopied.closures rest)

end

/-- What is read off the parts of the original is read off those of a copy, renamed. -/
theorem AllCopied.filterMap_visited {α : Type} {f : Operand → Option α} {rename : α → α}
    {os os' : List Operand} (copied : AllCopied m sub os os')
    (same : ∀ o o', o.Copied m sub o' → f o' = (f o).map rename) :
    os'.flatMap (·.visited.filterMap f) = (os.flatMap (·.visited.filterMap f)).map rename := by
  rw [← List.filterMap_flatMap, ← List.filterMap_flatMap]
  exact filterMap_of_forall₂ copied.visited same

theorem Copied.ofOperand? {o o' : Operand} (copied : o.Copied m sub o') :
    Mention.ofOperand? o' = (Mention.ofOperand? o).map m.mention := by
  cases copied with
  | var v => cases v <;> rfl
  | _ => rfl

theorem AllCopied.mentions {os os' : List Operand} (copied : AllCopied m sub os os') :
    os'.flatMap (·.mentions) = (os.flatMap (·.mentions)).map m.mention :=
  copied.filterMap_visited fun _ _ here => here.ofOperand?

theorem Copied.var? {o o' : Operand} (copied : o.Copied m sub o') :
    o'.var? = o.var?.map m.var := by
  cases copied <;> rfl

theorem AllCopied.vars {os os' : List Operand} (copied : AllCopied m sub os os') :
    os'.flatMap (·.vars) = (os.flatMap (·.vars)).map m.var :=
  copied.filterMap_visited fun _ _ here => here.var?

theorem AllCopied.append {os os' ps ps' : List Operand} (first : AllCopied m sub os os')
    (second : AllCopied m sub ps ps') : AllCopied m sub (os ++ ps) (os' ++ ps') := by
  induction os generalizing os' with
  | nil =>
    cases first
    exact second
  | cons o os ih =>
    cases first with
    | cons here rest => exact .cons here (ih rest)

theorem AllCopied.toList {o o' : Option Operand} (copied : Option.Rel (Copied m sub) o o') :
    AllCopied m sub o.toList o'.toList := by
  cases copied with
  | some here => exact .cons here .nil
  | none => exact .nil

end Operand

namespace Instr.Copied

variable {i i' : Instr}

theorem mono (weaker : ∀ x c, sub x c → sub' x c) (copied : i.Copied m sub i') :
    i.Copied m sub' i' := by
  cases copied with
  | copy result read => exact .copy result (read.mono weaker)
  | receive result index => exact .receive result index
  | receiveOpt result index read => exact .receiveOpt result index (read.mono weaker)
  | receiveRest result index => exact .receiveRest result index
  | label l => exact .label l
  | jump target => exact .jump target
  | branchFalse read target => exact .branchFalse (read.mono weaker) target
  | call result method called passed block =>
    refine .call result method (called.mono weaker) (passed.mono weaker) ?_
    cases block with
    | some here => exact .some (here.mono weaker)
    | none => exact .none
  | ret read => exact .ret (read.mono weaker)
  | guard g read => exact .guard g (read.mono weaker)

theorem operands (copied : i.Copied m sub i') :
    Operand.AllCopied m sub i.operands i'.operands := by
  cases copied with
  | copy result read => exact .cons read .nil
  | receiveOpt result index read => exact .cons read .nil
  | branchFalse read target => exact .cons read .nil
  | call result method called passed block => exact .cons called (passed.append (.toList block))
  | ret read => exact .cons read .nil
  | guard g read => exact .cons read .nil
  | _ => exact .nil

theorem labels (copied : i.Copied m sub i') : i'.labels = i.labels.map m.label := by
  cases copied <;> rfl

theorem result? (copied : i.Copied m sub i') : i'.result? = i.result?.map m.var := by
  cases copied <;> rfl

theorem closures (copied : i.Copied m sub i') : List.Forall₂ sub i.closures i'.closures :=
  copied.operands.closures

theorem mentions (copied : i.Copied m sub i') : i'.mentions = i.mentions.map m.mention := by
  have results : (i.result?.map m.var).toList.filterMap Mention.ofVariable? =
      (i.result?.toList.filterMap Mention.ofVariable?).map m.mention := by
    cases i.result? with
    | none => rfl
    | some v => cases v <;> rfl
  rw [Instr.mentions, copied.labels, copied.result?, copied.operands.mentions, results]
  simp [Instr.mentions, NameMap.mention, Function.comp_def]

end Instr.Copied

theorem Instr.Copied.vars {i i' : Instr} (copied : i.Copied m sub i') :
    i'.vars = i.vars.map m.var := by
  rw [Instr.vars, copied.result?, copied.operands.vars, Instr.vars, List.map_append]
  cases i.result? <;> rfl

theorem Block.Copied.mentions {b b' : Block} (copied : b.Copied m sub b') :
    b'.mentions = b.mentions.map m.mention := by
  rw [Block.mentions, copied.label, flatMap_of_forall₂ copied.instrs fun _ _ here => here.mentions]
  rfl

namespace Graph.Copied

variable {owner : ScopeId} {g g' : Graph}

theorem closures (copied : g.Copied m sub owner g') : List.Forall₂ sub g.closures g'.closures :=
  List.rel_flatMap copied.blocks fun _ _ block =>
    List.rel_flatMap block.instrs fun _ _ here => here.closures

theorem mentions (copied : g.Copied m sub owner g') : g'.mentions = g.mentions.map m.mention :=
  flatMap_of_forall₂ copied.blocks fun _ _ block => block.mentions

/-- Instruction by instruction, a copy consists of copies. -/
theorem instrs (copied : g.Copied m sub owner g') :
    List.Forall₂ (Instr.Copied m sub) g.instrs g'.instrs :=
  List.rel_flatMap copied.blocks fun _ _ block => block.instrs

theorem vars (copied : g.Copied m sub owner g') :
    g'.instrs.flatMap (·.vars) = (g.instrs.flatMap (·.vars)).map m.var :=
  flatMap_of_forall₂ copied.instrs fun _ _ here => here.vars

end Graph.Copied

end ClosureIR
