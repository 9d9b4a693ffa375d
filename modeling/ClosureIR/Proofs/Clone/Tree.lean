import ClosureIR.Proofs.Clone.Growth
import ClosureIR.Proofs.Clone.Names
import Mathlib.Logic.Function.Basic

/-!
# Trees of clones

A clone agrees with its source position by position, and the closures in it are
clones of the closures in the source.  Where a scope cannot be cloned there is
a reason, in itself or in a scope that it holds.
-/

namespace ClosureIR

def Renaming.names (r : Renaming) : NameMap where
  label l := (r.label? l).getD l
  temp t := match r.vars.get? (.ofTemp t) with
    | some (.ofTemp renamed) => renamed
    | _ => t
  owner id := (r.scope? id).getD id

/--
On the names of `g`, the map is one to one onto the labels and temporaries that
the scope `c` at place `clone` has handed out.
-/
structure NameMap.Fresh (m : NameMap) (g : Graph) (clone : ScopeId) (c : Scope) : Prop where
  label_injective : ∀ l₁ l₂, .label l₁ ∈ g.mentions → .label l₂ ∈ g.mentions →
    m.label l₁ = m.label l₂ → l₁ = l₂
  label_minted : ∀ l, .label l ∈ g.mentions → ∃ n < c.ownLabels, m.label l = c.ownLabel n
  label_onto : ∀ n < c.ownLabels, ∃ l, .label l ∈ g.mentions ∧ m.label l = c.ownLabel n
  temp_injective : ∀ t₁ t₂, .temp t₁ ∈ g.mentions → .temp t₂ ∈ g.mentions →
    m.temp t₁ = m.temp t₂ → t₁ = t₂
  temp_minted : ∀ t, .temp t ∈ g.mentions →
    ∃ n < c.temporaries, m.temp t = ⟨clone, n, c.copyTag t⟩
  temp_onto : ∀ n < c.temporaries, ∃ t, .temp t ∈ g.mentions ∧ m.temp t = ⟨clone, n, c.copyTag t⟩

namespace Scope

/--
A closure that can be cloned by itself: it lives on its own, it has a graph, and
its block arguments mention no temporary that the graph does not mention.
-/
structure Copyable (s : Scope) : Prop where
  closure : s.isClosure = true
  live : s.isInlined = false
  graph : ∃ g, s.graph = some g ∧
    ∀ t, .temp t ∈ s.blockArgs.flatMap (·.mentions) → .temp t ∈ g.mentions

structure ClonedBody (s c : Scope) (clone : ScopeId) (m : NameMap) (sub : ScopeId → ScopeId → Prop)
    (g g' : Graph) : Prop where
  source : s.graph = some g
  graph : c.graph = some g'
  copied : g.Copied m sub clone g'
  distinct : g'.closures.Nodup
  instrs : c.instrs = g'.instrs
  fresh : m.Fresh g clone c

structure ClonedData (d d' : ClosureData) (name : String) (clone : ScopeId) (m : NameMap)
    (sub : ScopeId → ScopeId → Prop) (g : Graph) : Prop where
  nestingDepth : d'.nestingDepth = d.nestingDepth
  parameters : d'.parameters = d.parameters
  body : d'.body = d.body.map (·.rebind clone)
  live : d'.isInlined = false
  blockArgs : Operand.AllCopied m sub d.blockArgs d'.blockArgs
  startLabel : d'.startLabel =
    if .label d.startLabel ∈ g.mentions then m.label d.startLabel
    else ⟨numbered (name ++ "_" ++ "START") 0⟩
  endLabel : d'.endLabel =
    if .label d.endLabel ∈ g.mentions then m.label d.endLabel
    else ⟨numbered (name ++ "_" ++ "END") 0⟩

/-- The scope `c` at place `clone` is a clone of `s` in `parent`, with clones of closures as in `sub`. -/
structure ClonedAs (s c : Scope) (parent clone : ScopeId) (m : NameMap)
    (sub : ScopeId → ScopeId → Prop) : Prop where
  parent : c.parent = some parent
  kind : c.kind = s.kind
  fileName : c.fileName = s.fileName
  line : c.line = s.line
  staticScope : c.staticScope = s.staticScope
  locals : c.locals = s.locals.reowned clone
  body : ∃ g g' d d', ClonedBody s c clone m sub g g' ∧ s.closure = some d ∧ c.closure = some d' ∧
    ClonedData d d' c.name clone m sub g

end Scope

namespace Program

/--
The scope at place `clone` is a clone of that at place `source`, and the closures
in it are clones of the closures in the source.  Locals of the scope `id` belong
to `owner id` outside, and those of the source to the clone.
-/
inductive IsClone (q : Program) :
    (parent : ScopeId) → (owner : ScopeId → ScopeId) → (source clone : ScopeId) → Prop where
  | intro {parent source clone : ScopeId} {owner : ScopeId → ScopeId} {s c : Scope} {m : NameMap}
      {sub : ScopeId → ScopeId → Prop} (found : q.scope? source = some s)
      (made : q.scope? clone = some c) (newer : source.index < clone.index)
      (copyable : s.Copyable) (owners : m.owner = Function.update owner source clone)
      (cloned : s.ClonedAs c parent clone m sub)
      (nested : ∀ x d, sub x d → IsClone q clone m.owner x d) :
      IsClone q parent owner source clone

inductive Blocks (q : Program) (id : ScopeId) : Fault → Prop where
  | missing (absent : q.scope? id = none) :
      Blocks q id (.misused (.noSuchScope q.scopes.size id.index))
  | inlined {s : Scope} (found : q.scope? id = some s) (dead : s.isInlined = true) :
      Blocks q id (.misused (.inlined s.name))
  | notClosure {s : Scope} (found : q.scope? id = some s) (flat : s.isClosure = false) :
      Blocks q id (.refused (.notClosure s.name))
  | graphMissing {s : Scope} (found : q.scope? id = some s) (bare : s.graph = none) :
      Blocks q id (.refused (.graphMissing s.name))
  | temporary {s : Scope} {g : Graph} {t : Temporary} (found : q.scope? id = some s)
      (graph : s.graph = some g) (passed : .temp t ∈ s.blockArgs.flatMap (·.mentions))
      (absent : .temp t ∉ g.mentions) : Blocks q id (.misused (.temporaryNotPrepared t))

theorem Blocks.ne_selfNested {q : Program} {id : ScopeId} {fault : Fault}
    (blocks : q.Blocks id fault) (x : ScopeId) : fault ≠ .misused (.selfNested x) := by
  rintro rfl
  cases blocks

/-- Why a clone with so much fuel fails: in the scope itself, or in one that it holds. -/
inductive Stuck (q : Program) : (fuel : Nat) → ScopeId → Fault → Prop where
  | exhausted (id : ScopeId) : Stuck q 0 id (.misused (.selfNested id))
  | overflow (fuel : Nat) (id : ScopeId) : Stuck q (fuel + 1) id (.misused .wordOverflow)
  | blocked {fuel : Nat} {id : ScopeId} {fault : Fault} (blocks : q.Blocks id fault) :
      Stuck q (fuel + 1) id fault
  | nested {fuel : Nat} {id x : ScopeId} {fault : Fault} (holds : q.Holds id x)
      (stuck : Stuck q fuel x fault) : Stuck q (fuel + 1) id fault

variable {p q t : Program} {parent flat source clone : ScopeId} {owner : ScopeId → ScopeId}

theorem IsClone.exists_clone (cloned : p.IsClone parent owner source clone) :
    ∃ c, p.scope? clone = some c := by
  cases cloned with
  | intro found made newer copyable owners cloned nested => exact ⟨_, made⟩

/-- Closures with a graph keep their clones, wherever they are kept themselves. -/
theorem IsClone.keep
    (kept : ∀ id s, p.scope? id = some s → s.isClosure = true → s.graph ≠ none →
      q.scope? id = some s)
    (cloned : p.IsClone parent owner source clone) : q.IsClone parent owner source clone := by
  induction cloned with
  | intro found made newer copyable owners cloned nested ih =>
    obtain ⟨g, g', d, d', body, -⟩ := cloned.body
    refine .intro (kept _ _ found copyable.closure (by simp [body.source]))
      (kept _ _ made ?_ (by simp [body.graph])) newer copyable owners cloned ih
    rw [Scope.isClosure, cloned.kind]
    exact copyable.closure

theorem IsClone.grown (hosts : p.Hosts flat) (grown : p.Grown flat q)
    (cloned : p.IsClone parent owner source clone) : q.IsClone parent owner source clone :=
  cloned.keep fun _ _ found closed _ => grown.keeps_closure hosts found closed

/--
The scope `c` at place `id` is the shell of a clone, whose source has a graph.
It may have handed out names for a body that it does not have yet.
-/
inductive Begun (q : Program) (id : ScopeId) : Scope → Prop where
  | intro {source parent : ScopeId} {s c : Scope} {data : ClosureData} {number : Nat}
      (found : q.scope? source = some s) (newer : source.index < id.index)
      (isClosure : s.isClosure = true) (graph : s.graph ≠ none) (closed : s.closure = some data)
      (shell : (s.cloneShell data parent number id).Minted c) : Begun q id c

theorem Begun.keep {id : ScopeId} {c : Scope}
    (kept : ∀ id s, p.scope? id = some s → s.isClosure = true → s.graph ≠ none →
      q.scope? id = some s)
    (begun : p.Begun id c) : q.Begun id c := by
  cases begun with
  | intro found newer isClosure graph closed shell =>
    exact .intro (kept _ _ found isClosure graph) newer isClosure graph closed shell

def Shelled (p q : Program) : Prop :=
  ∀ id c, p.scopes.size ≤ id.index → q.scope? id = some c → c.graph = none → q.Begun id c

def Traced (p q : Program) : Prop :=
  ∀ id s, p.scopes.size ≤ id.index → q.scope? id = some s → s.graph ≠ none →
    ∃ parent owner source, q.IsClone parent owner source id

/-- What cloning does to a program that hosts the clones under `flat`. -/
structure Cloning (flat : ScopeId) (p q : Program) : Prop where
  size_le : p.scopes.size ≤ q.scopes.size
  hosts : p.Hosts flat → q.Hosts flat
  grown : p.Hosts flat → p.Grown flat q
  traced : p.Hosts flat → p.Traced q
  shelled : p.Hosts flat → p.Shelled q

namespace Cloning

theorem refl (flat : ScopeId) (p : Program) : p.Cloning flat p where
  size_le := Nat.le_refl _
  hosts := id
  grown _ := .refl flat p
  traced _ _ _ beyond found := absurd (lt_size_of_scope? found) (Nat.not_lt.2 beyond)
  shelled _ _ _ beyond found := absurd (lt_size_of_scope? found) (Nat.not_lt.2 beyond)

/-- A closure that was added first stays as it is while others are added. -/
theorem exists_kept (first : p.Cloning flat q) (second : q.Cloning flat t) (hosts : p.Hosts flat)
    {id : ScopeId} {s : Scope} (beyond : p.scopes.size ≤ id.index)
    (inside : id.index < q.scopes.size) (found : t.scope? id = some s) :
    q.scope? id = some s := by
  have hosts' := first.hosts hosts
  obtain ⟨before, there⟩ := exists_scope? inside
  obtain ⟨-, outer, data, host, closed, -⟩ := (first.grown hosts).new id before beyond there
  have same := (second.grown hosts').keeps_closure hosts' there
    ((hosts'.formed id before there).isClosure_of_closure closed)
  cases same.symm.trans found
  exact there

theorem trans (first : p.Cloning flat q) (second : q.Cloning flat t) : p.Cloning flat t where
  size_le := Nat.le_trans first.size_le second.size_le
  hosts hosts := second.hosts (first.hosts hosts)
  grown hosts := (first.grown hosts).trans (second.grown (first.hosts hosts))
  traced hosts id s beyond found graph := by
    have hosts' := first.hosts hosts
    rcases Nat.lt_or_ge id.index q.scopes.size with inside | outside
    · have there := first.exists_kept second hosts beyond inside found
      obtain ⟨parent, owner, source, cloned⟩ := first.traced hosts id _ beyond there graph
      exact ⟨parent, owner, source, cloned.grown hosts' (second.grown hosts')⟩
    · exact second.traced hosts' id s outside found graph
  shelled hosts id c beyond found bare := by
    have hosts' := first.hosts hosts
    rcases Nat.lt_or_ge id.index q.scopes.size with inside | outside
    · have there := first.exists_kept second hosts beyond inside found
      exact (first.shelled hosts id c beyond there bare).keep fun _ _ here closed _ =>
        (second.grown hosts').keeps_closure hosts' here closed
    · exact second.shelled hosts' id c outside found bare

end Cloning

end Program

end ClosureIR
