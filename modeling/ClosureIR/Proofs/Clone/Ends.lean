import ClosureIR.Proofs.Clone.Rebuild
import ClosureIR.Proofs.Spelling

/-!
# The ends of a clone

A closure knows the labels of its start and of its end, whether or not its
graph does.  Where the graph mentions such a label, the clone has the label's
copy; elsewhere it has a new one.  Copies have the places of their originals,
and new labels have none, so the ends of a clone are where those of its source
are.
-/

namespace ClosureIR

namespace Graph

/--
The label `l'` is in the second graph what `l` is in the first: borne by a block
in the same place, if by any, and the target of the same instructions.
-/
structure SameRole (g g' : Graph) (l l' : Label) : Prop where
  mentioned : .label l' ∈ g'.mentions ↔ .label l ∈ g.mentions
  borne : (∃ b' ∈ g'.blocks, b'.label = l') ↔ ∃ b ∈ g.blocks, b.label = l
  place : g'.blockForLabel? l' = g.blockForLabel? l
  jumps : List.Forall₂ (fun b b' : Block => List.Forall₂ (fun i i' : Instr =>
    i'.target? = some l' ↔ i.target? = some l) b.instrs b'.instrs) g.blocks g'.blocks

variable {g g' : Graph} {m : NameMap} {sub : ScopeId → ScopeId → Prop} {owner : ScopeId}
  {l l' : Label}

theorem exists_bears_iff : (∃ b ∈ g.blocks, b.label = l) ↔ (g.blockForLabel? l).isSome = true := by
  simp [blockForLabel?]

/-- It is enough that, of the labels in the first graph, the map leads `l` to `l'` and no other. -/
theorem Copied.sameRole (copied : g.Copied m sub owner g')
    (known : ∀ k, .label k ∈ g.mentions → (m.label k = l' ↔ k = l)) : g.SameRole g' l l' := by
  have place : g'.blockForLabel? l' = g.blockForLabel? l := by
    rw [blockForLabel?_eq_map_head?, blockForLabel?_eq_map_head?, ← List.head?_map, ← List.head?_map]
    congr 1
    exact bearers_copied copied.blocks fun b member => known b.label (label_mem_mentions member)
  refine ⟨?_, ?_, place, ?_⟩
  · rw [copied.mentions, List.mem_map]
    constructor
    · rintro ⟨n, inside, same⟩
      cases n with
      | label k =>
        obtain rfl := (known k inside).1 (Mention.label.inj same)
        exact inside
      | temp t => cases same
    · intro inside
      exact ⟨.label l, inside, congrArg Mention.label ((known l inside).2 rfl)⟩
  · rw [exists_bears_iff, exists_bears_iff, place]
  · have within := (List.forall₂_and_left _ _).2 ⟨fun b member => member, copied.blocks⟩
    refine within.imp fun b b' ⟨member, here⟩ => ?_
    have inside := (List.forall₂_and_left _ _).2 ⟨fun i member => member, here.instrs⟩
    refine inside.imp fun i i' ⟨among, there⟩ => ?_
    rw [there.target?, Option.map_eq_some_iff]
    constructor
    · rintro ⟨k, target, same⟩
      obtain rfl := (known k (mentions_of_target? member among target)).1 same
      exact target
    · intro target
      exact ⟨l, target, (known l (mentions_of_target? member among target)).2 rfl⟩

end Graph

namespace Scope

variable {s c : Scope} {parent clone : ScopeId} {m : NameMap} {sub : ScopeId → ScopeId → Prop}

theorem getLast?_labelStem (c : Scope) : c.labelStem.toList.getLast? = some 'L' := by
  rw [labelStem]
  cases c.closure with
  | some data =>
    rw [String.toList_append, List.getLast?_append]
    rfl
  | none => rfl

/-- The own labels of a scope are told from other numbered names by the last letter of the stem. -/
theorem ownLabel_ne_numbered (c : Scope) (n k : Nat) {stem : String}
    (other : stem.toList.getLast? ≠ some 'L') : c.ownLabel n ≠ ⟨numbered stem k⟩ := by
  intro same
  obtain ⟨rfl, -⟩ := numbered_eq_iff.1 (Label.mk.inj same)
  exact other c.getLast?_labelStem

def EndsFollow (s c : Scope) : Prop :=
  ∃ g g' d d', s.graph = some g ∧ c.graph = some g' ∧ s.closure = some d ∧ c.closure = some d' ∧
    g.SameRole g' d.startLabel d'.startLabel ∧ g.SameRole g' d.endLabel d'.endLabel

/-- So are the copies of labels, which are own labels of the clone. -/
theorem ClonedBody.label_ne_numbered {g g' : Graph} (body : s.ClonedBody c clone m sub g g')
    {l : Label} (named : .label l ∈ g.mentions) (k : Nat) {stem : String}
    (other : stem.toList.getLast? ≠ some 'L') : m.label l ≠ ⟨numbered stem k⟩ := by
  obtain ⟨n, -, minted⟩ := body.fresh.label_minted l named
  exact minted ▸ c.ownLabel_ne_numbered n k other

/-- An end is copied where it is mentioned, and else gets a name that no copy has. -/
theorem ClonedBody.sameRole {g g' : Graph} (body : s.ClonedBody c clone m sub g g') (l : Label)
    {stem : String} (other : stem.toList.getLast? ≠ some 'L') :
    g.SameRole g' l (if .label l ∈ g.mentions then m.label l else ⟨numbered stem 0⟩) := by
  apply body.copied.sameRole
  intro k named
  split
  · rename_i mentioned
    exact ⟨body.fresh.label_injective k l named mentioned, congrArg m.label⟩
  · rename_i unmentioned
    constructor
    · exact fun same => absurd same (body.label_ne_numbered named 0 other)
    · rintro rfl
      exact absurd named unmentioned

theorem ClonedAs.endsFollow (cloned : s.ClonedAs c parent clone m sub) : s.EndsFollow c := by
  obtain ⟨g, g', d, d', body, closed, closed', data⟩ := cloned.body
  refine ⟨g, g', d, d', body.source, body.graph, closed, closed', ?_, ?_⟩
  · rw [data.startLabel]
    exact body.sameRole _ (by simp)
  · rw [data.endLabel]
    exact body.sameRole _ (by simp)

end Scope

namespace Program

variable {p q : Program} {parent source clone : ScopeId} {owner : ScopeId → ScopeId}

def EndsFollow (q : Program) (source clone : ScopeId) : Prop :=
  ∃ s c, q.scope? source = some s ∧ q.scope? clone = some c ∧ s.EndsFollow c

theorem IsClone.endsFollow (cloned : q.IsClone parent owner source clone) :
    q.EndsFollow source clone := by
  cases cloned with
  | intro found made newer copyable owners cloned nested =>
    exact ⟨_, _, found, made, cloned.endsFollow⟩

/--
The start and the end of a clone are where they are in its source: borne by a
block in the same place, if by any, and the targets of the same instructions.
The source is as it was before, and for every closure in the clone there is one
in the source to which it stands in the same way.
-/
theorem endsFollow_of_cloneUnder (reachable : p.Reachable) {r : Renaming}
    (run : (cloneUnder r source).runOn p = (.ok clone, q)) :
    (∃ s, p.scope? source = some s ∧ q.scope? source = some s) ∧ q.EndsFollow source clone ∧
      ∀ d, q.Reaches clone d → ∃ x, q.Reaches source x ∧ q.EndsFollow x d := by
  obtain ⟨flat, nearest, step, place, cloned⟩ := reachable.wellFormed.cloned run
  have hosts := reachable.wellFormed.hosts nearest
  refine ⟨?_, cloned.endsFollow, ?_⟩
  · obtain ⟨t, kept, copyable⟩ := cloned.copyable
    have older : source.index < p.scopes.size := by
      have newer := cloned.source_lt
      rwa [place] at newer
    obtain ⟨s, found⟩ := exists_scope? older
    obtain rfl := (step.grown hosts).eq_of_copyable hosts found kept copyable
    exact ⟨_, found, kept⟩
  · intro d reaches
    obtain ⟨_, _, x, reaches', here⟩ := cloned.of_reaches_clone reaches
    exact ⟨x, reaches', here.endsFollow⟩

def restartingClosure : Program :=
  ({} : Program)
    |>.after (newScript "main.rb")
    |>.after (newClosure ⟨0⟩ false 1 none {})
    |>.after (addInstr ⟨1⟩ (.label ⟨"_CLOSURE_START_0"⟩))
    |>.after (addInstr ⟨1⟩ (.branchFalse .self ⟨"_CLOSURE_START_0"⟩))
    |>.after (addInstr ⟨1⟩ (.ret .nil))
    |>.after (buildGraph ⟨1⟩)

/-- Its clone starts where it does itself, and like it has its end nowhere. -/
theorem endsFollow_restartingClosure :
    (restartingClosure.after (cloneUnder (.under ⟨0⟩) ⟨1⟩)).EndsFollow ⟨1⟩ ⟨2⟩ ∧
      (((restartingClosure.after (cloneUnder (.under ⟨0⟩) ⟨1⟩)).scope? ⟨2⟩).any fun c =>
        c.graph.any fun g => c.closure.any fun d =>
          g.blockForLabel? d.startLabel = some ⟨1⟩ && g.blockForLabel? d.endLabel = none) = true := by
  have reachable : restartingClosure.Reachable := Reachable.start {}
    |>.step (.newScript "main.rb")
    |>.step (.newClosure ⟨0⟩ false 1 none {})
    |>.step (.addInstr ⟨1⟩ (.label ⟨"_CLOSURE_START_0"⟩))
    |>.step (.addInstr ⟨1⟩ (.branchFalse .self ⟨"_CLOSURE_START_0"⟩))
    |>.step (.addInstr ⟨1⟩ (.ret .nil))
    |>.step (.buildGraph ⟨1⟩)
  have run : (cloneUnder (.under ⟨0⟩) ⟨1⟩).runOn restartingClosure =
      (.ok ⟨2⟩, restartingClosure.after (cloneUnder (.under ⟨0⟩) ⟨1⟩)) :=
    Prod.ext (by decide +kernel) rfl
  exact ⟨(endsFollow_of_cloneUnder reachable run).2.1, by decide +kernel⟩

end Program

end ClosureIR
