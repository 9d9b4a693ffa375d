import ClosureIR.Proofs.Clone.Success
import ClosureIR.Proofs.Flow.Rebuild
import ClosureIR.Proofs.Flow.Stored

/-!
# Building the graph of a clone again

A clone has handed out just the labels of its graph.  The labels that a builder
takes from it next are others, so the graph of a clone is built again from the
instructions of the clone.
-/

namespace ClosureIR

open BuildM

/-! ## Names under a map that is one to one -/

namespace Graph.Copied

variable {m : NameMap} {sub : ScopeId → ScopeId → Prop} {owner : ScopeId} {g g' : Graph}

/-- Where the jumps lead is as clear in the copy. -/
theorem unambiguous (copied : g.Copied m sub owner g') (clear : g.Unambiguous)
    (injective : ∀ l₁ l₂, .label l₁ ∈ g.mentions → .label l₂ ∈ g.mentions →
      m.label l₁ = m.label l₂ → l₁ = l₂) : g'.Unambiguous where
  distinct := by
    have labels : g'.blocks.map (·.label) = (g.blocks.map (·.label)).map m.label := by
      rw [List.map_map]
      exact map_eq_of_forall₂ (copied.blocks.imp fun _ _ here => here.label)
    rw [labels]
    refine clear.distinct.map_on fun l₁ member₁ l₂ member₂ => ?_
    obtain ⟨b₁, inside₁, rfl⟩ := List.mem_map.1 member₁
    obtain ⟨b₂, inside₂, rfl⟩ := List.mem_map.1 member₂
    exact injective _ _ (label_mem_mentions inside₁) (label_mem_mentions inside₂)
  placed := by
    intro i' member' l' target'
    obtain ⟨i, member, here⟩ := exists_left_of_forall₂ copied.instrs member'
    rw [here.target?, Option.map_eq_some_iff] at target'
    obtain ⟨l, target, rfl⟩ := target'
    have placed := clear.placed i member l target
    obtain ⟨j', among, there⟩ := exists_right_of_forall₂ copied.instrs placed
    cases there
    exact among

/-- A label that a copy places stands for one that its original mentions. -/
theorem exists_label_of_mem (copied : g.Copied m sub owner g') {l' : Label}
    (placed : .label l' ∈ g'.instrs) : ∃ l, .label l ∈ g.mentions ∧ m.label l = l' := by
  have named : .label l' ∈ g'.mentions := by
    obtain ⟨b', member, inside⟩ := List.mem_flatMap.1 placed
    have own : .label l' ∈ (Instr.label l').mentions := List.mem_cons_self
    have mentioned := List.mem_flatMap.2 ⟨_, inside, own⟩
    exact List.mem_flatMap.2 ⟨b', member, List.mem_cons_of_mem _ mentioned⟩
  rw [copied.mentions] at named
  obtain ⟨n, before, same⟩ := List.mem_map.1 named
  cases n with
  | label l => exact ⟨l, before, Mention.label.inj same⟩
  | temp t => cases same

end Graph.Copied

namespace Program

variable {p q : Program} {id parent source clone : ScopeId} {owner : ScopeId → ScopeId} {c : Scope}

/-! ## The labels that a builder takes -/

/-- A scope that places none of the labels that it has yet to hand out gets its graph again. -/
theorem yields_buildGraph_alike {g : Graph} (found : p.scope? id = some c)
    (live : c.isInlined = false) (whole : c.instrs = g.instrs) (place : g.scope = id)
    (formed : g.WellFormed) (faithful : g.Faithful) (clear : g.Unambiguous)
    (unplaced : ∀ n, c.ownLabels ≤ n → .label (c.ownLabel n) ∉ g.instrs) :
    (buildGraph id).Yields p (fun h _ => g.Alike h)
      fun fault _ => fault = .misused .wordOverflow ∧
        Counter.bound ≤ c.ownLabels + Graph.labelsNeeded c.instrs := by
  refine yields_ask_of_ok (liveScope_eq_ok_iff.2 ⟨found, live⟩) ?_
  refine yields_bind.2 ((yields_ownLabels found live _).mono ?_ fun _ _ failed => failed)
  rintro labels t ⟨handed, rfl⟩
  have there := scope?_replace_self found (c.labelled (Graph.labelsNeeded c.instrs))
  have fresh (n : Nat) (small : n < Graph.labelsNeeded g.instrs) :
      .label (labels.getD n default) ∉ g.instrs := by
    have next : labels.getD n default = c.ownLabel (c.ownLabels + n) := by
      rw [← whole, Graph.labelsNeeded] at small
      simp [handed, Scope.nextLabels, small]
    rw [next]
    exact unplaced _ (Nat.le_add_right _ _)
  obtain ⟨h, built, alike⟩ := Graph.exists_build_alike formed faithful clear fresh c.name
  rw [place, ← whole] at built
  rw [built]
  refine yields_bind.2 (yields_ofRefusal.2 ⟨fun h' same => ?_, fun _ never => by cases never⟩)
  cases same
  refine yields_bind.2 (yields_ask_of_ok (scope_eq_ok_iff.2 there) ?_)
  exact alike

/-- The graph of a clone, nested or not, is built again if it is clear where its source jumps to. -/
theorem IsClone.yields_buildGraph (cloned : q.IsClone parent owner source clone)
    (reachable : q.Reachable) {s : Scope} {g : Graph} (found : q.scope? source = some s)
    (graph : s.graph = some g) (clear : g.Unambiguous) :
    ∃ c' g', q.scope? clone = some c' ∧ c'.graph = some g' ∧
      (buildGraph clone).Yields q (fun h _ => g'.Alike h)
        fun fault _ => fault = .misused .wordOverflow ∧
          Counter.bound ≤ c'.ownLabels + Graph.labelsNeeded c'.instrs := by
  cases cloned with
  | @intro _ _ _ _ s' c m sub found' made newer copyable owners copied nested =>
    cases found.symm.trans found'
    obtain ⟨g₀, g', d, d', body, -, closed, data⟩ := copied.body
    cases graph.symm.trans body.source
    refine ⟨c, g', made, body.graph, ?_⟩
    apply yields_buildGraph_alike made _ body.instrs body.copied.scope
    · exact (reachable.everywhere Scope.invariant_drawn clone c made g' body.graph).1
    · exact reachable.everywhere Scope.invariant_drawnFaithfully clone c made g' body.graph
    · exact body.copied.unambiguous clear body.fresh.label_injective
    · intro n beyond inside
      obtain ⟨l, named, same⟩ := body.copied.exists_label_of_mem inside
      obtain ⟨k, small, minted⟩ := body.fresh.label_minted l named
      have number := Scope.ownLabel_injective (minted.symm.trans same)
      omega
    · rw [Scope.isInlined, closed]
      exact data.live

/--
The graph that a clone has got from its source is the one that a builder makes
of the instructions of the clone, where the labels of the source's blocks are
distinct and its targets are placed.  Only blocks that place no label may get
another one, and only the end of the counter of labels stops the builder.
-/
theorem buildGraph_of_cloneUnder (reachable : p.Reachable) {r : Renaming}
    (run : (cloneUnder r source).runOn p = (.ok clone, q)) {s : Scope} {g : Graph}
    (found : p.scope? source = some s) (graph : s.graph = some g) (clear : g.Unambiguous) :
    ∃ c g', q.scope? clone = some c ∧ c.graph = some g' ∧
      ((∃ h t, (buildGraph clone).runOn q = (.ok h, t) ∧ g'.Alike h) ∨
        ((buildGraph clone).runOn q).1 = .error (.misused .wordOverflow) ∧
          Counter.bound ≤ c.ownLabels + Graph.labelsNeeded c.instrs) := by
  obtain ⟨flat, nearest, step, -, cloned⟩ := reachable.wellFormed.cloned run
  have hosts := reachable.wellFormed.hosts nearest
  have after : q.Reachable := reachable.of_runOn (.cloneUnder r source) run
  obtain ⟨s', there, copyable⟩ := cloned.copyable
  obtain rfl := (step.grown hosts).eq_of_copyable hosts found there copyable
  obtain ⟨c, g', made, kept, yields⟩ := cloned.yields_buildGraph after there graph clear
  refine ⟨c, g', made, kept, ?_⟩
  cases built : (buildGraph clone).runOn q with
  | mk outcome t =>
    cases outcome with
    | ok h => exact .inl ⟨h, t, rfl, yields.of_ok built⟩
    | error fault =>
      obtain ⟨rfl, full⟩ := yields.of_error built
      exact .inr ⟨rfl, full⟩

def waitingClosure : Program :=
  ({} : Program)
    |>.after (newScript "main.rb")
    |>.after (newClosure ⟨0⟩ false 1 none {})
    |>.after (addInstr ⟨1⟩ (.label ⟨"AGAIN"⟩))
    |>.after (addInstr ⟨1⟩ (.branchFalse .self ⟨"AGAIN"⟩))
    |>.after (addInstr ⟨1⟩ (.ret .nil))
    |>.after (buildGraph ⟨1⟩)

/-- Its clone jumps to a label of its own, and is built again around it. -/
theorem buildGraph_waitingClosure :
    ∃ c g h t, (waitingClosure.after (cloneUnder (.under ⟨0⟩) ⟨1⟩)).scope? ⟨2⟩ = some c ∧
      c.graph = some g ∧
      (buildGraph ⟨2⟩).runOn (waitingClosure.after (cloneUnder (.under ⟨0⟩) ⟨1⟩)) = (.ok h, t) ∧
      g.Alike h := by
  have reachable : waitingClosure.Reachable := Reachable.start {}
    |>.step (.newScript "main.rb")
    |>.step (.newClosure ⟨0⟩ false 1 none {})
    |>.step (.addInstr ⟨1⟩ (.label ⟨"AGAIN"⟩))
    |>.step (.addInstr ⟨1⟩ (.branchFalse .self ⟨"AGAIN"⟩))
    |>.step (.addInstr ⟨1⟩ (.ret .nil))
    |>.step (.buildGraph ⟨1⟩)
  have shape : (waitingClosure.scope? ⟨1⟩).any (fun s => s.graph.any fun g =>
      decide ((g.blocks.map (·.label)).Nodup ∧
        ∀ i ∈ g.instrs, ∀ l ∈ i.target?, .label l ∈ g.instrs)) = true := by
    decide +kernel
  obtain ⟨s, found, drawn⟩ := (Option.any_eq_true _ _).1 shape
  obtain ⟨g, graph, known⟩ := (Option.any_eq_true _ _).1 drawn
  obtain ⟨distinct, placed⟩ := of_decide_eq_true known
  have run : (cloneUnder (.under ⟨0⟩) ⟨1⟩).runOn waitingClosure =
      (.ok ⟨2⟩, waitingClosure.after (cloneUnder (.under ⟨0⟩) ⟨1⟩)) := Prod.ext (by decide +kernel) rfl
  obtain ⟨c, g', made, kept, ⟨h, t, built, alike⟩ | ⟨overflow, -⟩⟩ :=
    buildGraph_of_cloneUnder reachable run found graph ⟨distinct, placed⟩
  · exact ⟨c, g', h, t, made, kept, built, alike⟩
  · have done : ((buildGraph ⟨2⟩).runOn
        (waitingClosure.after (cloneUnder (.under ⟨0⟩) ⟨1⟩))).1.toOption.isSome = true := by
      decide +kernel
    rw [overflow] at done
    cases done

end Program

end ClosureIR
