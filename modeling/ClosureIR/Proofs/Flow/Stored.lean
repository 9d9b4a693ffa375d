import ClosureIR.Proofs.Clone.Result
import ClosureIR.Proofs.Everywhere
import ClosureIR.Proofs.Flow.Shape

/-!
# The graphs that scopes keep

A scope keeps its graph while instructions are appended and while other graphs
of it cannot be built.  The graph stays well formed, and its instructions stay
the first ones of the scope.
-/

namespace ClosureIR

open BuildM

namespace Scope

/-- A graph that the scope keeps is one of its first instructions. -/
def Drawn (s : Scope) : Prop := ∀ g, s.graph = some g → g.WellFormed ∧ g.instrs <+: s.instrs

variable {s c : Scope} {id parent : ScopeId} {m : NameMap} {sub : ScopeId → ScopeId → Prop}

theorem Drawn.append (drawn : s.Drawn) (i : Instr) : (s.append i).Drawn := by
  intro g graph
  obtain ⟨formed, begins⟩ := drawn g graph
  exact ⟨formed, begins.trans (List.prefix_append _ [i])⟩

theorem drawn_of_build {fresh : Nat → Label} {g : Graph}
    (built : Graph.build id s.name s.instrs fresh = .ok g) : Drawn { s with graph := some g } := by
  intro g' graph
  cases graph
  exact ⟨Graph.wellFormed_of_build built, (Graph.laid_of_build built).instrs ▸ List.prefix_rfl⟩

theorem ClonedAs.drawn (cloned : s.ClonedAs c parent id m sub) (drawn : s.Drawn) : c.Drawn := by
  intro g' graph
  obtain ⟨g, h, -, -, body, -⟩ := cloned.body
  cases body.graph.symm.trans graph
  exact ⟨(drawn g body.source).1.copied body.copied, body.instrs ▸ List.prefix_rfl⟩

theorem invariant_drawn : Invariant fun _ _ s => s.Drawn where
  script _ _ _ _ drawn := by cases drawn
  method _ _ _ _ _ _ _ _ drawn := by cases drawn
  block _ _ _ _ _ _ _ _ _ _ _ drawn := by cases drawn
  evalUnit _ _ _ _ _ _ _ _ _ _ drawn := by cases drawn
  counters _ _ _ holds := holds
  declare _ _ _ holds _ _ := holds
  append i holds := holds.append i
  graph _ built := drawn_of_build built
  inline holds := holds
  parameters _ holds := holds
  shell _ _ _ _ _ g drawn := by cases drawn
  clone holds _ cloned := cloned.drawn holds

end Scope

namespace Program

variable {p q : Program} {source clone parent : ScopeId} {owner : ScopeId → ScopeId}

def Charted (p : Program) (id : ScopeId) : Prop :=
  ∃ s g, p.scope? id = some s ∧ s.graph = some g ∧ g.instrs = s.instrs

theorem yields_buildGraph (id : ScopeId) (p : Program) : (buildGraph id).Yields p
    (fun g q => ∃ s, q.scope? id = some s ∧ s.graph = some g ∧ g.instrs = s.instrs)
    fun _ _ => True := by
  refine yields_ask_bind.2 ⟨fun s live => ?_, fun _ _ => trivial⟩
  obtain ⟨found, -⟩ := liveScope_eq_ok_iff.1 live
  refine yields_bind.2 ((yields_newLabels id found _).mono (fun labels q done => ?_) fun _ _ _ => trivial)
  obtain ⟨names, here⟩ := done
  refine yields_bind.2 (yields_ofRefusal.2 ⟨fun g built => ?_, fun _ _ => trivial⟩)
  refine yields_bind.2 (yields_ask_bind.2 ⟨fun t there => ?_, fun _ _ => trivial⟩)
  cases here.symm.trans (scope_eq_ok_iff.1 there)
  exact ⟨_, scope?_replace_self here _, rfl, (Graph.laid_of_build built).instrs⟩

theorem IsClone.charted (cloned : q.IsClone parent owner source clone) : q.Charted clone := by
  cases cloned with
  | intro found made newer copyable owners cloned nested =>
    obtain ⟨_, g', _, _, body, -⟩ := cloned.body
    exact ⟨_, g', made, body.graph, body.instrs.symm⟩

/--
Every graph that is kept is well formed, and its instructions are the first ones
of its scope; they are all of them when the graph was just built or copied.
-/
theorem drawn_of_reachable (reachable : p.Reachable) :
    (∀ id s g, p.scope? id = some s → s.graph = some g → g.WellFormed ∧ g.instrs <+: s.instrs) ∧
      (∀ id g q, (buildGraph id).runOn p = (.ok g, q) →
        ∃ s, q.scope? id = some s ∧ s.graph = some g ∧ g.instrs = s.instrs) ∧
      ∀ r source c q, (cloneUnder r source).runOn p = (.ok c, q) →
        ∀ x, q.Reaches c x → q.Charted x := by
  refine ⟨fun id s g found => reachable.everywhere Scope.invariant_drawn id s found g, ?_, ?_⟩
  · intro id g q run
    exact (yields_buildGraph id p).of_ok run
  · intro r source c q run x reaches
    obtain ⟨-, -, -, -, cloned⟩ := reachable.wellFormed.cloned run
    obtain ⟨_, _, _, -, here⟩ := cloned.of_reaches_clone reaches
    exact here.charted

/-- Of two instructions the graph has the first, as the second was appended later. -/
theorem drawn_twoClosures :
    ∃ s g, ((twoClosures []).after (addInstr ⟨2⟩ (.ret .nil))).scope? ⟨2⟩ = some s ∧
      s.graph = some g ∧ s.instrs.length = 2 ∧ g.instrs.length = 1 ∧
      g.WellFormed ∧ g.instrs <+: s.instrs := by
  have reachable := (reachable_twoClosures []).step (.addInstr ⟨2⟩ (.ret .nil))
  have shape : (((twoClosures []).after (addInstr ⟨2⟩ (.ret .nil))).scope? ⟨2⟩).any (fun s =>
      decide (s.instrs.length = 2 ∧ s.graph.map (·.instrs.length) = some 1)) = true := by
    decide +kernel
  obtain ⟨s, found, known⟩ := (Option.any_eq_true _ _).1 shape
  obtain ⟨two, one⟩ := of_decide_eq_true known
  obtain ⟨g, drawn, one⟩ := Option.map_eq_some_iff.1 one
  exact ⟨s, g, found, drawn, two, one, (drawn_of_reachable reachable).1 ⟨2⟩ s g found drawn⟩

end Program

end ClosureIR
