import ClosureIR.Proofs.Flow.Stored
import Mathlib.Algebra.GroupWithZero.Nat
import Mathlib.Data.List.Nodup

/-!
# Views of the edges of a graph

A pass over a view gives the ends of the edges that the view selects, one for
every call and in the order of the edges.  In a graph that was built, or copied
from one that was, an edge stands once in the set of its source and once in that
of its destination; so the views of one kind from the two sides are inverse to
each other, and blocks have as many successors as predecessors, taken together.
-/

namespace ClosureIR

/-! ## Passes -/

namespace EdgeView

universe u v

variable {α : Type u} {κ : Type v} [DecidableEq κ] {view : EdgeView α κ} {item : α}
  {edges rest : List (Edge α κ)}

def shown (view : EdgeView α κ) (edges : List (Edge α κ)) : List α :=
  (edges.filter view.selects).map (·.endpoint view.side)

theorem shown_cons_of_selects {edge : Edge α κ} (selected : view.selects edge = true)
    (rest : List (Edge α κ)) :
    view.shown (edge :: rest) = edge.endpoint view.side :: view.shown rest := by
  rw [shown, List.filter_cons_of_pos selected, List.map_cons, shown]

theorem shown_cons_of_not_selects {edge : Edge α κ} (skipped : ¬ view.selects edge = true)
    (rest : List (Edge α κ)) : view.shown (edge :: rest) = view.shown rest := by
  rw [shown, List.filter_cons_of_neg skipped, shown]

theorem shown_of_step (stepped : view.step edges = some (item, rest)) :
    view.shown edges = item :: view.shown rest := by
  induction edges with
  | nil => cases stepped
  | cons edge others ih =>
    rw [step] at stepped
    by_cases selected : view.selects edge = true
    · rw [if_pos selected] at stepped
      cases stepped
      exact shown_cons_of_selects selected _
    · rw [if_neg selected] at stepped
      rw [shown_cons_of_not_selects selected, ih stepped]

theorem shown_of_step_eq_none (ended : view.step edges = none) : view.shown edges = [] := by
  induction edges with
  | nil => rfl
  | cons edge others ih =>
    rw [step] at ended
    by_cases selected : view.selects edge = true
    · rw [if_pos selected] at ended
      cases ended
    · rw [if_neg selected] at ended
      rw [shown_cons_of_not_selects selected, ih ended]

namespace Pass

def remaining (pass : view.Pass) : List α := view.shown pass.ahead

def after (pass : view.Pass) : Nat → view.Pass
  | 0 => pass
  | n + 1 => pass.next.2.after n

/-- A call gives the first of the remaining items and leaves the others. -/
theorem next_spec (pass : view.Pass) :
    pass.next.1 = pass.remaining.head? ∧ pass.next.2.remaining = pass.remaining.tail := by
  rw [next]
  cases stepped : view.step pass.ahead with
  | none =>
    rw [remaining, remaining, shown_of_step_eq_none stepped]
    exact ⟨rfl, rfl⟩
  | some found =>
    rw [remaining, remaining, shown_of_step stepped]
    exact ⟨rfl, rfl⟩

theorem remaining_after (pass : view.Pass) (n : Nat) :
    (pass.after n).remaining = pass.remaining.drop n := by
  induction n generalizing pass with
  | zero => rfl
  | succ n ih =>
    calc (pass.next.2.after n).remaining
      _ = pass.next.2.remaining.drop n := ih pass.next.2
      _ = pass.remaining.tail.drop n := by rw [pass.next_spec.2]
      _ = pass.remaining.drop (n + 1) := List.drop_tail

/-- Calls until the end give what remains, and nothing else. -/
theorem drain_eq_remaining (pass : view.Pass) : pass.drain = pass.remaining := by
  -- Every call skips to the next selected edge; the end is reached when there is none.
  induction pass using drain.induct with
  | case1 pass item rest stepped ih =>
    rw [remaining, shown_of_step stepped, drain]
    split
    · rename_i found
      cases stepped.symm.trans found
      rw [ih, remaining]
    · rename_i ended
      cases stepped.symm.trans ended
  | case2 pass ended =>
    rw [remaining, shown_of_step_eq_none ended, drain]
    split
    · rename_i found
      cases ended.symm.trans found
    · rfl

end Pass

/--
A pass over the view gives these items: all of them when it is drained at the
start, the next one at every call, and the others after any number of calls.
-/
structure Gives (view : EdgeView α κ) (items : List α) : Prop where
  drain : view.start.drain = items
  next : ∀ n, (view.start.after n).next.1 = items[n]?
  rest : ∀ n, (view.start.after n).drain = items.drop n

theorem gives_items (view : EdgeView α κ) : view.Gives view.items where
  drain := view.start.drain_eq_remaining
  next n := by
    rw [((view.start.after n).next_spec).1, Pass.remaining_after, List.head?_drop]
    rfl
  rest n := by
    rw [Pass.drain_eq_remaining, Pass.remaining_after]
    rfl

theorem mem_items {x : α} : x ∈ view.items ↔
    ∃ e ∈ view.edges, view.selects e = true ∧ e.endpoint view.side = x := by
  simp only [items, List.mem_map, List.mem_filter, and_assoc]

theorem selects_eq_true_iff (positive : view.negate = false) {e : Edge α κ} :
    view.selects e = true ↔ e.kind = view.kind := by
  rw [selects, positive, Bool.bne_false, decide_eq_true_iff]

/-- A view shows nothing twice if no two of the edges that it selects look the same. -/
theorem nodup_items (distinct : view.edges.Nodup)
    (apart : ∀ e ∈ view.edges, ∀ e' ∈ view.edges, view.selects e = true → view.selects e' = true →
      e.endpoint view.side = e'.endpoint view.side → e = e') : view.items.Nodup := by
  refine List.Nodup.map_on (fun e member e' member' same => ?_) (distinct.filter _)
  obtain ⟨among, selected⟩ := List.mem_filter.1 member
  obtain ⟨among', selected'⟩ := List.mem_filter.1 member'
  exact apart e among e' among' selected selected' same

end EdgeView

/-- An edge is known by its ends and its kind. -/
theorem Edge.eq_of_endpoints {α κ : Type} {e e' : Edge α κ} {side other : Side}
    (apart : side ≠ other) (same : e.endpoint side = e'.endpoint side)
    (same' : e.endpoint other = e'.endpoint other) (kind : e.kind = e'.kind) : e = e' := by
  cases e
  cases e'
  cases side <;> cases other <;> simp_all

namespace Graph

theorem items_successorsOf (g : Graph) (a : BlockId) (kind : EdgeKind) :
    (g.successorsOf a kind).items =
      ((g.outgoingOf a).filter fun e => decide (e.kind = kind)).map (·.destination) := by
  refine congrArg (List.map _) (List.filter_congr fun e _ => ?_)
  exact Bool.bne_false _

theorem items_successorsNotOf (g : Graph) (a : BlockId) (kind : EdgeKind) :
    (g.successorsNotOf a kind).items =
      ((g.outgoingOf a).filter fun e => decide (e.kind ≠ kind)).map (·.destination) := by
  refine congrArg (List.map _) (List.filter_congr fun e _ => ?_)
  rw [decide_not]
  exact Bool.bne_true _

/-! ## Graphs whose edges are known at both ends -/

def blockIds (g : Graph) : List BlockId := g.blocks.map (·.id)

def Has (g : Graph) (e : FlowEdge) : Prop := e ∈ g.outgoingOf e.source

/-- The edges of the graph are in the sets of their ends, in increasing order, and in no other set. -/
structure Linked (g : Graph) : Prop where
  increasing : ∀ side id, (g.edgesAt side id).Increasing
  known : ∀ side id e, e ∈ g.edgesAt side id ↔ g.Has e ∧ e.endpoint side = id
  inside : ∀ e, g.Has e → ∀ side, e.endpoint side ∈ g.blockIds
  distinct : g.blockIds.Nodup

variable {scope owner : ScopeId} {scopeName : String} {is : List Instr} {fresh : Nat → Label}
  {g g' : Graph} {nested : ScopeId → BuildM ScopeId} {r : Renaming} {p q : Program}

theorem WellFormed.blockIds_eq (formed : g.WellFormed) :
    g.blockIds = (List.range g.blocks.length).map BlockId.mk := by
  apply List.ext_getElem?
  intro k
  rw [blockIds, List.getElem?_map, List.getElem?_map]
  cases found : g.blocks[k]? with
  | none =>
    have beyond := List.getElem?_eq_none_iff.1 found
    rw [List.getElem?_eq_none (by rwa [List.length_range])]
    rfl
  | some b =>
    rw [List.getElem?_range (List.getElem?_eq_some_iff.1 found).1]
    exact congrArg some (formed.ids k b found)

theorem linked_of_build (built : build scope scopeName is fresh = .ok g) : g.Linked := by
  have formed := wellFormed_of_build built
  constructor
  case increasing => exact increasing_of_build built
  case known =>
    intro side id e
    rw [Has, ← edgesAt_source, mem_edgesAt_build_iff built, mem_edgesAt_build_iff built]
    simp only [Edge.endpoint_source, true_and, and_comm]
  case inside =>
    intro e has side
    obtain ⟨source, destination⟩ := formed.inside e.source e has
    rw [formed.blockIds_eq, List.mem_map]
    cases side with
    | source => exact ⟨_, List.mem_range.2 source, rfl⟩
    | destination => exact ⟨_, List.mem_range.2 destination, rfl⟩
  case distinct =>
    rw [formed.blockIds_eq]
    exact List.nodup_range.map fun _ _ same => congrArg BlockId.index same

/-- Nothing but the places of blocks and the edges counts. -/
theorem Linked.transfer (linked : g.Linked) (places : g'.blockIds = g.blockIds)
    (outgoing : g'.outgoing = g.outgoing) (incoming : g'.incoming = g.incoming) : g'.Linked := by
  have same : g'.edgesAt = g.edgesAt := by
    funext side id
    cases side with
    | source => rw [edgesAt_source, edgesAt_source, outgoingOf, outgoing, outgoingOf]
    | destination => rw [edgesAt_destination, edgesAt_destination, incomingOf, incoming, incomingOf]
  have has : g'.Has = g.Has := by
    funext e
    rw [Has, Has, ← edgesAt_source, same, edgesAt_source]
  constructor
  case increasing => exact same ▸ linked.increasing
  case known => exact same ▸ has ▸ linked.known
  case inside => exact has ▸ places ▸ linked.inside
  case distinct => exact places ▸ linked.distinct

/-! ## Copies -/

theorem Copied.linked {m : NameMap} {sub : ScopeId → ScopeId → Prop}
    (copied : g.Copied m sub owner g') (linked : g.Linked) : g'.Linked :=
  linked.transfer (map_eq_of_forall₂ (copied.blocks.imp fun _ _ here => here.id)) copied.outgoing
    copied.incoming

theorem ids_of_renamedAll {blocks blocks' : List Block}
    (run : (Block.renamedAll nested r blocks).runOn p = (.ok blocks', q)) :
    blocks'.map (·.id) = blocks.map (·.id) := by
  induction blocks generalizing blocks' p with
  | nil =>
    cases run
    rfl
  | cons b rest ih =>
    obtain ⟨b', t, first, run⟩ := BuildM.exists_of_runOn_bind run
    obtain ⟨rest', u, others, run⟩ := BuildM.exists_of_runOn_bind run
    cases run
    obtain ⟨instrs, _, -, first⟩ := BuildM.exists_of_runOn_bind first
    obtain ⟨label, _, -, first⟩ := BuildM.exists_of_runOn_bind first
    cases first
    exact congrArg (b.id :: ·) (ih others)

theorem Linked.renamed (linked : g.Linked)
    (run : (g.renamed nested r owner).runOn p = (.ok g', q)) : g'.Linked := by
  obtain ⟨blocks, t, copied, run⟩ := BuildM.exists_of_runOn_bind run
  cases run
  exact linked.transfer (ids_of_renamedAll copied) rfl rfl

/-- A graph that is built, that a scope keeps after any operations, or that is copied. -/
inductive Made : Graph → Prop where
  | built {scope : ScopeId} {scopeName : String} {is : List Instr} {fresh : Nat → Label} {g : Graph}
      (run : build scope scopeName is fresh = .ok g) : Made g
  | kept {p : Program} {id : ScopeId} {s : Scope} {g : Graph} (reachable : p.Reachable)
      (found : p.scope? id = some s) (graph : s.graph = some g) : Made g
  | copied {nested : ScopeId → BuildM ScopeId} {r : Renaming} {owner : ScopeId} {g g' : Graph}
      {p q : Program} (made : Made g) (run : (g.renamed nested r owner).runOn p = (.ok g', q)) :
      Made g'

theorem Made.linked (made : g.Made) : g.Linked := by
  induction made with
  | built run => exact linked_of_build run
  | kept reachable found graph =>
    have invariant := Scope.invariant_of_graphs linked_of_build fun body => body.copied.linked
    exact reachable.everywhere invariant _ _ found _ graph
  | copied _ run linked => exact linked.renamed run

/-! ## All edges -/

def edgesFrom (g : Graph) (side : Side) : List FlowEdge := g.blockIds.flatMap (g.edgesAt side)

namespace Linked

theorem mem_edgesFrom_iff (linked : g.Linked) (side : Side) {e : FlowEdge} :
    e ∈ g.edgesFrom side ↔ g.Has e := by
  rw [edgesFrom, List.mem_flatMap]
  constructor
  · rintro ⟨id, -, member⟩
    exact ((linked.known side id e).1 member).1
  · intro has
    exact ⟨_, linked.inside e has side, (linked.known side _ e).2 ⟨has, rfl⟩⟩

theorem nodup_edgesFrom (linked : g.Linked) (side : Side) : (g.edgesFrom side).Nodup := by
  refine List.nodup_flatMap.2 ⟨fun id _ => (linked.increasing side id).nodup, ?_⟩
  refine linked.distinct.imp fun {a b} apart e here there => apart ?_
  exact ((linked.known side a e).1 here).2.symm.trans ((linked.known side b e).1 there).2

/-- From both sides the same edges are collected. -/
theorem edgesFrom_perm (linked : g.Linked) :
    (g.edgesFrom .source).Perm (g.edgesFrom .destination) := by
  rw [List.perm_ext_iff_of_nodup (linked.nodup_edgesFrom _) (linked.nodup_edgesFrom _)]
  intro e
  rw [linked.mem_edgesFrom_iff, linked.mem_edgesFrom_iff]

theorem sum_successors_eq (linked : g.Linked) :
    (g.blocks.map fun b => (g.successors b.id).length).sum =
      (g.blocks.map fun b => (g.predecessors b.id).length).sum := by
  -- Both sums count all edges of the graph, each at one of its ends.
  have counted := linked.edgesFrom_perm.length_eq
  rw [edgesFrom, edgesFrom, List.length_flatMap, List.length_flatMap, blockIds, List.map_map,
    List.map_map] at counted
  simpa [successors, predecessors, Function.comp_def] using counted

/-! ## Views of one kind, seen across the edges -/

section Across

variable {view : EdgeView BlockId EdgeKind}

/-- What a view of one kind shows at the other end of the edges of a block. -/
theorem mem_items_iff (linked : g.Linked) (side : Side) (id : BlockId)
    (edges : view.edges = g.edgesAt side id) (positive : view.negate = false) {x : BlockId} :
    x ∈ view.items ↔
      ∃ e, g.Has e ∧ e.endpoint side = id ∧ e.endpoint view.side = x ∧ e.kind = view.kind := by
  rw [EdgeView.mem_items, edges]
  refine exists_congr fun e => ?_
  rw [linked.known, EdgeView.selects_eq_true_iff positive, and_assoc, and_comm (a := e.kind = _)]

theorem nodup_items (linked : g.Linked) (side : Side) (id : BlockId)
    (edges : view.edges = g.edgesAt side id) (positive : view.negate = false)
    (across : side ≠ view.side) : view.items.Nodup := by
  -- Edges of one kind that share the block at this side can only differ at the other.
  have distinct : view.edges.Nodup := edges ▸ (linked.increasing side id).nodup
  refine EdgeView.nodup_items distinct fun e member e' member' selected selected' seen => ?_
  rw [edges, linked.known] at member member'
  rw [EdgeView.selects_eq_true_iff positive] at selected selected'
  exact Edge.eq_of_endpoints across (member.2.trans member'.2.symm) seen
    (selected.trans selected'.symm)

end Across

/-- Across edges of one kind, one block sees the other exactly when it is seen by it. -/
theorem mem_successorsOf_iff (linked : g.Linked) (a b : BlockId) (kind : EdgeKind) :
    b ∈ (g.successorsOf a kind).items ↔ a ∈ (g.predecessorsOf b kind).items := by
  rw [linked.mem_items_iff .source a rfl rfl, linked.mem_items_iff .destination b rfl rfl]
  exact exists_congr fun e => and_congr_right fun _ => and_left_comm

end Linked

/--
In a graph that is made, the successors of a block along edges of one kind and
those along other edges come in the order of the edges, one for every call, and
take every edge once.  One block is a successor of another along edges of a kind
just if that is its predecessor along such edges, and it is so once.  Blocks have
as many successors as predecessors in all.
-/
theorem views_of_made (made : g.Made) :
    (∀ a kind,
      let matching := (g.outgoingOf a).filter fun e => decide (e.kind = kind)
      let others := (g.outgoingOf a).filter fun e => decide (e.kind ≠ kind)
      (g.successorsOf a kind).Gives (matching.map (·.destination)) ∧
      (g.successorsNotOf a kind).Gives (others.map (·.destination)) ∧
      (matching.map (·.destination)).Sublist (g.successors a) ∧
      (others.map (·.destination)).Sublist (g.successors a) ∧
      (matching ++ others).Perm (g.outgoingOf a) ∧ (g.outgoingOf a).Increasing) ∧
    (∀ a b kind,
      (b ∈ (g.successorsOf a kind).start.drain ↔ a ∈ (g.predecessorsOf b kind).start.drain) ∧
      (g.successorsOf a kind).start.drain.Nodup ∧ (g.predecessorsOf b kind).start.drain.Nodup) ∧
    (g.blocks.map fun b => (g.successors b.id).length).sum =
      (g.blocks.map fun b => (g.predecessors b.id).length).sum := by
  have linked := made.linked
  refine ⟨fun a kind => ⟨?matching, ?others, ?sub, ?sub', ?every, ?order⟩, fun a b kind => ?inverse,
    linked.sum_successors_eq⟩
  case matching => exact items_successorsOf g a kind ▸ EdgeView.gives_items _
  case others => exact items_successorsNotOf g a kind ▸ EdgeView.gives_items _
  case sub => exact List.filter_sublist.map _
  case sub' => exact List.filter_sublist.map _
  case every => simpa using List.filter_append_perm (fun e => decide (e.kind = kind)) (g.outgoingOf a)
  case order => exact linked.increasing .source a
  case inverse =>
    rw [(EdgeView.gives_items (g.successorsOf a kind)).drain,
      (EdgeView.gives_items (g.predecessorsOf b kind)).drain]
    exact ⟨linked.mem_successorsOf_iff a b kind,
      linked.nodup_items .source a rfl rfl nofun,
      linked.nodup_items .destination b rfl rfl nofun⟩

/-- A branch to the next block leaves two edges of different kinds, in a copy as well. -/
theorem views_of_two_edges :
    let fresh : Nat → Label := fun n => ⟨numbered "BB" n⟩
    let r := ((((Renaming.under ⟨0⟩).withLabel ⟨"NEXT"⟩ ⟨"NEXT_2"⟩).withLabel (fresh 0)
      ⟨"BB_3"⟩).withLabel (fresh 1) ⟨"BB_4"⟩).withLabel (fresh 2) ⟨"BB_5"⟩
    ∃ g g', build ⟨0⟩ "m" [.branchFalse .nil ⟨"NEXT"⟩, .label ⟨"NEXT"⟩] fresh = .ok g ∧
      (g.renamed (Program.cloneUnder r) r ⟨1⟩).runOn {} = (.ok g', {}) ∧
      g'.successors ⟨1⟩ = [⟨2⟩, ⟨2⟩] ∧
      (g'.successorsOf ⟨1⟩ .regular).start.drain = [⟨2⟩] ∧
      (g'.successorsNotOf ⟨1⟩ .regular).start.drain = [⟨2⟩] ∧
      ⟨1⟩ ∈ (g'.predecessorsOf ⟨2⟩ .regular).start.drain := by
  intro fresh r
  obtain ⟨g, g', built, run, edges⟩ : ∃ g g',
      build ⟨0⟩ "m" [.branchFalse .nil ⟨"NEXT"⟩, .label ⟨"NEXT"⟩] fresh = .ok g ∧
      (g.renamed (Program.cloneUnder r) r ⟨1⟩).runOn {} = (.ok g', {}) ∧
      g'.outgoingOf ⟨1⟩ = [⟨⟨1⟩, ⟨2⟩, .regular⟩, ⟨⟨1⟩, ⟨2⟩, .fallThrough⟩] :=
    ⟨_, _, rfl, rfl, rfl⟩
  obtain ⟨views, inverse, -⟩ := views_of_made ((Made.built built).copied run)
  obtain ⟨taken, other, -⟩ := views ⟨1⟩ .regular
  rw [edges] at taken other
  have sees : ⟨2⟩ ∈ (g'.successorsOf ⟨1⟩ .regular).start.drain := by
    rw [taken.drain]
    exact List.mem_singleton_self _
  refine ⟨g, g', built, run, ?_, taken.drain, other.drain, ((inverse ⟨1⟩ ⟨2⟩ .regular).1).1 sees⟩
  rw [successors, edges]
  rfl

end Graph

end ClosureIR
