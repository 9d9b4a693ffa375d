import ClosureIR.Edge.Basic

/-!
# Views of edges by kind

A view selects, among a list of edges, those of one kind, or those of every
other kind, and shows one end of each.  A pass over a view is lazy: it keeps
the edges that it has not looked at yet.
-/

namespace ClosureIR

universe u v

/-- The edges of one kind (or of all others, when `negate` is set), seen at one `side`. -/
structure EdgeView (α : Type u) (κ : Type v) where
  edges : List (Edge α κ)
  kind : κ
  negate : Bool := false
  side : Side := .destination

namespace EdgeView

variable {α : Type u} {κ : Type v}

def fromSources (view : EdgeView α κ) : EdgeView α κ := { view with side := .source }

variable [DecidableEq κ]

def selects (view : EdgeView α κ) (edge : Edge α κ) : Bool :=
  decide (edge.kind = view.kind) != view.negate

def items (view : EdgeView α κ) : List α :=
  (view.edges.filter view.selects).map (·.endpoint view.side)

def step (view : EdgeView α κ) : List (Edge α κ) → Option (α × List (Edge α κ))
  | [] => none
  | edge :: rest =>
    if view.selects edge then some (edge.endpoint view.side, rest) else view.step rest

theorem length_lt_of_step {view : EdgeView α κ} {edges rest : List (Edge α κ)} {item : α}
    (stepped : view.step edges = some (item, rest)) : rest.length < edges.length := by
  induction edges with
  | nil => cases stepped
  | cons edge others ih =>
    unfold step at stepped
    split at stepped
    · cases stepped
      simp
    · exact Nat.lt_succ_of_lt (ih stepped)

structure Pass (view : EdgeView α κ) where
  ahead : List (Edge α κ)

def start (view : EdgeView α κ) : view.Pass := ⟨view.edges⟩

namespace Pass

/-- The next item and the pass after it; a pass at its end stays there. -/
def next {view : EdgeView α κ} (pass : view.Pass) : Option α × view.Pass :=
  match view.step pass.ahead with
  | some (item, rest) => (some item, ⟨rest⟩)
  | none => (none, ⟨[]⟩)

def drain {view : EdgeView α κ} (pass : view.Pass) : List α :=
  match _ : view.step pass.ahead with
  | some (item, rest) => item :: drain (⟨rest⟩ : view.Pass)
  | none => []
termination_by pass.ahead.length
decreasing_by exact length_lt_of_step (by assumption)

end Pass

end EdgeView

end ClosureIR
