/-!
# Labelled edges

An edge joins a source to a destination and carries a kind.  Edges are ordered
by source, then destination, then kind.
-/

namespace ClosureIR

universe u v

inductive Side where
  | source
  | destination
  deriving DecidableEq, Repr

structure Edge (α : Type u) (κ : Type v) where
  source : α
  destination : α
  kind : κ
  deriving DecidableEq, Repr

namespace Edge

variable {α : Type u} {κ : Type v}

def endpoint (edge : Edge α κ) : Side → α
  | .source => edge.source
  | .destination => edge.destination

@[simp] theorem endpoint_source (edge : Edge α κ) : edge.endpoint .source = edge.source := rfl

@[simp] theorem endpoint_destination (edge : Edge α κ) :
    edge.endpoint .destination = edge.destination := rfl

instance [Ord α] [Ord κ] : Ord (Edge α κ) where
  compare a b :=
    (compare a.source b.source).then
      ((compare a.destination b.destination).then (compare a.kind b.kind))

end Edge

end ClosureIR
