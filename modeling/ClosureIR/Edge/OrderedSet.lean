import ClosureIR.Edge.Basic

/-!
# Ordered sets of edges

A set of edges is the list of its members in increasing order, each once.
-/

namespace ClosureIR

universe u v

abbrev EdgeSet (α : Type u) (κ : Type v) := List (Edge α κ)

namespace EdgeSet

variable {α : Type u} {κ : Type v} [Ord α] [Ord κ]

/-- Put an edge in its place; an edge that is there already is not repeated. -/
def insert (edge : Edge α κ) : EdgeSet α κ → EdgeSet α κ
  | [] => [edge]
  | first :: rest =>
    match compare edge first with
    | .lt => edge :: first :: rest
    | .eq => first :: rest
    | .gt => first :: insert edge rest

def ofList (edges : List (Edge α κ)) : EdgeSet α κ :=
  edges.foldl (fun set edge => insert edge set) []

@[simp] theorem insert_nil (edge : Edge α κ) : insert edge [] = [edge] := rfl

theorem mem_of_mem_insert {edge other : Edge α κ} {set : EdgeSet α κ}
    (member : other ∈ insert edge set) : other = edge ∨ other ∈ set := by
  induction set with
  | nil => simpa using member
  | cons first rest ih =>
    unfold insert at member
    split at member
    · simpa using member
    · exact .inr member
    · rcases List.mem_cons.1 member with here | later
      · exact .inr (here ▸ List.mem_cons_self)
      · exact (ih later).imp_right (List.mem_cons_of_mem _)

theorem mem_insert_of_mem {edge other : Edge α κ} {set : EdgeSet α κ}
    (member : other ∈ set) : other ∈ insert edge set := by
  induction set with
  | nil => cases member
  | cons first rest ih =>
    unfold insert
    split
    · exact List.mem_cons_of_mem _ member
    · exact member
    · rcases List.mem_cons.1 member with here | later
      · exact here ▸ List.mem_cons_self
      · exact List.mem_cons_of_mem _ (ih later)

end EdgeSet

end ClosureIR
