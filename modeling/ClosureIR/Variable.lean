import ClosureIR.ScopeId

/-!
# Variables

A local is a named binding of one scope, seen from some number of scopes away.
A temporary is made by the compiler and belongs to one scope; no look-up finds it.
-/

namespace ClosureIR

inductive LocalKind where
  | plain
  | closure
  deriving DecidableEq, Repr, Inhabited

/--
A view of a local: `slot` is its place in the table of `owner`, and `depth` is
the distance from the scope that uses the view.  The table itself keeps depth 0.
-/
structure LocalVar where
  name : String
  depth : Nat
  slot : Nat
  owner : ScopeId
  kind : LocalKind
  deriving DecidableEq, Repr, Inhabited

namespace LocalVar

def atDepth (v : LocalVar) (depth : Nat) : LocalVar := { v with depth }

def SameBinding (a b : LocalVar) : Prop := a.owner = b.owner ∧ a.slot = b.slot ∧ a.name = b.name

instance (a b : LocalVar) : Decidable (SameBinding a b) :=
  inferInstanceAs (Decidable (_ ∧ _ ∧ _))

def text (v : LocalVar) : String :=
  v.name ++ "(" ++ toString v.depth ++ ":" ++ toString v.slot ++ ")"

@[simp] theorem atDepth_depth (v : LocalVar) : v.atDepth v.depth = v := rfl

theorem SameBinding.refl (v : LocalVar) : SameBinding v v := ⟨rfl, rfl, rfl⟩

theorem SameBinding.symm {a b : LocalVar} (same : SameBinding a b) : SameBinding b a :=
  ⟨same.1.symm, same.2.1.symm, same.2.2.symm⟩

theorem SameBinding.trans {a b c : LocalVar} (first : SameBinding a b) (second : SameBinding b c) :
    SameBinding a c :=
  ⟨first.1.trans second.1, first.2.1.trans second.2.1, first.2.2.trans second.2.2⟩

theorem sameBinding_atDepth (v : LocalVar) (depth : Nat) : SameBinding (v.atDepth depth) v :=
  ⟨rfl, rfl, rfl⟩

end LocalVar

/-- How a temporary is written: by its scope, by its closure's number, or by a given name. -/
inductive TempTag where
  | scope
  | closure (id : Nat)
  | named (name : String)
  deriving DecidableEq, Repr, Inhabited

structure Temporary where
  owner : ScopeId
  index : Nat
  tag : TempTag
  deriving DecidableEq, Repr, Inhabited

namespace Temporary

def text (t : Temporary) : String :=
  match t.tag with
  | .scope => "%v_" ++ toString t.index
  | .closure id => "%cl_" ++ toString id ++ "_" ++ toString t.index
  | .named name => "%" ++ name ++ "_" ++ toString t.index

end Temporary

inductive Variable where
  | ofLocal (v : LocalVar)
  | ofTemp (t : Temporary)
  deriving DecidableEq, Repr, Inhabited

namespace Variable

def owner : Variable → ScopeId
  | .ofLocal v => v.owner
  | .ofTemp t => t.owner

def text : Variable → String
  | .ofLocal v => v.text
  | .ofTemp t => t.text

end Variable

/-- The local that holds the block passed to the enclosing method. -/
def blockName : String := "%block"

end ClosureIR
