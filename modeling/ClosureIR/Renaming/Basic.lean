import ClosureIR.Data.Dict
import ClosureIR.Fault

/-!
# Renamings

A renaming says what the parts of a closure are called in its copy.  Labels
and temporaries belong to one scope and are renamed one by one; locals move
with the scope that declared them.
-/

namespace ClosureIR

structure Renaming where
  /-- The scope that new labels and temporaries come from, and the parent of copied closures. -/
  host : ScopeId
  scopes : Dict ScopeId ScopeId := ∅
  vars : Dict Variable Variable := ∅
  labels : Dict Label Label := ∅
  deriving DecidableEq

namespace Renaming

/-- Nothing is renamed; copied closures lie in `parent`. -/
def under (parent : ScopeId) : Renaming := { host := parent }

/--
The renaming inside the copy `clone` of `source`.  Scopes that are being
copied stay renamed; labels and temporaries of the scope around do not.
-/
def derive (r : Renaming) (source clone : ScopeId) : Renaming where
  host := clone
  scopes := r.scopes.insert source clone

def withLabel (r : Renaming) (l renamed : Label) : Renaming :=
  { r with labels := r.labels.insert l renamed }

def withVariable (r : Renaming) (v renamed : Variable) : Renaming :=
  { r with vars := r.vars.insert v renamed }

def scope? (r : Renaming) (id : ScopeId) : Option ScopeId := r.scopes.get? id

def label? (r : Renaming) (l : Label) : Option Label := r.labels.get? l

def renameLabel (r : Renaming) (l : Label) : Except Misuse Label :=
  match r.label? l with
  | some renamed => .ok renamed
  | none => .error (.labelNotPrepared l)

/-- The same local in the copy of the scope that declared it, or itself where there is none. -/
def renameLocal (r : Renaming) (v : LocalVar) : LocalVar :=
  match r.scope? v.owner with
  | some owner => { v with owner }
  | none => v

/--
The copy of a variable.  What was said of it explicitly holds first; otherwise
a local moves with its scope, and a temporary must have been prepared.
-/
def renameVariable (r : Renaming) (v : Variable) : Except Misuse Variable :=
  match r.vars.get? v with
  | some renamed => .ok renamed
  | none =>
    match v with
    | .ofLocal l => .ok (.ofLocal (r.renameLocal l))
    | .ofTemp t => .error (.temporaryNotPrepared t)

@[simp] theorem derive_host (r : Renaming) (source clone : ScopeId) :
    (r.derive source clone).host = clone := rfl

@[simp] theorem derive_label? (r : Renaming) (source clone : ScopeId) (l : Label) :
    (r.derive source clone).label? l = none := rfl

theorem derive_scope? (r : Renaming) (source clone id : ScopeId) :
    (r.derive source clone).scope? id = if id = source then some clone else r.scope? id :=
  Dict.get?_insert r.scopes source id clone

theorem renameLabel_eq_ok_iff {r : Renaming} {l renamed : Label} :
    r.renameLabel l = .ok renamed ↔ r.label? l = some renamed := by
  unfold renameLabel
  split <;> simp_all

end Renaming

end ClosureIR
