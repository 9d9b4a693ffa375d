import ClosureIR.Data.Counter
import ClosureIR.Data.Dict
import ClosureIR.Fault

/-!
# Tables of locals

The locals that a scope declares itself, by name.  Every declaration takes the
next slot, also one that replaces an earlier declaration of its name.
-/

namespace ClosureIR

structure LocalTable where
  bindings : Dict String LocalVar := ∅
  nextSlot : Nat := 0
  deriving DecidableEq

namespace LocalTable

instance : Inhabited LocalTable := ⟨{}⟩

def get? (t : LocalTable) (name : String) : Option LocalVar := t.bindings.get? name

def size (t : LocalTable) : Nat := t.bindings.size

def isEmpty (t : LocalTable) : Bool := t.bindings.isEmpty

/-- Store a binding under its name; the slot is not yet used up. -/
def store (t : LocalTable) (v : LocalVar) : LocalTable :=
  { t with bindings := t.bindings.insert v.name v }

def advance? (t : LocalTable) : Option LocalTable :=
  (Counter.next? t.nextSlot).map fun slot => { t with nextSlot := slot }

def insert (t : LocalTable) (v : LocalVar) : Except Misuse LocalTable :=
  match (t.store v).advance? with
  | some advanced => .ok advanced
  | none => .error .wordOverflow

def sorted (t : LocalTable) : List LocalVar :=
  t.bindings.values.mergeSort fun a b => decide (a.slot ≤ b.slot)

def reowned (t : LocalTable) (owner : ScopeId) : LocalTable :=
  { t with bindings := t.bindings.mapValues fun v => { v with owner } }

@[simp] theorem get?_store_self (t : LocalTable) (v : LocalVar) :
    (t.store v).get? v.name = some v := by
  simp [get?, store]

theorem get?_store_of_ne (t : LocalTable) (v : LocalVar) {name : String}
    (different : name ≠ v.name) : (t.store v).get? name = t.get? name := by
  simp [get?, store, Dict.get?_insert_of_ne _ _ different]

@[simp] theorem get?_reowned (t : LocalTable) (owner : ScopeId) (name : String) :
    (t.reowned owner).get? name = (t.get? name).map fun v => { v with owner } := by
  simp [get?, reowned]

@[simp] theorem nextSlot_reowned (t : LocalTable) (owner : ScopeId) :
    (t.reowned owner).nextSlot = t.nextSlot := rfl

@[simp] theorem isEmpty_reowned (t : LocalTable) (owner : ScopeId) :
    (t.reowned owner).isEmpty = t.isEmpty := by
  simp [isEmpty, Dict.isEmpty, reowned, Dict.mapValues]

theorem get?_of_isEmpty {t : LocalTable} (empty : t.isEmpty = true) (name : String) :
    t.get? name = none := by
  rw [get?, Dict.get?, List.isEmpty_iff.1 empty]
  rfl

theorem mem_sorted {t : LocalTable} {v : LocalVar} : v ∈ t.sorted ↔ v ∈ t.bindings.values := by
  simp [sorted, List.mem_mergeSort]

end LocalTable

end ClosureIR
