import ClosureIR.Data.Dict
import ClosureIR.Object.Value

/-!
# Modules and objects of a run

Every module has a generation, a 64-bit word that moves on whenever the
structure of the module changes.  Code compiled under an assumption about a
module records the generation that it saw.
-/

namespace ClosureIR

structure Heap where
  generations : Dict Nat UInt64 := ∅
  modules : Nat := 0
  objects : Nat := 0
  deriving DecidableEq

namespace Heap

def newModule (heap : Heap) (name : String) : ModuleRef × Heap :=
  (⟨heap.modules, name⟩, { heap with modules := heap.modules + 1 })

def newObject (heap : Heap) (metaclass : ModuleRef) : ObjectRef × Heap :=
  (⟨heap.objects, metaclass⟩, { heap with objects := heap.objects + 1 })

def generation (heap : Heap) (m : ModuleRef) : UInt64 := heap.generations.getD m.id 0

/-- Invalidate every assumption about a module: its generation moves on, around the word. -/
def bump (heap : Heap) (m : ModuleRef) : Heap :=
  { heap with generations := heap.generations.insert m.id (heap.generation m + 1) }

theorem generation_bump (heap : Heap) (m other : ModuleRef) :
    (heap.bump m).generation other =
      if other.id = m.id then heap.generation m + 1 else heap.generation other := by
  unfold generation bump Dict.getD
  rw [Dict.get?_insert]
  split <;> rfl

@[simp] theorem generation_bump_self (heap : Heap) (m : ModuleRef) :
    (heap.bump m).generation m = heap.generation m + 1 := by
  simp [generation_bump]

end Heap

end ClosureIR
