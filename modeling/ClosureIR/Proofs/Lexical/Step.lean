import ClosureIR.Proofs.Outcome

/-!
# One step of a walk

Looking a local up and finding the place to declare it go up in the same steps.
The kind of a scope and the units of depth that are left say whether a walk
goes on from there.
-/

namespace ClosureIR

namespace ScopeKind

/-- The units of depth left after a step up from a scope of this kind, unless a walk ends there. -/
def climb? : ScopeKind → Nat → Option Nat
  | .script, _ | .method, _ => none
  | .forLoopBody, depth => some depth
  | .closure, 0 | .evalUnit, 0 => none
  | .closure, depth + 1 | .evalUnit, depth + 1 => some depth

/-- The kind of the locals that a scope of this kind declares; a loop body declares none. -/
def declares? : ScopeKind → Option LocalKind
  | .script | .method => some .plain
  | .closure | .evalUnit => some .closure
  | .forLoopBody => none

variable {kind : ScopeKind} {depth left : Nat}

theorem isClosure_of_climb? (climbs : kind.climb? depth = some left) : kind.isClosure = true := by
  cases kind <;> first | rfl | cases climbs

/-- A walk never ends at a loop body. -/
theorem ne_forLoopBody_of_climb? (ends : kind.climb? depth = none) : kind ≠ .forLoopBody := by
  rintro rfl
  cases ends

/-- A walk ends at a closure only when no depth is left. -/
theorem eq_zero_of_climb? (closed : kind.isClosure = true) (ends : kind.climb? depth = none) :
    depth = 0 := by
  cases kind <;> cases depth <;> simp_all [climb?, isClosure]

/-- What a step up costs. -/
theorem depth_of_climb? (climbs : kind.climb? depth = some left) :
    depth = if kind = .forLoopBody then left else left + 1 := by
  cases kind <;> cases depth <;> cases climbs <;> rfl

/-- Where a walk ends a local can be declared. -/
theorem exists_declares? (ends : kind.climb? depth = none) : ∃ k, kind.declares? = some k := by
  cases kind with
  | forLoopBody => cases ends
  | _ => exact ⟨_, rfl⟩

end ScopeKind

namespace Scope

theorem enclosing_of_parent {s : Scope} {id parent : ScopeId} (lies : s.parent = some parent)
    (older : parent.index < id.index) : s.enclosing id = .ok ⟨parent, older⟩ :=
  enclosing_eq_ok_iff.2 lies

end Scope

namespace Program

variable {p : Program} {id parent : ScopeId} {s : Scope} {name : String} {depth left : Nat}

/-! ## Looking a local up -/

theorem findLocal_of_bound {v : LocalVar} (found : p.scope? id = some s)
    (bound : s.locals.get? name = some v) : p.findLocal id name depth = .ok (some v) := by
  rw [findLocal]
  simp only [scope_eq_ok_iff.2 found, bound]

theorem findLocal_of_end (found : p.scope? id = some s) (unbound : s.locals.get? name = none)
    (ends : s.kind.climb? depth = none) : p.findLocal id name depth = .ok none := by
  rw [findLocal]
  simp only [scope_eq_ok_iff.2 found, unbound]
  cases kind : s.kind <;> cases depth <;> rw [kind] at ends <;> first | rfl | cases ends

theorem findLocal_of_climb (found : p.scope? id = some s) (unbound : s.locals.get? name = none)
    (climbs : s.kind.climb? depth = some left) (lies : s.parent = some parent)
    (older : parent.index < id.index) :
    p.findLocal id name depth = p.findLocal parent name left := by
  rw [findLocal]
  simp only [scope_eq_ok_iff.2 found, unbound, Scope.enclosing_of_parent lies older]
  cases kind : s.kind <;> cases depth <;> rw [kind] at climbs <;> cases climbs <;> rfl

/-! ## Finding the place to declare a local -/

theorem declarationSite_of_end {k : LocalKind} (found : p.scope? id = some s)
    (ends : s.kind.climb? depth = none) (declares : s.kind.declares? = some k) :
    p.declarationSite id depth = .ok (id, k) := by
  rw [declarationSite]
  simp only [scope_eq_ok_iff.2 found]
  cases kind : s.kind <;> cases depth <;> rw [kind] at ends declares <;> cases ends <;>
    cases declares <;> rfl

theorem declarationSite_of_climb (found : p.scope? id = some s)
    (climbs : s.kind.climb? depth = some left) (lies : s.parent = some parent)
    (older : parent.index < id.index) :
    p.declarationSite id depth = p.declarationSite parent left := by
  rw [declarationSite]
  simp only [scope_eq_ok_iff.2 found, Scope.enclosing_of_parent lies older]
  cases kind : s.kind <;> cases depth <;> rw [kind] at climbs <;> cases climbs <;> rfl

/-- A local is declared where locals of its kind may be. -/
theorem declares?_of_declarationSite {site : ScopeId} {k : LocalKind}
    (walk : p.declarationSite id depth = .ok (site, k)) :
    ∃ s, p.scope? site = some s ∧ s.kind.declares? = some k := by
  have ended {id : ScopeId} {s : Scope} {kind : ScopeKind} (found : p.scope id = .ok s)
      (same : s.kind = kind) :
      ∃ s, p.scope? id = some s ∧ s.kind.declares? = kind.declares? :=
    ⟨s, scope_eq_ok_iff.1 found, by rw [same]⟩
  fun_induction p.declarationSite id depth with
  | case1 | case4 | case8 | case10 => cases walk
  | case2 id depth s found kind | case3 id depth s found kind | case6 id s found kind
  | case7 id s found kind =>
    cases walk
    exact ended found kind
  | case5 id s found depth kind parent older lies ih
  | case9 id s found depth kind parent older lies ih
  | case11 id s found depth kind parent older lies ih => exact ih walk

/-! ## Past the loop bodies -/

theorem lookupSite_of_inlined (found : p.scope? id = some s) (dead : s.isInlined = true) :
    p.lookupSite id = .error (.inlined s.name) := by
  rw [lookupSite, liveScope_of_scope? found, if_pos dead]

theorem lookupSite_of_host (found : p.scope? id = some s) (live : s.isInlined = false)
    (other : s.kind ≠ .forLoopBody) : p.lookupSite id = .ok id := by
  rw [lookupSite, liveScope_eq_ok_iff.2 ⟨found, live⟩]
  simp [Scope.isForLoopBody, other]

theorem lookupSite_of_loop (found : p.scope? id = some s) (live : s.isInlined = false)
    (loop : s.kind = .forLoopBody) (lies : s.parent = some parent)
    (older : parent.index < id.index) : p.lookupSite id = p.lookupSite parent := by
  rw [lookupSite, liveScope_eq_ok_iff.2 ⟨found, live⟩]
  simp [Scope.isForLoopBody, loop, Scope.enclosing_of_parent lies older]

end Program

end ClosureIR
