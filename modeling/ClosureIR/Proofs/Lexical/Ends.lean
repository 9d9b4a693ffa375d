import ClosureIR.Proofs.Lexical.Walk

/-!
# Lexical walks end

In a well-formed program every walk from a scope comes to its end: the way to
the method or script around it, the count of scopes on that way, and the walks
on which locals are looked up and declared.
-/

namespace ClosureIR

namespace Program

variable {p : Program} {id : ScopeId} {s : Scope} {name : String}

theorem depthUnder_of_flat (found : p.scope? id = some s) (outer : s.isClosure = false) :
    p.depthUnder id = .ok 1 := by
  rw [depthUnder]
  simp [scope_eq_ok_iff.2 found, outer]

theorem depthUnder_of_closure {parent : ScopeId} {depth : Nat} (found : p.scope? id = some s)
    (closed : s.isClosure = true) (lies : s.parent = some parent) (older : parent.index < id.index)
    (above : p.depthUnder parent = .ok depth) :
    p.depthUnder id = .ok (if s.isForLoopBody then depth else depth + 1) := by
  rw [depthUnder]
  simp only [scope_eq_ok_iff.2 found, closed, if_true, Scope.enclosing_of_parent lies older, above]

namespace WellFormed

variable (formed : p.WellFormed) (found : p.scope? id = some s)

include formed found

theorem exists_depthUnder : ∃ depth, p.depthUnder id = .ok depth := by
  induction h : id.index using Nat.strongRecOn generalizing id s with
  | ind n ih =>
    cases closed : s.isClosure with
    | false => exact ⟨1, depthUnder_of_flat found closed⟩
    | true =>
      obtain ⟨parent, lies, older⟩ := (formed id s found).exists_parent closed
      obtain ⟨t, there⟩ := exists_scope? (Nat.lt_trans older (lt_size_of_scope? found))
      obtain ⟨depth, above⟩ := ih parent.index (h ▸ older) there rfl
      exact ⟨_, depthUnder_of_closure found closed lies older above⟩

theorem exists_findLocal (name : String) (depth : Nat) :
    ∃ bound, p.findLocal id name depth = .ok bound := by
  obtain ⟨walk, walks⟩ := formed.exists_walks found depth
  exact ⟨_, formed.findLocal_eq walks name⟩

theorem exists_declarationSite (depth : Nat) : ∃ site, p.declarationSite id depth = .ok site := by
  obtain ⟨walk, walks⟩ := formed.exists_walks found depth
  obtain ⟨site, t, kind, last, there, declares⟩ := walks.exists_site
  exact ⟨_, formed.declarationSite_eq walks last there declares⟩

/-- The way past loop bodies may stop at an inlined scope. -/
theorem lookupSite_ends : (∃ site, p.lookupSite id = .ok site) ∨
    ∃ name, p.lookupSite id = .error (.inlined name) := by
  induction h : id.index using Nat.strongRecOn generalizing id s with
  | ind n ih =>
    cases live : s.isInlined with
    | true => exact .inr ⟨s.name, lookupSite_of_inlined found live⟩
    | false =>
      by_cases loop : s.kind = .forLoopBody
      · have closed : s.isClosure = true := by
          rw [Scope.isClosure, loop]
          rfl
        obtain ⟨parent, lies, older⟩ := (formed id s found).exists_parent closed
        obtain ⟨t, there⟩ := exists_scope? (Nat.lt_trans older (lt_size_of_scope? found))
        rw [lookupSite_of_loop found live loop lies older]
        exact ih parent.index (h ▸ older) there rfl
      · exact .inl ⟨id, lookupSite_of_host found live loop⟩

end WellFormed

/--
The lexical walks from a scope end.  The one past the loop bodies ends early at
an inlined scope.
-/
structure WalksEnd (p : Program) (id : ScopeId) : Prop where
  nearestFlat : ∃ flat t, p.nearestFlat id = .ok flat ∧ p.scope? flat = some t ∧ t.isClosure = false
  depthUnder : ∃ depth, p.depthUnder id = .ok depth
  findLocal : ∀ name depth, ∃ bound, p.findLocal id name depth = .ok bound
  declarationSite : ∀ depth, ∃ site, p.declarationSite id depth = .ok site
  lookupSite : (∃ site, p.lookupSite id = .ok site) ∨
    ∃ name, p.lookupSite id = .error (.inlined name)

theorem WellFormed.walksEnd (formed : p.WellFormed) (found : p.scope? id = some s) :
    p.WalksEnd id where
  nearestFlat := by
    obtain ⟨flat, nearest⟩ := formed.exists_nearestFlat (lt_size_of_scope? found)
    obtain ⟨t, there, outer⟩ := flat_of_nearestFlat nearest
    exact ⟨flat, t, nearest, there, outer⟩
  depthUnder := formed.exists_depthUnder found
  findLocal := formed.exists_findLocal found
  declarationSite := formed.exists_declarationSite found
  lookupSite := formed.lookupSite_ends found

end Program

end ClosureIR
