import ClosureIR.Proofs.Clone.Result
import ClosureIR.Proofs.Identity
import ClosureIR.Proofs.Lexical.Ends
import ClosureIR.Proofs.Lexical.Resolve

/-!
# The block of a method

A closure looks for the block of its method along a walk of the depth that it
has recorded.  When this walk gets up to the method, the block is declared there
once and all closures share it.  New closures have recorded enough depth; a
clone has recorded the depth of its source and may lie deeper.
-/

namespace ClosureIR

open BuildM

namespace Program

variable {p q : Program} {id flat : ScopeId} {s t : Scope} {depth : Nat} {walk : List ScopeId}

/-! ## Walks up to the method -/

theorem depthUnder_pos {n : Nat} (deep : p.depthUnder id = .ok n) : 1 ≤ n := by
  fun_induction p.depthUnder id generalizing n with
  | case1 | case2 | case3 => cases deep
  | case4 id s found closed parent older lies depth above ih =>
    cases deep
    have here := ih above
    split <;> omega
  | case5 =>
    cases deep
    exact Nat.le_refl _

/-- The depth under a scope depends on kinds and parents alone. -/
theorem Outlines.depthUnder {n : Nat} (outlines : p.Outlines q) (deep : p.depthUnder id = .ok n) :
    q.depthUnder id = .ok n := by
  fun_induction p.depthUnder id generalizing n with
  | case1 | case2 | case3 => cases deep
  | case4 id s found closed parent older lies depth above ih =>
    cases deep
    obtain ⟨u, there, kind, same⟩ := outlines id s (scope_eq_ok_iff.1 found)
    have closed' : u.isClosure = true := by rwa [Scope.isClosure, kind]
    have lies' := same.trans (Scope.enclosing_eq_ok_iff.1 lies)
    rw [depthUnder_of_closure there closed' lies' older (ih above), Scope.isForLoopBody, kind]
    rfl
  | case5 id s found flat =>
    cases deep
    obtain ⟨u, there, kind, -⟩ := outlines id s (scope_eq_ok_iff.1 found)
    refine depthUnder_of_flat there ?_
    rw [Scope.isClosure, kind]
    simpa [Scope.isClosure] using flat

/-- A walk gets up to the method or script when it has a unit of depth for every step that costs one. -/
theorem WellFormed.getLast?_of_depthUnder {n : Nat} (formed : p.WellFormed)
    (walks : p.Walks id depth walk) (deep : p.depthUnder id = .ok n) (enough : n ≤ depth + 1)
    (nearest : p.nearestFlat id = .ok flat) : walk.getLast? = some flat := by
  -- Above a closure the depth is one less, or the same when the closure is a loop body.
  have above {id : ScopeId} {s : Scope} {n : Nat} (found : p.scope? id = some s)
      (closed : s.isClosure = true) (deep : p.depthUnder id = .ok n) :
      ∃ parent m, s.parent = some parent ∧ parent.index < id.index ∧ p.depthUnder parent = .ok m ∧
        n = if s.kind = .forLoopBody then m else m + 1 := by
    obtain ⟨parent, lies, older⟩ := (formed id s found).exists_parent closed
    obtain ⟨around, there⟩ := exists_scope? (Nat.lt_trans older (lt_size_of_scope? found))
    obtain ⟨m, rest⟩ := formed.exists_depthUnder there
    refine ⟨parent, m, lies, older, rest, ?_⟩
    cases (depthUnder_of_closure found closed lies older rest).symm.trans deep
    simp [Scope.isForLoopBody]
  induction walks generalizing n with
  | @stop id s depth found ends =>
    cases closed : s.isClosure with
    | false =>
      cases (nearestFlat_of_flat found closed).symm.trans nearest
      rfl
    | true =>
      obtain ⟨parent, m, -, -, rest, rfl⟩ := above found closed deep
      have positive := depthUnder_pos rest
      rw [if_neg (ScopeKind.ne_forLoopBody_of_climb? ends)] at enough
      have spent := ScopeKind.eq_zero_of_climb? closed ends
      omega
  | @climb id parent s depth left above' found climbs lies rest ih =>
    have closed : s.isClosure = true := ScopeKind.isClosure_of_climb? climbs
    obtain ⟨parent', m, lies', older, deeper, rfl⟩ := above found closed deep
    cases lies.symm.trans lies'
    rw [nearestFlat_of_closure found closed lies older] at nearest
    obtain ⟨others, rfl⟩ := rest.exists_cons
    refine ih deeper ?_ nearest
    rw [ScopeKind.depth_of_climb? climbs] at enough
    split at enough <;> omega

/-! ## Recorded depths -/

/-- A walk of the depth that a closure has recorded gets up to its method or script. -/
def Covered (p : Program) (id : ScopeId) : Prop :=
  ∃ s data n, p.scope? id = some s ∧ s.closure = some data ∧ p.depthUnder id = .ok n ∧
    n ≤ data.nestingDepth + 1

/-- What is recorded stays recorded. -/
theorem Continues.exists_nestingDepth {data : ClosureData} (continues : p.Continues q)
    (found : p.scope? id = some s) (closed : s.closure = some data) :
    ∃ t data', q.scope? id = some t ∧ t.closure = some data' ∧
      data'.nestingDepth = data.nestingDepth := by
  obtain ⟨t, there, same⟩ := continues id s found
  have depths := Scope.closure_map_eq_of_core (f := (·.nestingDepth)) (fun _ => rfl) same
  rw [closed, Option.map_some, Option.map_eq_some_iff] at depths
  obtain ⟨data', closed', kept⟩ := depths
  exact ⟨t, data', there, closed', kept⟩

theorem Covered.continues (covered : p.Covered id) (continues : p.Continues q) : q.Covered id := by
  obtain ⟨s, data, n, found, closed, deep, enough⟩ := covered
  obtain ⟨t, data', there, closed', kept⟩ := continues.exists_nestingDepth found closed
  exact ⟨t, data', n, there, closed', continues.outlines.depthUnder deep, kept ▸ enough⟩

/-- A new closure that has recorded the depth under its parent has recorded enough. -/
theorem covered_push {parent : ScopeId} {data : ClosureData} (isClosure : s.isClosure = true)
    (lies : s.parent = some parent) (closed : s.closure = some data)
    (inside : parent.index < p.scopes.size) (deep : p.depthUnder parent = .ok data.nestingDepth) :
    (p.push s).Covered p.nextId := by
  have there := scope?_push_nextId p s
  have above := (outlines_push p s).depthUnder deep
  refine ⟨s, data, _, there, closed, depthUnder_of_closure there isClosure lies inside above, ?_⟩
  split <;> omega

theorem covered_newClosure (parent : ScopeId) (forLoop : Bool) (line : Nat)
    (static : Option StaticScope) (signature : BlockSignature) (p : Program) :
    (newClosure parent forLoop line static signature).Yields p (fun c q => q.Covered c)
      fun _ _ => True := by
  refine yields_ask_bind.2 ⟨fun around found => ?_, fun _ _ => trivial⟩
  refine yields_bind.2 (yields_ask_bind.2 ⟨fun flat _ => ?_, fun _ _ => trivial⟩)
  refine yields_mint (fun outer number after _ _ => ?_) (fun _ _ _ => trivial) fun _ => trivial
  refine yields_ask_bind.2 ⟨fun depth deep => ?_, fun _ _ => trivial⟩
  rw [yields_bind, yields_get, yields_addScope]
  have inside := lt_size_of_scope? (scope_eq_ok_iff.1 found)
  refine covered_push ?_ rfl rfl (by rwa [size_replace]) deep
  cases forLoop <;> rfl

theorem covered_newEvalUnit (parent : ScopeId) (fileName : String) (line : Nat)
    (static : Option StaticScope) (stem : String) (p : Program) :
    (newEvalUnit parent fileName line static stem).Yields p (fun c q => q.Covered c)
      fun _ _ => True := by
  refine yields_bind.2 (yields_ask_bind.2 ⟨fun flat nearest => ?_, fun _ _ => trivial⟩)
  refine yields_mint (fun outer number after _ _ => ?_) (fun _ _ _ => trivial) fun _ => trivial
  refine yields_ask_bind.2 ⟨fun depth deep => ?_, fun _ _ => trivial⟩
  rw [yields_addScope]
  have inside := inside_of_nearestFlat nearest
  exact covered_push rfl rfl rfl (by rwa [size_replace]) deep

/-- A clone has recorded enough as long as its parent lies no deeper than its source says. -/
theorem covered_clone_iff (reachable : p.Reachable) {r : Renaming} {source c : ScopeId}
    (run : (cloneUnder r source).runOn p = (.ok c, q)) {data : ClosureData} {n : Nat}
    (found : p.scope? source = some s) (closed : s.closure = some data)
    (deep : p.depthUnder r.host = .ok n) :
    q.Covered c ↔ (if s.kind = .forLoopBody then n else n + 1) ≤ data.nestingDepth + 1 := by
  have formed := reachable.wellFormed
  obtain ⟨flat, nearest, cloning, -, cloned⟩ := formed.cloned run
  have hosts := formed.hosts nearest
  have grown := cloning.grown hosts
  have formed' := (cloning.hosts hosts).formed
  cases cloned with
  | @intro _ _ _ _ u d m sub found' made newer copyable owners cloned nested =>
    have kept := grown.keeps_closure hosts found ((formed _ _ found).isClosure_of_closure closed)
    cases kept.symm.trans found'
    obtain ⟨g, g', e, e', -, closed', made', same⟩ := cloned.body
    cases closed.symm.trans closed'
    have isClosure : d.isClosure = true := by
      rw [Scope.isClosure, cloned.kind]
      exact copyable.closure
    have lies := cloned.parent
    have above := depthUnder_of_closure made isClosure lies ((formed' _ _ made).older lies)
      (grown.outlines.depthUnder deep)
    simp only [Scope.isForLoopBody, cloned.kind, decide_eq_true_eq] at above
    constructor
    · rintro ⟨d', data', k, made'', closed'', deep', enough⟩
      cases made.symm.trans made''
      cases made'.symm.trans closed''
      cases above.symm.trans deep'
      rwa [same.nestingDepth] at enough
    · intro enough
      exact ⟨d, e', _, made, made', above, by rwa [same.nestingDepth]⟩

/-! ## Asking for the block -/

/-- The closure `id` lies under the method `m` and looks for its block along `walk`, which ends there. -/
structure Looks (p : Program) (m id : ScopeId) (depth : Nat) (walk : List ScopeId) : Prop where
  found : ∃ s data, p.scope? id = some s ∧ s.closure = some data ∧ data.nestingDepth = depth
  nearest : p.nearestFlat id = .ok m
  walks : p.Walks id depth walk
  last : walk.getLast? = some m

theorem Covered.exists_looks (covered : p.Covered id) (formed : p.WellFormed) {m : ScopeId}
    (nearest : p.nearestFlat id = .ok m) : ∃ depth walk, p.Looks m id depth walk := by
  obtain ⟨s, data, n, found, closed, deep, enough⟩ := covered
  obtain ⟨walk, walks⟩ := formed.exists_walks found data.nestingDepth
  exact ⟨_, walk, ⟨s, data, found, closed, rfl⟩, nearest, walks,
    formed.getLast?_of_depthUnder walks deep enough nearest⟩

/-- A method was not inlined, and its walks stay where they are. -/
theorem WellFormed.of_method (formed : p.WellFormed) {m : ScopeId} (there : p.scope? m = some t)
    (method : t.kind = .method) : t.isInlined = false ∧ p.Walks m 0 [m] := by
  constructor
  · have none := (formed m t there).closure
    rw [Scope.isClosure, method, ScopeKind.isClosure, Option.isSome_eq_false_iff,
      Option.isNone_iff_eq_none] at none
    simp [Scope.isInlined, none]
  · exact .stop there (by rw [method]; rfl)

/-- A closure takes the first binding on its walk; what declares the block runs only without one. -/
theorem yields_implicitBlock_of_walks (formed : p.WellFormed) (found : p.scope? id = some s)
    {data : ClosureData} (closed : s.closure = some data) (walks : p.Walks id data.nestingDepth walk)
    (nearest : p.nearestFlat id = .ok flat) (there : p.scope? flat = some t)
    {Good : LocalVar → Program → Prop} {Bad : Fault → Program → Prop}
    (old : ∀ u, walk.findSome? (p.binding? blockName) = some u →
      Good (u.atDepth data.nestingDepth) p)
    (new : walk.findSome? (p.binding? blockName) = none →
      (if t.kind = .method then do
        let v ← newLocal flat blockName 0
        return v.atDepth data.nestingDepth
      else newLocal id blockName 0 : BuildM LocalVar).Yields p Good Bad) :
    (implicitBlock id).Yields p Good Bad := by
  refine yields_bind.2 ((yields_requireClosure found).mono ?_ ?_)
  rotate_left
  · rintro fault _ ⟨-, bare, -⟩
    cases closed.symm.trans bare
  intro data' _ ⟨same, closed'⟩
  cases closed.symm.trans closed'
  rw [same]
  refine yields_ask_of_ok (formed.findLocal_eq walks blockName) ?_
  cases bound : walk.findSome? (p.binding? blockName) with
  | some u => exact old u bound
  | none => exact yields_ask_of_ok nearest (yields_ask_of_ok (scope_eq_ok_iff.2 there) (new bound))

/-- A closure takes the first binding on its walk, or the method declares the block. -/
theorem yields_implicitBlock (formed : p.WellFormed) {m : ScopeId} (there : p.scope? m = some t)
    (method : t.kind = .method) (looks : p.Looks m id depth walk) :
    (implicitBlock id).Yields p
      (fun v q => ∃ u, p.Answers walk m blockName u q ∧ v = u.atDepth depth)
      fun fault _ => walk.findSome? (p.binding? blockName) = none ∧ p.FullAt m ∧
        fault = .misused .wordOverflow := by
  obtain ⟨⟨s, data, found, closed, rfl⟩, nearest, walks, last⟩ := looks
  refine yields_implicitBlock_of_walks formed found closed walks nearest there
    (fun u bound => ⟨u, .inl ⟨bound, rfl⟩, rfl⟩) fun unbound => ?_
  obtain ⟨live, stays⟩ := formed.of_method there method
  rw [if_pos method]
  refine yields_bind.2 ((yields_newLocal formed there stays rfl blockName).mono ?_ ?_)
  · exact fun u q declares => ⟨u, .inr ⟨unbound, declares⟩, rfl⟩
  · rintro fault _ (⟨dead, -⟩ | ⟨full, rfl⟩)
    · rw [live] at dead
      cases dead
    · exact ⟨unbound, full, rfl⟩

theorem Answers.continues {u : LocalVar} {m : ScopeId} {name : String}
    (answers : p.Answers walk m name u q) : p.Continues q := by
  obtain ⟨-, rfl⟩ | ⟨-, declares⟩ := answers
  · exact .refl Scope.lasting_core q
  · intro x t found
    obtain ⟨table, there⟩ := declares.exists_table found
    exact ⟨_, there, rfl⟩

theorem Answers.wellFormed {u : LocalVar} {m : ScopeId} {name : String}
    (answers : p.Answers walk m name u q) (formed : p.WellFormed) : q.WellFormed := by
  obtain ⟨-, rfl⟩ | ⟨-, declares⟩ := answers
  · exact formed
  · exact declares.wellFormed formed

theorem Looks.continues {m : ScopeId} (looks : p.Looks m id depth walk) (continues : p.Continues q) :
    q.Looks m id depth walk := by
  obtain ⟨⟨s, data, found, closed, same⟩, nearest, walks, last⟩ := looks
  obtain ⟨t, data', there, closed', kept⟩ := continues.exists_nestingDepth found closed
  exact ⟨⟨t, data', there, closed', kept.trans same⟩, continues.outlines.nearestFlat nearest,
    walks.outlined continues.outlines, last⟩

def Unshadowed (p : Program) (walk : List ScopeId) : Prop :=
  ∀ x ∈ walk.dropLast, p.binding? blockName x = none

/-- Without a nearer binding the answer is the binding that the method has from then on. -/
theorem Answers.binding?_method {m : ScopeId} {u : LocalVar}
    (answers : p.Answers walk m blockName u q) (last : walk.getLast? = some m)
    (near : p.Unshadowed walk) : q.binding? blockName m = some u := by
  obtain ⟨bound, rfl⟩ | ⟨-, declares⟩ := answers
  · obtain ⟨below, rfl⟩ := List.getLast?_eq_some_iff.1 last
    rw [Unshadowed, List.dropLast_concat] at near
    rw [List.findSome?_append, List.findSome?_eq_none_iff.2 near] at bound
    simpa using bound
  · rw [declares.binding?_eq, if_pos rfl]

/-- It is then the answer for every closure under the method that has no nearer binding. -/
theorem Answers.runOn_implicitBlock {u : LocalVar} {m id' : ScopeId} {depth' : Nat}
    {walk' : List ScopeId} (answers : p.Answers walk m blockName u q) (last : walk.getLast? = some m)
    (near : p.Unshadowed walk) (formed : p.WellFormed) (there : p.scope? m = some t)
    (method : t.kind = .method) (looks : p.Looks m id' depth' walk') (near' : p.Unshadowed walk') :
    (implicitBlock id').runOn q = (.ok (u.atDepth depth'), q) := by
  have here := answers.binding?_method last near
  -- Below the method there is still no binding of the block.
  have found : walk'.findSome? (q.binding? blockName) = some u := by
    refine findSome?_eq_of_forall (List.mem_of_getLast? looks.last) here fun x member => ?_
    by_cases same : x = m
    · exact .inr (same ▸ here)
    · left
      have below : x ∈ walk'.dropLast := by
        obtain ⟨below, rfl⟩ := List.getLast?_eq_some_iff.1 looks.last
        simpa [same] using member
      obtain ⟨-, rfl⟩ | ⟨-, declares⟩ := answers
      · exact near' x below
      · rw [declares.binding?_eq, if_neg same]
        exact near' x below
  obtain ⟨t', there', core⟩ := answers.continues m t there
  have method' := (Scope.kind_eq_of_core core).trans method
  apply Yields.runOn_eq
  apply (yields_implicitBlock (answers.wellFormed formed) there' method'
    (looks.continues answers.continues)).mono
  · rintro v r ⟨w, ⟨bound, rfl⟩ | ⟨unbound, -⟩, rfl⟩
    · cases found.symm.trans bound
      exact ⟨rfl, rfl⟩
    · cases found.symm.trans unbound
  · rintro fault r ⟨unbound, -⟩
    cases found.symm.trans unbound

/--
A closure that has recorded enough gets the first binding on the way to its
method, or the method's new one; all others that see no nearer binding share it.
-/
theorem WellFormed.exists_looks_implicitBlock (formed : p.WellFormed) {m : ScopeId}
    (there : p.scope? m = some t) (method : t.kind = .method) (nearest : p.nearestFlat id = .ok m)
    (covered : p.Covered id) :
    ∃ depth walk, p.Looks m id depth walk ∧
      (implicitBlock id).Yields p
        (fun v q => ∃ u, p.Answers walk m blockName u q ∧ v = u.atDepth depth ∧
          (p.Unshadowed walk → q.binding? blockName m = some u ∧
            ∀ id' depth' walk', p.Looks m id' depth' walk' → p.Unshadowed walk' →
              (implicitBlock id').runOn q = (.ok (u.atDepth depth'), q)))
        fun fault _ => walk.findSome? (p.binding? blockName) = none ∧ p.FullAt m ∧
          fault = .misused .wordOverflow := by
  obtain ⟨depth, walk, looks⟩ := covered.exists_looks formed nearest
  refine ⟨depth, walk, looks,
    (yields_implicitBlock formed there method looks).mono ?_ fun _ _ full => full⟩
  rintro v q ⟨u, answers, rfl⟩
  refine ⟨u, answers, rfl, fun near => ⟨answers.binding?_method looks.last near, ?_⟩⟩
  intro id' depth' walk' looks' near'
  exact answers.runOn_implicitBlock looks.last near formed there method looks' near'

/--
The block of a method is declared once.  A closure whose recorded depth gets up
to the method takes the first binding on its walk; only where there is none the
method declares the block, and then it is the same for all closures that have no
nearer binding.  New closures have recorded enough depth and keep it, and so have
clones that lie no deeper than their source says.
-/
theorem implicitBlock_once (reachable : p.Reachable) :
    (∀ m t id, p.scope? m = some t → t.kind = .method → p.nearestFlat id = .ok m → p.Covered id →
      ∃ depth walk, p.Looks m id depth walk ∧
        (implicitBlock id).Yields p
          (fun v q => ∃ u, p.Answers walk m blockName u q ∧ v = u.atDepth depth ∧
            (p.Unshadowed walk → q.binding? blockName m = some u ∧
              ∀ id' depth' walk', p.Looks m id' depth' walk' → p.Unshadowed walk' →
                (implicitBlock id').runOn q = (.ok (u.atDepth depth'), q)))
          fun fault _ => walk.findSome? (p.binding? blockName) = none ∧ p.FullAt m ∧
            fault = .misused .wordOverflow) ∧
      (∀ parent forLoop line static signature,
        (newClosure parent forLoop line static signature).Yields p (fun c q => q.Covered c)
          fun _ _ => True) ∧
      (∀ parent fileName line static stem,
        (newEvalUnit parent fileName line static stem).Yields p (fun c q => q.Covered c)
          fun _ _ => True) ∧
      (∀ {α : Type} (r : Request α) id, p.Covered id → (p.after r.run).Covered id) ∧
      ∀ r source c q s data n, (cloneUnder r source).runOn p = (.ok c, q) →
        p.scope? source = some s → s.closure = some data → p.depthUnder r.host = .ok n →
        (q.Covered c ↔ (if s.kind = .forLoopBody then n else n + 1) ≤ data.nestingDepth + 1) := by
  have formed := reachable.wellFormed
  refine ⟨?_, ?_, ?_, ?_, ?_⟩
  · intro m t id there method nearest covered
    exact formed.exists_looks_implicitBlock there method nearest covered
  · intro parent forLoop line static signature
    exact covered_newClosure parent forLoop line static signature p
  · intro parent fileName line static stem
    exact covered_newEvalUnit parent fileName line static stem p
  · intro α r id covered
    exact covered.continues (formed.continues r)
  · intro r source c q s data n run found closed deep
    exact covered_clone_iff reachable run found closed deep

def closureInClosure : Program :=
  ({} : Program)
    |>.after (newScript "main.rb")
    |>.after (newMethod ⟨0⟩ "m" 1 none)
    |>.after (newClosure ⟨1⟩ false 2 none {})
    |>.after (newClosure ⟨2⟩ false 3 none {})

theorem reachable_closureInClosure : closureInClosure.Reachable :=
  Reachable.start {}
    |>.step (.newScript "main.rb")
    |>.step (.newMethod ⟨0⟩ "m" 1 none)
    |>.step (.newClosure ⟨1⟩ false 2 none {})
    |>.step (.newClosure ⟨2⟩ false 3 none {})

/-- The method, the closure in it and the closure in that. -/
theorem outline_closureInClosure :
    (∃ m, closureInClosure.scope? ⟨1⟩ = some m ∧ m.kind = .method) ∧
      (∃ s, closureInClosure.scope? ⟨2⟩ = some s ∧ s.kind = .closure ∧ s.parent = some ⟨1⟩ ∧
        s.isInlined = false) ∧
      ∃ s, closureInClosure.scope? ⟨3⟩ = some s ∧ s.kind = .closure ∧ s.parent = some ⟨2⟩ ∧
        s.isInlined = false := by
  have shape : (closureInClosure.scope? ⟨1⟩).any (fun s => decide (s.kind = .method)) = true ∧
      (closureInClosure.scope? ⟨2⟩).any (fun s =>
        decide (s.kind = .closure ∧ s.parent = some ⟨1⟩ ∧ s.isInlined = false)) = true ∧
      (closureInClosure.scope? ⟨3⟩).any (fun s =>
        decide (s.kind = .closure ∧ s.parent = some ⟨2⟩ ∧ s.isInlined = false)) = true := by
    decide +kernel
  simpa only [Option.any_eq_true, decide_eq_true_eq] using shape

/-- Nothing is declared in it yet. -/
theorem binding?_closureInClosure (name : String) (x : ScopeId) :
    closureInClosure.binding? name x = none := by
  have bare : closureInClosure.scopes.all (·.locals.isEmpty) = true := by decide +kernel
  cases found : closureInClosure.scope? x with
  | none => rw [binding?, found, Option.bind_none]
  | some s =>
    rw [binding?_of_scope? found]
    have inside := Array.mem_of_getElem? found
    exact LocalTable.get?_of_isEmpty (Array.all_eq_true_iff_forall_mem.1 bare s inside) name

theorem unshadowed_closureInClosure (walk : List ScopeId) : closureInClosure.Unshadowed walk :=
  fun x _ => binding?_closureInClosure blockName x

/-- The inner closure makes the method declare the block; the outer one then gets the same local. -/
theorem block_closureInClosure : ∃ u q depth depth',
    (implicitBlock ⟨3⟩).runOn closureInClosure = (.ok (u.atDepth depth), q) ∧
      q.binding? blockName ⟨1⟩ = some u ∧
      (implicitBlock ⟨2⟩).runOn q = (.ok (u.atDepth depth'), q) := by
  have script := Reachable.start {} |>.step (.newScript "main.rb")
  have method := script.step (.newMethod ⟨0⟩ "m" 1 none)
  have outer := method.step (.newClosure ⟨1⟩ false 2 none {})
  -- Both closures have recorded enough depth when they are new, and the outer one keeps it.
  have covered := ((implicitBlock_once method).2.1 ⟨1⟩ false 2 none {}).of_ok
    (a := ⟨2⟩) (Prod.ext (by decide +kernel) rfl)
  have covered₂ := (implicitBlock_once outer).2.2.2.1 (.newClosure ⟨2⟩ false 3 none {}) ⟨2⟩ covered
  have covered₃ := ((implicitBlock_once outer).2.1 ⟨2⟩ false 3 none {}).of_ok
    (a := ⟨3⟩) (Prod.ext (by decide +kernel) rfl)
  have isMethod : (closureInClosure.scope? ⟨1⟩).any (fun t => decide (t.kind = .method)) = true := by
    decide +kernel
  obtain ⟨t, there, kind⟩ := (Option.any_eq_true _ _).1 isMethod
  have asked := (implicitBlock_once reachable_closureInClosure).1 ⟨1⟩ t
  obtain ⟨depth, walk, -, answer⟩ :=
    asked ⟨3⟩ there (of_decide_eq_true kind) (by decide +kernel) covered₃
  obtain ⟨depth', walk', looks, -⟩ :=
    asked ⟨2⟩ there (of_decide_eq_true kind) (by decide +kernel) covered₂
  cases run : (implicitBlock ⟨3⟩).runOn closureInClosure with
  | mk outcome q =>
    cases outcome with
    | error fault =>
      have fine : ((implicitBlock ⟨3⟩).runOn closureInClosure).1.isOk = true := by decide +kernel
      rw [run] at fine
      cases fine
    | ok v =>
      obtain ⟨u, -, rfl, shared⟩ := answer.of_ok run
      obtain ⟨bound, again⟩ := shared (unshadowed_closureInClosure walk)
      exact ⟨u, q, depth, depth', rfl, bound,
        again ⟨2⟩ depth' walk' looks (unshadowed_closureInClosure walk')⟩

/-- A clone of a closure of the method, two closures further in, after the block was declared. -/
def deepClone : Program :=
  closureInClosure
    |>.after (newClosure ⟨1⟩ false 4 none {})
    |>.after (buildGraph ⟨4⟩)
    |>.after (implicitBlock ⟨2⟩)
    |>.after (cloneClosure ⟨4⟩ ⟨3⟩)

theorem reachable_deepClone : deepClone.Reachable :=
  reachable_closureInClosure
    |>.step (.newClosure ⟨1⟩ false 4 none {})
    |>.step (.buildGraph ⟨4⟩)
    |>.step (.implicitBlock ⟨2⟩)
    |>.step (.cloneClosure ⟨4⟩ ⟨3⟩)

/-- The clone does not find the block that the method has, and the method declares another. -/
theorem not_forall_implicitBlock_once :
    ¬ ∀ (p : Program) (id m : ScopeId) (s t : Scope), p.Reachable → p.scope? id = some s →
      s.isClosure = true → s.isInlined = false → p.nearestFlat id = .ok m → p.scope? m = some t →
      t.kind = .method → (p.binding? blockName m).isSome = true →
        (p.after (implicitBlock id)).binding? blockName m = p.binding? blockName m := by
  intro always
  have closure : (deepClone.scope? ⟨5⟩).any (fun s => s.isClosure && !s.isInlined) = true := by
    decide +kernel
  have method : (deepClone.scope? ⟨1⟩).any (fun t => decide (t.kind = .method)) = true := by
    decide +kernel
  obtain ⟨s, found, live⟩ := (Option.any_eq_true _ _).1 closure
  obtain ⟨t, there, method⟩ := (Option.any_eq_true _ _).1 method
  rw [Bool.and_eq_true, Bool.not_eq_true'] at live
  have same := always deepClone ⟨5⟩ ⟨1⟩ s t reachable_deepClone found live.1 live.2
    (by decide +kernel) there (of_decide_eq_true method) (by decide +kernel)
  exact absurd same (by decide +kernel)

end Program

end ClosureIR
