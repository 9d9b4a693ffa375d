import ClosureIR.Proofs.Clone.Depth
import ClosureIR.Proofs.Lexical.Tables

/-!
# Clones look names up as their sources do

Where the closures that a scope holds also lie in it, the tree that is cloned
is a part of the lexical nesting.  A look-up that stays in this part finds in a
clone what it finds in the source, declared by the clone of the scope that
declared it.
-/

namespace ClosureIR

open BuildM

namespace Program

/--
In the trees below a source and its clone the two scopes stand at the same
place: they are the roots, or held at one position by two such scopes.
-/
inductive Partners (q : Program) (source clone : ScopeId) : ScopeId → ScopeId → Prop where
  | root : Partners q source clone source clone
  | held {h h' x x' : ScopeId} {i : Nat} (above : Partners q source clone h h')
      (here : (q.held h)[i]? = some x) (there : (q.held h')[i]? = some x') :
      Partners q source clone x x'

/-- The closures in the tree below a scope lie in the scopes that hold them. -/
def NestsLexically (p : Program) (source : ScopeId) : Prop :=
  ∀ h x, p.Reaches source h → p.Holds h x → ∃ t, p.scope? x = some t ∧ t.parent = some h

variable {p q : Program} {source clone parent flat : ScopeId} {owner : ScopeId → ScopeId}

/-! ## The tree of the source -/

/-- A scope in the tree of a source was made no earlier than the source. -/
theorem NestsLexically.index_le (nests : p.NestsLexically source) (formed : p.WellFormed) {n : ScopeId}
    (reaches : p.Reaches source n) : source.index ≤ n.index := by
  induction reaches with
  | refl => exact Nat.le_refl _
  | tail before last ih =>
    obtain ⟨t, found, lies⟩ := nests _ _ before last
    exact Nat.le_trans ih (Nat.le_of_lt ((formed _ t found).older lies))

namespace IsClone

/-- What source and clone hold at one position are source and clone again. -/
theorem of_held (cloned : q.IsClone parent owner source clone) {i : Nat} {x x' : ScopeId}
    (here : (q.held source)[i]? = some x) (there : (q.held clone)[i]? = some x') :
    ∃ owner', q.IsClone clone owner' x x' := by
  obtain ⟨owner', each⟩ := cloned.forall₂_held
  obtain ⟨y, same, nested⟩ := exists_left_at_of_forall₂ each there
  cases here.symm.trans same
  exact ⟨owner', nested⟩

/-- What the source holds has a partner at the same position in the clone. -/
theorem exists_held (cloned : q.IsClone parent owner source clone) {x : ScopeId}
    (holds : q.Holds source x) :
    ∃ (i : Nat) (x' : ScopeId), (q.held source)[i]? = some x ∧ (q.held clone)[i]? = some x' := by
  obtain ⟨owner', each⟩ := cloned.forall₂_held
  obtain ⟨i, here⟩ := List.mem_iff_getElem?.1 (mem_held_iff.2 holds)
  have inside := (List.getElem?_eq_some_iff.1 here).1
  rw [each.length_eq] at inside
  exact ⟨i, _, here, List.getElem?_eq_getElem inside⟩

/-- A clone has the kind and the parent that it should have, and the locals of its source. -/
theorem exists_scopes (cloned : q.IsClone parent owner source clone) :
    ∃ s c, q.scope? source = some s ∧ q.scope? clone = some c ∧ c.kind = s.kind ∧
      c.parent = some parent ∧ c.locals = s.locals.reowned clone := by
  cases cloned with
  | @intro _ _ _ _ s c m sub found made newer copyable owners cloned nested =>
    exact ⟨s, c, found, made, cloned.kind, cloned.parent, cloned.locals⟩

end IsClone

namespace Partners

variable {n n' : ScopeId}

theorem exists_isClone (partners : q.Partners source clone n n')
    (cloned : q.IsClone parent owner source clone) : ∃ parent owner, q.IsClone parent owner n n' := by
  induction partners with
  | root => exact ⟨parent, owner, cloned⟩
  | held above here there ih =>
    obtain ⟨_, _, cloned⟩ := ih
    obtain ⟨owner', nested⟩ := cloned.of_held here there
    exact ⟨_, owner', nested⟩

theorem reaches (partners : q.Partners source clone n n') : q.Reaches source n := by
  induction partners with
  | root => exact .refl
  | held above here there ih => exact ih.tail (mem_held_iff.1 (List.mem_of_getElem? here))

end Partners

theorem IsClone.exists_partner (cloned : q.IsClone parent owner source clone) {n : ScopeId}
    (reaches : q.Reaches source n) : ∃ n', q.Partners source clone n n' := by
  induction reaches with
  | refl => exact ⟨clone, .root⟩
  | tail before last ih =>
    obtain ⟨h', partners⟩ := ih
    obtain ⟨_, _, above⟩ := partners.exists_isClone cloned
    obtain ⟨i, x', here, there⟩ := above.exists_held last
    exact ⟨x', partners.held here there⟩

/-! ## Walks side by side -/

theorem Partners.binding?_eq {n n' : ScopeId} (partners : q.Partners source clone n n')
    (cloned : q.IsClone parent owner source clone) (name : String) :
    q.binding? name n' = (q.binding? name n).map fun v => { v with owner := n' } := by
  obtain ⟨_, _, here⟩ := partners.exists_isClone cloned
  obtain ⟨s, c, found, made, -, -, locals⟩ := here.exists_scopes
  rw [binding?_of_scope? made, binding?_of_scope? found, locals, LocalTable.get?_reowned]

/-- Walks from scopes of one kind end together or go up together. -/
theorem Walks.together {n n' : ScopeId} {s c : Scope} {depth : Nat} {walk walk' : List ScopeId}
    (found : q.scope? n = some s) (made : q.scope? n' = some c) (kind : c.kind = s.kind)
    (walks : q.Walks n depth walk) (walks' : q.Walks n' depth walk') :
    (walk = [n] ∧ walk' = [n']) ∨ ∃ left above above' rest rest',
      s.parent = some above ∧ c.parent = some above' ∧ walk = n :: rest ∧ walk' = n' :: rest' ∧
      q.Walks above left rest ∧ q.Walks above' left rest' := by
  cases walks with
  | stop here ends =>
    cases found.symm.trans here
    cases walks' with
    | stop => exact .inl ⟨rfl, rfl⟩
    | climb there climbs =>
      cases made.symm.trans there
      cases ends.symm.trans (kind ▸ climbs)
  | climb here climbs lies rest =>
    cases found.symm.trans here
    cases walks' with
    | stop there ends =>
      cases made.symm.trans there
      cases climbs.symm.trans (kind ▸ ends)
    | climb there climbs' lies' rest' =>
      cases made.symm.trans there
      cases climbs.symm.trans (kind ▸ climbs')
      exact .inr ⟨_, _, _, _, _, lies, lies', rfl, rfl, rest, rest'⟩

/--
The walks from two partners go over partners, up to the roots at most.  If the
first walk ends there or before, so does the second.
-/
theorem Partners.walks {n n' : ScopeId} {depth : Nat} {walk walk' : List ScopeId}
    (partners : q.Partners source clone n n') (formed : q.WellFormed)
    (nests : q.NestsLexically source) (cloned : q.IsClone parent owner source clone)
    (walks : q.Walks n depth walk) (walks' : q.Walks n' depth walk') :
    ∃ inner inner' outer outer', walk = inner ++ outer ∧ walk' = inner' ++ outer' ∧
      List.Forall₂ (q.Partners source clone) inner inner' ∧ (∀ x ∈ inner', q.Reaches x n') ∧
      (∀ x ∈ outer, x.index < source.index) ∧ (outer = [] → outer' = []) := by
  induction partners generalizing depth walk walk' with
  | root =>
    have ends : ∀ x ∈ [clone], q.Reaches x clone := by
      intro x member
      cases List.mem_singleton.1 member
      exact .refl
    obtain ⟨s, c, found, made, kind, -, -⟩ := cloned.exists_scopes
    obtain ⟨rfl, rfl⟩ | ⟨left, above, above', rest, rest', lies, -, rfl, rfl, up, -⟩ :=
      walks.together found made kind walks'
    · exact ⟨[source], [clone], [], [], rfl, rfl, .cons .root .nil, ends, by simp, fun _ => rfl⟩
    · refine ⟨[source], [clone], rest, rest', rfl, rfl, .cons .root .nil, ends, fun x member => ?_, ?_⟩
      · exact Nat.lt_of_le_of_lt (formed.index_le_of_mem up member) ((formed _ s found).older lies)
      · obtain ⟨others, rfl⟩ := up.exists_cons
        intro never
        cases never
  | @held h h' x x' i above here there ih =>
    have partners := above.held here there
    have holds := mem_held_iff.1 (List.mem_of_getElem? here)
    have holds' := mem_held_iff.1 (List.mem_of_getElem? there)
    obtain ⟨_, _, outside⟩ := above.exists_isClone cloned
    obtain ⟨_, inside⟩ := outside.of_held here there
    obtain ⟨s, c, found, made, kind, lies', -⟩ := inside.exists_scopes
    obtain ⟨rfl, rfl⟩ | ⟨left, up, up', rest, rest', lies, into, rfl, rfl, before, before'⟩ :=
      walks.together found made kind walks'
    · refine ⟨[x], [x'], [], [], rfl, rfl, .cons partners .nil, fun y member => ?_, by simp, fun _ => rfl⟩
      cases List.mem_singleton.1 member
      exact .refl
    · obtain ⟨t, there', lies''⟩ := nests h x above.reaches holds
      cases found.symm.trans there'
      cases lies.symm.trans lies''
      cases into.symm.trans lies'
      obtain ⟨inner, inner', outer, outer', rfl, rfl, each, reached, older, ends⟩ := ih before before'
      refine ⟨x :: inner, x' :: inner', outer, outer', rfl, rfl, .cons partners each, ?_, older, ends⟩
      intro y member
      rcases List.mem_cons.1 member with rfl | later
      · exact .refl
      · exact (reached y later).tail holds'

/-- What is found in the tree of the source is found in the tree of the clone, and nothing else is. -/
theorem Partners.findLocal {n n' : ScopeId} (partners : q.Partners source clone n n')
    (reachable : q.Reachable) (nests : q.NestsLexically source)
    (cloned : q.IsClone parent owner source clone) (name : String) (depth : Nat) :
    (∀ v, q.findLocal n name depth = .ok (some v) → q.Reaches source v.owner →
      ∃ o, q.Partners source clone v.owner o ∧ q.Reaches o n' ∧
        q.findLocal n' name depth = .ok (some { v with owner := o })) ∧
    ∀ walk site, q.findLocal n name depth = .ok none → q.Walks n depth walk →
      walk.getLast? = some site → q.Reaches source site →
      q.findLocal n' name depth = .ok none := by
  have formed := reachable.wellFormed
  obtain ⟨_, _, here⟩ := partners.exists_isClone cloned
  obtain ⟨s, c, found, made, -, -, -⟩ := here.exists_scopes
  obtain ⟨walk, walks⟩ := formed.exists_walks found depth
  obtain ⟨walk', walks'⟩ := formed.exists_walks made depth
  rw [formed.findLocal_eq walks, formed.findLocal_eq walks']
  obtain ⟨inner, inner', outer, outer', rfl, rfl, each, reached, older, ends⟩ :=
    partners.walks formed nests cloned walks walks'
  have inTree {x : ScopeId} (reaches : q.Reaches source x) : x ∉ outer := by
    intro member
    exact absurd (nests.index_le formed reaches) (Nat.not_le.2 (older x member))
  have answers := findSome?_of_forall₂ (f := q.binding? name) (g := q.binding? name)
    (h := fun o v => { v with owner := o }) each fun _ _ partners => partners.binding?_eq cloned name
  rw [List.findSome?_append, List.findSome?_append]
  constructor
  · intro v bound reaches
    have bound := Except.ok.inj bound
    cases first : inner.findSome? (q.binding? name) with
    | none =>
      -- A binding beyond the roots belongs to a scope that is older than the tree.
      rw [first, Option.none_or] at bound
      obtain ⟨x, member, given⟩ := List.exists_of_findSome?_eq_some bound
      obtain ⟨-, -, rfl⟩ := reachable.of_binding? given
      exact absurd member (inTree reaches)
    | some u =>
      rw [first, Option.some_or] at bound
      cases bound
      obtain ⟨x, o, partners, -, inside, given, answered⟩ := answers.2 v first
      obtain ⟨-, -, rfl⟩ := reachable.of_binding? given
      exact ⟨o, partners, reached o inside, by rw [answered, Option.some_or]⟩
  · intro walk site unbound walks'' last reaches
    cases walks''.unique walks
    have unbound := Option.or_eq_none_iff.1 (Except.ok.inj unbound)
    have none : outer = [] := by
      by_contra some
      rw [List.getLast?_append_of_ne_nil _ some] at last
      exact inTree reaches (List.mem_of_getLast? last)
    rw [answers.1 unbound.1, ends none]
    rfl

/-! ## Right after a clone -/

/-- Cloning changes nothing in the tree of the source. -/
theorem NestsLexically.grown (nests : p.NestsLexically source) (grown : p.Grown flat q)
    (inside : source.index < p.scopes.size) :
    q.NestsLexically source ∧ ∀ n, q.Reaches source n ↔ p.Reaches source n := by
  have before {n : ScopeId} (reaches : q.Reaches source n) :
      p.Reaches source n ∧ n.index < p.scopes.size := by
    induction reaches with
    | refl => exact ⟨.refl, inside⟩
    | tail _ last ih =>
      obtain ⟨reaches, old⟩ := ih
      have holds := (grown.holds_iff old _).1 last
      obtain ⟨t, found, -⟩ := nests _ _ reaches holds
      exact ⟨reaches.tail holds, lt_size_of_scope? found⟩
  constructor
  · intro h x reaches holds
    obtain ⟨reaches, old⟩ := before reaches
    obtain ⟨t, found, lies⟩ := nests h x reaches ((grown.holds_iff old x).1 holds)
    refine ⟨_, grown.old x t found, ?_⟩
    split <;> exact lies
  · exact fun n => ⟨fun reaches => (before reaches).1, fun reaches => grown.reaches reaches⟩

/--
A clone of closures that lie where they are held looks names up as its source
does, as long as the look-up in the source stays in what was cloned.
-/
theorem findLocal_of_cloneUnder (reachable : p.Reachable) {r : Renaming}
    (run : (cloneUnder r source).runOn p = (.ok clone, q)) (nests : p.NestsLexically source) :
    (∀ n, p.Reaches source n → ∃ n', q.Partners source clone n n') ∧
    ∀ n n' name depth, q.Partners source clone n n' →
      (∀ v, q.findLocal n name depth = .ok (some v) → p.Reaches source v.owner →
        ∃ o, q.Partners source clone v.owner o ∧ q.Reaches o n' ∧
          q.findLocal n' name depth = .ok (some { v with owner := o })) ∧
      ∀ walk site, q.findLocal n name depth = .ok none → q.Walks n depth walk →
        walk.getLast? = some site → p.Reaches source site →
        q.findLocal n' name depth = .ok none := by
  obtain ⟨flat, nearest, step, place, cloned⟩ := reachable.wellFormed.cloned run
  have hosts := reachable.wellFormed.hosts nearest
  have reachable' : q.Reachable := reachable.of_runOn (.cloneUnder r source) run
  have inside : source.index < p.scopes.size := by
    cases cloned with
    | intro found made newer copyable owners cloned nested =>
      rwa [place] at newer
  obtain ⟨nests', same⟩ := nests.grown (step.grown hosts) inside
  constructor
  · intro n reaches
    exact cloned.exists_partner ((same n).2 reaches)
  · intro n n' name depth partners
    obtain ⟨bound, unbound⟩ := partners.findLocal reachable' nests' cloned name depth
    refine ⟨fun v given reaches => bound v given ((same _).2 reaches), ?_⟩
    exact fun walk site none walks last reaches => unbound walk site none walks last ((same _).2 reaches)

/-- In the clone of a closure the loop body finds the local of the clone. -/
theorem findLocal_loopInClosure :
    ∃ o, (loopInClosure.after (cloneUnder (.under ⟨0⟩) ⟨1⟩)).Partners ⟨1⟩ ⟨3⟩ ⟨1⟩ o ∧
      (loopInClosure.after (cloneUnder (.under ⟨0⟩) ⟨1⟩)).Reaches o ⟨4⟩ ∧
      (loopInClosure.after (cloneUnder (.under ⟨0⟩) ⟨1⟩)).findLocal ⟨4⟩ "x" 0 =
        .ok (some ⟨"x", 0, 0, o, .closure⟩) := by
  have run : (cloneUnder (.under ⟨0⟩) ⟨1⟩).runOn loopInClosure =
      (.ok ⟨3⟩, loopInClosure.after (cloneUnder (.under ⟨0⟩) ⟨1⟩)) :=
    Prod.ext (by decide +kernel) rfl
  have lies : ∀ i < 3, ∀ x ∈ loopInClosure.held ⟨i⟩,
      (loopInClosure.scope? x).any (fun t => decide (t.parent = some ⟨i⟩)) = true := by
    decide +kernel
  have size : loopInClosure.scopes.size = 3 := by decide +kernel
  have nests : loopInClosure.NestsLexically ⟨1⟩ := by
    intro h x _ holds
    have ⟨s, _, found, _⟩ := holds
    have few : h.index < 3 := size ▸ lt_size_of_scope? found
    obtain ⟨t, there, known⟩ := (Option.any_eq_true _ _).1 (lies h.index few x (mem_held_iff.2 holds))
    exact ⟨t, there, of_decide_eq_true known⟩
  have partners : (loopInClosure.after (cloneUnder (.under ⟨0⟩) ⟨1⟩)).Partners ⟨1⟩ ⟨3⟩ ⟨2⟩ ⟨4⟩ :=
    .held (i := 0) .root (by decide +kernel) (by decide +kernel)
  exact ((findLocal_of_cloneUnder reachable_loopInClosure run nests).2 ⟨2⟩ ⟨4⟩ "x" 0 partners).1
    ⟨"x", 0, 0, ⟨1⟩, .closure⟩ (by decide +kernel) .refl

end Program

end ClosureIR
