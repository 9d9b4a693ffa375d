import ClosureIR.Frame
import ClosureIR.Proofs.Clone.Naming
import Mathlib.Data.Set.Insert

/-!
# Variables that are in use, and their cells

A session asks a program for variables, writes instructions with the variables
that it has got, and clones closures.  All locals that it comes to know have
the names of their slots, and so two of them share a cell of a frame just when
they are views of one binding.
-/

namespace ClosureIR

open BuildM

/-! ## Handing out locals -/

namespace Program

variable {p q : Program} {id : ScopeId} {name : String} {depth : Nat} {v w : LocalVar} {N : Naming}

def Views (p : Program) (v : LocalVar) : Prop :=
  ∃ name id u, p.binding? name id = some u ∧ v.SameBinding u

theorem views_of_binding? (bound : p.binding? name id = some v) : p.Views v :=
  ⟨name, id, v, bound, rfl, rfl, rfl⟩

theorem Views.atDepth (views : p.Views v) (depth : Nat) : p.Views (v.atDepth depth) := views

/-- Such a local has the name of its slot. -/
theorem Named.has (named : p.Named N) (views : p.Views v) : N.Has v := by
  obtain ⟨name, id, u, bound, owner, slot, same⟩ := views
  obtain ⟨s, found, here⟩ := Option.bind_eq_some_iff.1 bound
  have has := ((named.scopes id s found).table name u here).2
  rw [Naming.Has, owner, slot, same]
  exact has

theorem WellFormed.views_of_findLocal (formed : p.WellFormed)
    (found : p.findLocal id name depth = .ok (some v)) : p.Views v := by
  cases there : p.scope? id with
  | none =>
    rw [findLocal, scope_eq_error_iff.2 ⟨there, rfl⟩] at found
    cases found
  | some s =>
    obtain ⟨walk, walks⟩ := formed.exists_walks there depth
    rw [formed.findLocal_eq walks name, Except.ok.injEq] at found
    obtain ⟨x, -, bound⟩ := List.exists_of_findSome?_eq_some found
    exact views_of_binding? bound

abbrev HandsViews (op : BuildM LocalVar) (p : Program) : Prop :=
  op.Yields p (fun v q => q.Views v) fun _ _ => True

theorem handsViews_newLocal (id : ScopeId) (name : String) (depth : Nat) (p : Program) :
    HandsViews (newLocal id name depth) p := by
  refine yields_ask_bind.2 ⟨fun s _ => yields_ask_bind.2 ⟨?_, fun _ _ => trivial⟩, fun _ _ => trivial⟩
  rintro ⟨site, kind⟩ walk
  obtain ⟨t, found, -⟩ := declares?_of_declarationSite walk
  refine yields_declare site found (fun table stored => ?_) fun _ => trivial
  obtain ⟨slot, -, rfl⟩ := Option.map_eq_some_iff.1 stored
  refine ⟨name, site, _, ?_, rfl, rfl, rfl⟩
  rw [binding?_of_scope? (scope?_replace_self found _)]
  exact LocalTable.get?_store_self t.locals ⟨name, 0, t.locals.nextSlot, site, kind⟩

theorem WellFormed.handsViews_findOrDeclare (formed : p.WellFormed) (id : ScopeId) (name : String)
    (depth : Nat) : HandsViews (findOrDeclare id name depth) p := by
  refine yields_ask_bind.2 ⟨fun bound known => ?_, fun _ _ => trivial⟩
  cases bound with
  | some v => exact formed.views_of_findLocal known
  | none => exact handsViews_newLocal id name depth p

theorem WellFormed.handsViews_getLocal (formed : p.WellFormed) (id : ScopeId) (name : String)
    (depth : Nat) : HandsViews (getLocal id name depth) p := by
  refine yields_ask_bind.2 ⟨fun site _ => yields_ask_bind.2 ⟨fun s _ => ?_, fun _ _ => trivial⟩,
    fun _ _ => trivial⟩
  have found := formed.handsViews_findOrDeclare site name depth
  refine yields_bind.2 (found.mono (fun v q views => ?_) fun _ _ _ => trivial)
  split
  · exact views.atDepth depth
  · exact views

theorem handsViews_newFlip (id : ScopeId) (p : Program) : HandsViews (newFlip id) p := by
  refine yields_ask_bind.2 ⟨fun s _ => ?_, fun _ _ => trivial⟩
  split
  · refine yields_bind.2 (yields_mint (fun _ name _ _ _ => ?_) (fun _ _ _ => trivial) fun _ => trivial)
    exact handsViews_newLocal id name 0 _
  · trivial

theorem WellFormed.handsViews_implicitBlock (formed : p.WellFormed) (id : ScopeId) :
    HandsViews (implicitBlock id) p := by
  refine yields_bind.2 (yields_ask_bind.2 ⟨fun s _ => ?_, fun _ _ => trivial⟩)
  cases s.closure with
  | none => trivial
  | some data =>
    refine yields_ask_bind.2 ⟨fun bound known => ?_, fun _ _ => trivial⟩
    cases bound with
    | some v => exact (formed.views_of_findLocal known).atDepth _
    | none =>
      refine yields_ask_bind.2 ⟨fun flat _ => yields_ask_bind.2 ⟨fun t _ => ?_, fun _ _ => trivial⟩,
        fun _ _ => trivial⟩
      split
      · have declared := handsViews_newLocal flat blockName 0 p
        exact yields_bind.2 (declared.mono (fun _ _ views => views.atDepth _) fun _ _ _ => trivial)
      · exact handsViews_newLocal id blockName 0 p

end Program

namespace Request

open Program

variable {α : Type} {p : Program}

/-- Locals that are handed out are views of bindings. -/
theorem yields_views (r : Request α) (formed : p.WellFormed) :
    r.run.Yields p (fun a q => ∀ v, .ofLocal v ∈ r.given a → q.Views v) fun _ _ => True := by
  have one {op : BuildM LocalVar} (hands : HandsViews op p) :
      op.Yields p (fun v q => ∀ w, .ofLocal w ∈ [Variable.ofLocal v] → q.Views w)
        fun _ _ => True := by
    refine hands.mono (fun v q views w member => ?_) fun _ _ _ => trivial
    cases List.mem_singleton.1 member
    exact views
  have none {op : BuildM α} (bare : ∀ a v, .ofLocal v ∉ r.given a) :
      op.Yields p (fun a q => ∀ v, .ofLocal v ∈ r.given a → q.Views v) fun _ _ => True := by
    unfold Yields
    split
    · exact fun v member => absurd member (bare _ v)
    · trivial
  cases r with
  | newLocal id name depth => exact one (handsViews_newLocal id name depth p)
  | getLocal id name depth => exact one (formed.handsViews_getLocal id name depth)
  | newFlip id => exact one (handsViews_newFlip id p)
  | implicitBlock id => exact one (formed.handsViews_implicitBlock id)
  | _ => exact none (by simp [given])

def handed (r : Request α) (p : Program) : Set Variable :=
  {v | ∃ a q, r.run.runOn p = (.ok a, q) ∧ v ∈ r.given a}

theorem mem_handed {r : Request LocalVar} {v : LocalVar} (run : (r.run.runOn p).1 = .ok v)
    (given : r.given v = [.ofLocal v]) : .ofLocal v ∈ r.handed p :=
  ⟨v, _, Prod.ext run rfl, given ▸ List.mem_singleton_self _⟩

def appended : Request α → List Instr
  | addInstr _ i => [i]
  | _ => []

theorem mem_appended_of_may {x : ScopeId} {i : Instr} (r : Request α) (may : r.may p x (.append i)) :
    i ∈ r.appended := by
  cases r <;> simp_all [Request.may, appended, Renaming.prepares]

end Request

/-! ## Sessions -/

namespace Naming

variable {N N' : Naming} {known known' : Set Variable} {v : LocalVar}

def Knows (N : Naming) (known : Set Variable) : Prop := ∀ v, .ofLocal v ∈ known → N.Has v

theorem Knows.mono (knows : N.Knows known) (le : N.Le N') : N'.Knows known :=
  fun v member => (knows v member).mono le

theorem Knows.union (knows : N.Knows known) (knows' : N.Knows known') : N.Knows (known ∪ known') :=
  fun v member => member.elim (knows v) (knows' v)

theorem Knows.insert_local (knows : N.Knows known) (has : N.Has v) :
    N.Knows (insert (.ofLocal v) known) := by
  rintro w (same | member)
  · cases same
    exact has
  · exact knows w member

theorem Knows.insert_temp (knows : N.Knows known) (t : Temporary) :
    N.Knows (insert (.ofTemp t) known) := by
  rintro w (same | member)
  · cases same
  · exact knows w member

end Naming

namespace Program

/-- The variables in the instructions and in the tables of the scopes that are new in `q`. -/
def placed (p q : Program) : Set Variable :=
  {v | ∃ id s, p.scope? id = none ∧ q.scope? id = some s ∧
    ((∃ i ∈ s.instrs, v ∈ i.vars) ∨ ∃ name u, s.locals.get? name = some u ∧ v = .ofLocal u)}

theorem Named.knows_placed {p q : Program} {N : Naming} (named : q.Named N) :
    N.Knows (p.placed q) := by
  rintro v ⟨id, s, -, found, ⟨i, member, mentions⟩ | ⟨name, u, bound, same⟩⟩
  · exact (named.scopes id s found).code i v (.inl member) mentions
  · cases same
    exact ((named.scopes id s found).table name v bound).2

end Program

open Program

/--
A run that has come to a program, and the variables known from it.  Instructions
are written with known variables, and closures are cloned into parents.  Known are
the variables that were handed out or found, all views of known locals, and what
clones have in their instructions and tables.  It is no matter where
temporaries come from.
-/
inductive Session : Program → Set Variable → Prop where
  | start (options : Options) : Session { options } ∅
  | request {α : Type} {p : Program} {known : Set Variable} (before : Session p known)
      (r : Request α) (makes : r.cloneHost? = none)
      (uses : ∀ i ∈ r.appended, ∀ v ∈ i.vars, v ∈ known) :
      Session (p.after r.run) (known ∪ r.handed p)
  | clone {p : Program} {known : Set Variable} (before : Session p known) (source parent : ScopeId) :
      Session (p.after (cloneClosure source parent))
        (known ∪ p.placed (p.after (cloneClosure source parent)))
  | look {p : Program} {known : Set Variable} (before : Session p known) {id : ScopeId}
      {name : String} {depth : Nat} {v : LocalVar}
      (found : p.findLocal id name depth = .ok (some v)) : Session p (insert (.ofLocal v) known)
  | view {p : Program} {known : Set Variable} (before : Session p known) {v : LocalVar}
      (given : .ofLocal v ∈ known) (depth : Nat) :
      Session p (insert (.ofLocal (v.atDepth depth)) known)
  | temporary {p : Program} {known : Set Variable} (before : Session p known) (t : Temporary) :
      Session p (insert (.ofTemp t) known)

namespace Session

variable {p : Program} {known : Set Variable}

theorem reachable (session : Session p known) : p.Reachable := by
  induction session with
  | start options => exact .start options
  | request _ r _ _ ih => exact ih.step r
  | clone _ source parent ih => exact ih.step (.cloneClosure source parent)
  | look _ _ ih | view _ _ _ ih | temporary _ _ ih => exact ih

/-- There is a naming that all known locals agree with. -/
theorem exists_naming (session : Session p known) (room : p.Room) :
    ∃ N : Naming, p.Named N ∧ N.Knows known := by
  induction session with
  | start options => exact ⟨_, .start options, fun v never => never.elim⟩
  | @request α p known before r makes uses ih =>
    have formed := before.reachable.wellFormed
    obtain ⟨N, named, knows⟩ := ih (room.earlier (formed.tracks Scope.lasting_slots r))
    obtain ⟨N', le, named'⟩ := named.changes (r.changes makes p).after room
      fun x i may v mentions => knows v (uses i (r.mem_appended_of_may may) _ mentions)
    refine ⟨N', named', (knows.mono le).union ?_⟩
    rintro v ⟨a, q, run, given⟩
    have views := (r.yields_views formed).of_ok run v given
    rw [run] at named'
    exact named'.has views
  | @clone p known before source parent ih =>
    have formed := before.reachable.wellFormed
    obtain ⟨N, named, knows⟩ :=
      ih (room.earlier (formed.tracks Scope.lasting_slots (.cloneClosure source parent)))
    obtain ⟨N', keeps, named'⟩ := formed.exists_naming_cloneClosure source parent named
    exact ⟨N', named', (knows.mono (keeps.le named)).union named'.knows_placed⟩
  | look before found ih =>
    obtain ⟨N, named, knows⟩ := ih room
    have views := before.reachable.wellFormed.views_of_findLocal found
    exact ⟨N, named, knows.insert_local (named.has views)⟩
  | view before given depth ih =>
    obtain ⟨N, named, knows⟩ := ih room
    have has := knows _ given
    exact ⟨N, named, knows.insert_local has⟩
  | temporary before t ih =>
    obtain ⟨N, named, knows⟩ := ih room
    exact ⟨N, named, knows.insert_temp t⟩

end Session

namespace Variable

def Same : Variable → Variable → Prop
  | .ofLocal v, .ofLocal w => v.SameBinding w
  | .ofTemp t, .ofTemp u => t = u
  | _, _ => False

instance : (v w : Variable) → Decidable (v.Same w)
  | .ofLocal v, .ofLocal w => inferInstanceAs (Decidable (v.SameBinding w))
  | .ofTemp t, .ofTemp u => inferInstanceAs (Decidable (t = u))
  | .ofLocal _, .ofTemp _ | .ofTemp _, .ofLocal _ => inferInstanceAs (Decidable False)

theorem owner_eq_of_cell {v w : Variable} (same : v.cell = w.cell) : v.owner = w.owner := by
  cases v <;> cases w
  case ofLocal.ofLocal => exact (Cell.ofLocal.inj same).1
  case ofTemp.ofTemp => exact congrArg Temporary.owner (Cell.ofTemp.inj same)
  all_goals cases same

end Variable

/-- Where locals have the names of their slots, only views of one variable share a cell. -/
theorem Naming.cell_eq_iff {N : Naming} {v w : Variable} (has : ∀ u, v = .ofLocal u → N.Has u)
    (has' : ∀ u, w = .ofLocal u → N.Has u) : v.cell = w.cell ↔ v.Same w := by
  cases v with
  | ofLocal v =>
    cases w with
    | ofTemp t => simp [Variable.cell, Variable.Same]
    | ofLocal w =>
      rw [Variable.cell, Variable.cell, Cell.ofLocal.injEq]
      constructor
      · rintro ⟨owner, slot⟩
        exact (has v rfl).sameBinding (has' w rfl) owner slot
      · rintro ⟨owner, slot, -⟩
        exact ⟨owner, slot⟩
  | ofTemp t => cases w <;> simp [Variable.cell, Variable.Same]

namespace Session

variable {p : Program} {known : Set Variable} {v w : Variable}

/--
In a session without a full table, known variables share a cell of a frame just
when they are the same temporary or views of one local: giving one of them a
value changes no other variable.  Variables of two scopes never share a cell,
and so those of a clone are apart from those of its source.
-/
theorem lookup_bind_of_known (session : Session p known) (room : p.Room) (given : v ∈ known)
    (given' : w ∈ known) :
    (∀ (f : Frame) value,
      (f.bind v value).lookup w = if v.Same w then some value else f.lookup w) ∧
    (v.owner ≠ w.owner → ∀ (f : Frame) value, (f.bind v value).lookup w = f.lookup w) ∧
    ∀ parent owner source clone, p.IsClone parent owner source clone → v.owner = source →
      w.owner = clone → v.cell ≠ w.cell := by
  obtain ⟨N, -, knows⟩ := session.exists_naming room
  have cells : v.cell = w.cell ↔ v.Same w :=
    Naming.cell_eq_iff (fun u same => knows u (same ▸ given)) fun u same => knows u (same ▸ given')
  refine ⟨fun f value => ?_, fun apart f value => ?_, ?_⟩
  · rw [f.lookup_bind v w value]
    exact if_congr (eq_comm.trans cells) rfl rfl
  · rw [f.lookup_bind v w value, if_neg]
    exact fun same => apart (Variable.owner_eq_of_cell same.symm)
  · rintro parent owner source clone ⟨-, -, newer, -, -, -, -⟩ rfl rfl same
    rw [Variable.owner_eq_of_cell same] at newer
    exact Nat.lt_irrefl _ newer

end Session

def declaredOnce : Program :=
  ({} : Program)
    |>.after (newScript "main.rb")
    |>.after (newClosure ⟨0⟩ false 1 none {})
    |>.after (newLocal ⟨1⟩ "x" 0)

def declaredTwice : Program :=
  declaredOnce
    |>.after (addInstr ⟨1⟩ (.copy (.ofLocal ⟨"x", 0, 0, ⟨1⟩, .closure⟩) .nil))
    |>.after (newLocal ⟨1⟩ "x" 0)
    |>.after (buildGraph ⟨1⟩)
    |>.after (cloneClosure ⟨1⟩ ⟨0⟩)

theorem session_declaredOnce : ∃ known, Session declaredOnce known ∧
    .ofLocal ⟨"x", 0, 0, ⟨1⟩, .closure⟩ ∈ known := by
  have closure := Session.start {}
    |>.request (.newScript "main.rb") rfl (by simp [Request.appended])
    |>.request (.newClosure ⟨0⟩ false 1 none {}) rfl (by simp [Request.appended])
  refine ⟨_, closure.request (.newLocal ⟨1⟩ "x" 0) rfl (by simp [Request.appended]), .inr ?_⟩
  exact Request.mem_handed (by decide +kernel) rfl

/-- The two locals of one name, and the one that the clone of the closure writes. -/
theorem session_declaredTwice : ∃ known, Session declaredTwice known ∧
    .ofLocal ⟨"x", 0, 0, ⟨1⟩, .closure⟩ ∈ known ∧ .ofLocal ⟨"x", 0, 1, ⟨1⟩, .closure⟩ ∈ known ∧
    .ofLocal ⟨"x", 0, 0, ⟨2⟩, .closure⟩ ∈ known := by
  obtain ⟨known, session, first⟩ := session_declaredOnce
  have written := session.request
    (.addInstr ⟨1⟩ (.copy (.ofLocal ⟨"x", 0, 0, ⟨1⟩, .closure⟩) .nil)) rfl (by
      simpa [Request.appended, Instr.vars, Instr.result?, Instr.operands, Operand.vars,
        Operand.visited, Operand.var?] using first)
  have again := written.request (.newLocal ⟨1⟩ "x" 0) rfl (by simp [Request.appended])
  have cloned := (again.request (.buildGraph ⟨1⟩) rfl (by simp [Request.appended])).clone ⟨1⟩ ⟨0⟩
  refine ⟨_, cloned, .inl (.inl (.inl (.inl first))), .inl (.inl (.inr ?_)), .inr ?_⟩
  · exact Request.mem_handed (by decide +kernel) rfl
  · have copied : (declaredTwice.scope? ⟨2⟩).any (fun s =>
        decide (s.instrs = [.copy (.ofLocal ⟨"x", 0, 0, ⟨2⟩, .closure⟩) .nil])) = true := by
      decide +kernel
    obtain ⟨s, found, instrs⟩ := (Option.any_eq_true _ _).1 copied
    have member : .copy (.ofLocal ⟨"x", 0, 0, ⟨2⟩, .closure⟩) .nil ∈ s.instrs := by
      rw [of_decide_eq_true instrs]
      exact List.mem_singleton_self _
    exact ⟨⟨2⟩, s, by decide +kernel, found, .inl ⟨_, member, List.mem_cons_self⟩⟩

theorem room_declaredTwice : declaredTwice.Room := by
  rintro id ⟨s, found, full⟩
  have small : declaredTwice.scopes.all (fun s => decide (s.locals.nextSlot + 1 < Counter.bound)) =
      true := by
    decide +kernel
  have here := Array.all_eq_true_iff_forall_mem.1 small s (Array.mem_of_getElem? found)
  exact absurd (of_decide_eq_true here) (Nat.not_lt.2 full)

/-- A value given to the first local is seen by its views, not by its namesake and not in the clone. -/
theorem lookup_bind_declaredTwice : declaredTwice.Room ∧ ∀ (f : Frame) value,
    let bound := f.bind (.ofLocal ⟨"x", 0, 0, ⟨1⟩, .closure⟩) value
    bound.lookup (.ofLocal ⟨"x", 3, 0, ⟨1⟩, .closure⟩) = some value ∧
      bound.lookup (.ofLocal ⟨"x", 0, 1, ⟨1⟩, .closure⟩) =
        f.lookup (.ofLocal ⟨"x", 0, 1, ⟨1⟩, .closure⟩) ∧
      bound.lookup (.ofLocal ⟨"x", 0, 0, ⟨2⟩, .closure⟩) =
        f.lookup (.ofLocal ⟨"x", 0, 0, ⟨2⟩, .closure⟩) := by
  obtain ⟨known, session, first, second, inClone⟩ := session_declaredTwice
  have viewed := session.view first 3
  refine ⟨room_declaredTwice, fun f value => ⟨?_, ?_, ?_⟩⟩
  · have same := (viewed.lookup_bind_of_known room_declaredTwice (.inr first) (.inl rfl)).1 f value
    rwa [if_pos ⟨rfl, rfl, rfl⟩] at same
  · have same := (session.lookup_bind_of_known room_declaredTwice first second).1 f value
    rwa [if_neg (by decide)] at same
  · exact (session.lookup_bind_of_known room_declaredTwice first inClone).2.1 (by decide) f value

end ClosureIR
