import ClosureIR.Proofs.Identity
import ClosureIR.Proofs.Spelling

/-!
# Writes to a program, and what they hand out

Each write to a program hands out the next name of a stem, the next temporary
of a scope, or nothing; a closure that is added comes with its first two names.
Of a row of writes, what was handed out is therefore what its counters have
passed, each number once.
-/

namespace ClosureIR

/-- What a scope numbers: the names with one stem, or its temporaries. -/
inductive Series where
  | names (stem : String)
  | temporaries
  deriving DecidableEq

/-- What a scope has handed out: the name number `n` of a stem, or a temporary. -/
inductive Issue where
  | name (owner : ScopeId) (stem : String) (n : Nat)
  | temp (t : Temporary)
  deriving DecidableEq

def Issue.mark : Issue → ScopeId × Series × Nat
  | .name owner stem n => (owner, .names stem, n)
  | .temp t => (t.owner, .temporaries, t.index)

theorem Issue.mem_marks_iff_name {l : List Issue} {id : ScopeId} {stem : String} {n : Nat} :
    (id, .names stem, n) ∈ l.map Issue.mark ↔ .name id stem n ∈ l := by
  rw [List.mem_map]
  constructor
  · rintro ⟨i, member, mark⟩
    cases i with
    | name owner stem' n' =>
      cases mark
      exact member
    | temp t => cases mark
  · exact fun member => ⟨_, member, rfl⟩

theorem Issue.mem_marks_iff_temp {l : List Issue} {id : ScopeId} {n : Nat} :
    (id, .temporaries, n) ∈ l.map Issue.mark ↔ ∃ tag, .temp ⟨id, n, tag⟩ ∈ l := by
  rw [List.mem_map]
  constructor
  · rintro ⟨i, member, mark⟩
    cases i with
    | name owner stem' n' => cases mark
    | temp t =>
      cases mark
      exact ⟨t.tag, member⟩
  · rintro ⟨tag, member⟩
    exact ⟨_, member, rfl⟩

namespace Scope

def used (s : Scope) : Series → Nat
  | .names stem => s.names.getD stem 0
  | .temporaries => s.temporaries

def Issued (s : Scope) (name : String) : Prop :=
  ∃ stem n, n < s.used (.names stem) ∧ name = numbered stem n

def ends (s : Scope) : List Label :=
  match s.closure with
  | some data => [data.startLabel, data.endLabel]
  | none => []

variable {s after : Scope}

theorem used_of_mintName {stem name : String} (minted : s.mintName? stem = some (name, after))
    (k : Series) : after.used k = if k = .names stem then s.used (.names stem) + 1 else s.used k := by
  obtain ⟨-, -, rfl⟩ := mintName?_eq_some_iff.1 minted
  cases k with
  | names other =>
    by_cases same : other = stem
    · simp [used, Dict.getD, same]
    · simp [used, Dict.getD, same, Dict.get?_insert_of_ne]
  | temporaries => simp [used]

theorem used_of_mintTempIndex {index : Nat} (minted : s.mintTempIndex? = some (index, after))
    (k : Series) : after.used k = if k = .temporaries then s.used .temporaries + 1 else s.used k := by
  obtain ⟨-, -, rfl⟩ := mintTempIndex?_eq_some_iff.1 minted
  cases k <;> simp [used]

theorem used_firstNames {stem : String} (names : s.names = ClosureData.firstNames stem)
    (temporaries : s.temporaries = 0) (k : Series) :
    s.used k = if k = .names (stem ++ "START") ∨ k = .names (stem ++ "END") then 1 else 0 := by
  cases k with
  | names other =>
    rw [used, names, Dict.getD, ClosureData.firstNames, Dict.get?_insert, Dict.get?_insert]
    by_cases last : other = stem ++ "END"
    · simp [last]
    · by_cases first : other = stem ++ "START"
      · simp [first]
      · simp [first, last]
  | temporaries => simp [used, temporaries]

theorem Issued.mono {name : String} (issued : s.Issued name) (le : ∀ k, s.used k ≤ after.used k) :
    after.Issued name := by
  obtain ⟨stem, n, small, rfl⟩ := issued
  exact ⟨stem, n, Nat.lt_of_lt_of_le small (le _), rfl⟩

/-- A closure keeps its number, whatever is done to it. -/
theorem lasting_number : Lasting fun s t => t.closure.map (·.number) = s.closure.map (·.number) where
  refl _ := rfl
  trans first second := second.trans first
  edit edited := closure_map_eq_of_core (fun _ => rfl) edited.core_eq
  counted _ _ := rfl

/-- The stem of a scope's own labels depends on its number alone. -/
theorem labelStem_eq_of_number (same : after.closure.map (·.number) = s.closure.map (·.number)) :
    after.labelStem = s.labelStem := by
  have read (u : Scope) : u.labelStem =
      ((u.closure.map (·.number)).map fun n => "CL" ++ toString n ++ "_LBL").getD "LBL" := by
    cases closed : u.closure <;> simp [labelStem, closed]
  rw [read, read, same]

theorem tempTag_eq_of_number (same : after.closure.map (·.number) = s.closure.map (·.number)) :
    after.tempTag = s.tempTag := by
  have read (u : Scope) : u.tempTag = ((u.closure.map (·.number)).map .closure).getD .scope := by
    cases closed : u.closure <;> simp [tempTag, closed]
  rw [read, read, same]

/-- What a scope becomes by a write that hands out nothing. -/
structure Keeps (s t : Scope) : Prop where
  names : t.names = s.names
  temporaries : t.temporaries = s.temporaries
  number : t.closure.map (·.number) = s.closure.map (·.number)
  ends : ∀ l ∈ t.ends, l ∈ s.ends ∨ s.Issued l.name

theorem Keeps.used {t : Scope} (keeps : s.Keeps t) (k : Series) : t.used k = s.used k := by
  cases k with
  | names stem => rw [Scope.used, keeps.names, Scope.used]
  | temporaries => exact keeps.temporaries

theorem ends_eq_map (s : Scope) :
    s.ends = (s.closure.map fun data => [data.startLabel, data.endLabel]).getD [] := by
  cases closed : s.closure <;> simp [ends, closed]

/-- Every edit but that of a counter of names or temporaries hands out nothing. -/
theorem Edit.keeps {id : ScopeId} {deed : Deed} (edited : s.Edit id deed after)
    (name : deed ≠ .name) (temporary : deed ≠ .temporary) : s.Keeps after := by
  have same := edited.core_eq
  have ends : after.ends = s.ends := by
    rw [ends_eq_map, ends_eq_map, closure_map_eq_of_core (fun _ => rfl) same]
  refine ⟨?_, ?_, closure_map_eq_of_core (fun _ => rfl) same, fun l member => .inl (ends ▸ member)⟩
  all_goals
    cases edited with
    | name => exact absurd rfl name
    | temporary => exact absurd rfl temporary
    | number minted =>
      obtain ⟨-, -, rfl⟩ := mintClosureNumber?_eq_some_iff.1 minted
      rfl
    | _ => rfl

end Scope

namespace Program

variable {p q t : Program} {l m : List Issue} {id : ScopeId} {s after : Scope}

abbrev Renumbers (p q : Program) : Prop :=
  p.Tracks (fun s t => t.closure.map (·.number) = s.closure.map (·.number)) q

inductive Write (p : Program) : List Issue → Program → Prop where
  | name {id : ScopeId} {s after : Scope} {stem name : String} (found : p.scope? id = some s)
      (minted : s.mintName? stem = some (name, after)) :
      Write p [.name id stem (s.names.getD stem 0)] (p.replace id after)
  | temporary {id : ScopeId} {s after : Scope} {index : Nat} {tag : TempTag}
      (found : p.scope? id = some s) (minted : s.mintTempIndex? = some (index, after))
      (tagged : tag = s.tempTag ∨ ∃ given, tag = .named given) :
      Write p [.temp ⟨id, index, tag⟩] (p.replace id after)
  | other {id : ScopeId} {s after : Scope} (found : p.scope? id = some s) (keeps : s.Keeps after) :
      Write p [] (p.replace id after)
  | flat {s : Scope} (bare : s.closure = none) (names : s.names = ∅) (temporaries : s.temporaries = 0) :
      Write p [] (p.push s)
  | closure {s : Scope} {stem : String}
      (ends : s.ends = [⟨numbered (stem ++ "START") 0⟩, ⟨numbered (stem ++ "END") 0⟩])
      (names : s.names = ClosureData.firstNames stem) (temporaries : s.temporaries = 0) :
      Write p [.name p.nextId (stem ++ "START") 0, .name p.nextId (stem ++ "END") 0] (p.push s)

inductive Writes (p : Program) : List Issue → Program → Prop where
  | refl : Writes p [] p
  | tail {l m : List Issue} {q t : Program} (row : Writes p l q) (last : q.Write m t) :
      Writes p (l ++ m) t

theorem Writes.single (write : p.Write l q) : p.Writes l q := Writes.tail (l := []) .refl write

theorem Writes.trans (first : p.Writes l q) (second : q.Writes m t) : p.Writes (l ++ m) t := by
  induction second with
  | refl => rwa [List.append_nil]
  | tail row last ih =>
    rw [← List.append_assoc]
    exact ih.tail last

/-! ## Counters -/

def used (p : Program) (id : ScopeId) (k : Series) : Nat := (p.scope? id).elim 0 (·.used k)

theorem used_of_scope? (found : p.scope? id = some s) (k : Series) : p.used id k = s.used k := by
  rw [used, found]
  rfl

theorem used_nextId (k : Series) : p.used p.nextId k = 0 := by
  simp [used, scope?]

theorem used_replace (found : p.scope? id = some s) (x : ScopeId) (k : Series) :
    (p.replace id after).used x k = if x = id then after.used k else p.used x k := by
  rw [used, scope?_replace]
  split
  · rw [found]
    rfl
  · rfl

theorem used_push (x : ScopeId) (k : Series) :
    (p.push s).used x k = if x = p.nextId then s.used k else p.used x k := by
  split
  · rename_i new
    rw [new, used_of_scope? (scope?_push_nextId p s)]
  · rename_i old
    rw [used, scope?_push_of_ne p s old]
    rfl

/-- From `p` to `q` the counters have moved on over just the numbers of `l`, each of which is there once. -/
structure Hands (p : Program) (l : List Issue) (q : Program) : Prop where
  distinct : (l.map Issue.mark).Nodup
  le : ∀ id k, p.used id k ≤ q.used id k
  mem_iff : ∀ id k n, (id, k, n) ∈ l.map Issue.mark ↔ p.used id k ≤ n ∧ n < q.used id k

namespace Hands

/-- No counter has moved. -/
theorem nothing (same : ∀ id k, q.used id k = p.used id k) : p.Hands [] q where
  distinct := List.nodup_nil
  le id k := Nat.le_of_eq (same id k).symm
  mem_iff id k n := by
    rw [same id k]
    simp

/-- One counter has moved on by one. -/
theorem one {i : Issue} {k : Series} (mark : i.mark = (id, k, p.used id k))
    (next : ∀ x j, q.used x j = if x = id ∧ j = k then p.used id k + 1 else p.used x j) :
    p.Hands [i] q where
  distinct := by simp
  le x j := by
    rw [next]
    split
    · rename_i here
      rw [here.1, here.2]
      exact Nat.le_succ _
    · exact Nat.le_refl _
  mem_iff x j n := by
    rw [List.map_singleton, List.mem_singleton, mark, next]
    split
    · rename_i here
      obtain ⟨rfl, rfl⟩ := here
      simp
      omega
    · rename_i other
      constructor
      · rintro ⟨⟩
        exact absurd ⟨rfl, rfl⟩ other
      · omega

theorem trans (first : p.Hands l q) (second : q.Hands m t) : p.Hands (l ++ m) t where
  distinct := by
    rw [List.map_append]
    refine List.nodup_append.2 ⟨first.distinct, second.distinct, ?_⟩
    rintro ⟨id, k, n⟩ early _ late rfl
    have before := ((first.mem_iff id k n).1 early).2
    have behind := ((second.mem_iff id k n).1 late).1
    omega
  le id k := Nat.le_trans (first.le id k) (second.le id k)
  mem_iff id k n := by
    have lower := first.le id k
    have upper := second.le id k
    rw [List.map_append, List.mem_append, first.mem_iff, second.mem_iff]
    omega

end Hands

theorem Write.hands (write : p.Write l q) : p.Hands l q := by
  cases write with
  | @name id s after stem name found minted =>
    apply Hands.one (k := .names stem) (by rw [used_of_scope? found]; rfl)
    intro x j
    rw [used_replace found, used_of_scope? found, Scope.used_of_mintName minted]
    by_cases here : x = id
    · subst here
      simp [used_of_scope? found]
    · simp [here]
  | @temporary id s after index tag found minted =>
    have next : index = s.temporaries := (Scope.mintTempIndex?_eq_some_iff.1 minted).2.1
    apply Hands.one (k := .temporaries) (by rw [used_of_scope? found, next]; rfl)
    intro x j
    rw [used_replace found, used_of_scope? found, Scope.used_of_mintTempIndex minted]
    by_cases here : x = id
    · subst here
      simp [used_of_scope? found]
    · simp [here]
  | @other id s after found keeps =>
    apply Hands.nothing
    intro x k
    rw [used_replace found]
    split
    · rename_i here
      rw [here, used_of_scope? found, keeps.used]
    · rfl
  | @flat s bare names temporaries =>
    apply Hands.nothing
    intro x k
    rw [used_push]
    split
    · rename_i here
      rw [here, used_nextId]
      cases k with
      | names stem =>
        rw [Scope.used, names]
        rfl
      | temporaries => exact temporaries
    · rfl
  | @closure s stem ends names temporaries =>
    have used := Scope.used_firstNames names temporaries
    have listed (x : ScopeId) (k : Series) (n : Nat) :
        (x, k, n) ∈ [Issue.name p.nextId (stem ++ "START") 0, .name p.nextId (stem ++ "END") 0].map
            Issue.mark ↔
          x = p.nextId ∧ (k = .names (stem ++ "START") ∨ k = .names (stem ++ "END")) ∧ n = 0 := by
      simp only [List.map_cons, List.map_nil, List.mem_pair, Issue.mark, Prod.mk.injEq]
      rw [← and_or_left, ← or_and_right]
    constructor
    case distinct => simp [Issue.mark]
    case le =>
      intro x k
      rw [used_push]
      split
      · rename_i here
        rw [here, used_nextId]
        exact Nat.zero_le _
      · exact Nat.le_refl _
    case mem_iff =>
      intro x k n
      rw [listed, used_push]
      by_cases here : x = p.nextId
      · rw [if_pos here, used k, here, used_nextId]
        split
        · rename_i one
          simp [one]
        · rename_i none
          simp [none]
      · simp [here]

theorem Writes.hands (row : p.Writes l q) : p.Hands l q := by
  induction row with
  | refl => exact .nothing fun _ _ => rfl
  | tail _ last ih => exact ih.trans last.hands

/-! ## Owners -/

theorem Write.renumbers (write : p.Write l q) : p.Renumbers q := by
  have replaced {id : ScopeId} {s after : Scope} (found : p.scope? id = some s)
      (same : after.closure.map (·.number) = s.closure.map (·.number)) :
      p.Renumbers (p.replace id after) := by
    intro x u there
    rw [scope?_replace]
    split
    · rename_i here
      subst here
      cases found.symm.trans there
      exact ⟨after, by rw [found]; rfl, same⟩
    · exact ⟨u, there, rfl⟩
  cases write with
  | name found minted =>
    obtain ⟨-, -, rfl⟩ := Scope.mintName?_eq_some_iff.1 minted
    exact replaced found rfl
  | temporary found minted =>
    obtain ⟨-, -, rfl⟩ := Scope.mintTempIndex?_eq_some_iff.1 minted
    exact replaced found rfl
  | other found keeps => exact replaced found keeps.number
  | flat | closure => exact .push Scope.lasting_number _ _

theorem Writes.renumbers (row : p.Writes l q) : p.Renumbers q := by
  induction row with
  | refl => exact .refl Scope.lasting_number _
  | tail _ last ih => exact ih.trans Scope.lasting_number last.renumbers

/-- A temporary is tagged as its owner tags its own, or has a given name. -/
theorem Writes.tagged (row : p.Writes l q) {v : Temporary} (member : .temp v ∈ l) :
    ∃ s, q.scope? v.owner = some s ∧ (v.tag = s.tempTag ∨ v.isNamed = true) := by
  induction row with
  | refl => cases member
  | tail _ last ih =>
    rcases List.mem_append.1 member with before | here
    · obtain ⟨s, found, tagged⟩ := ih before
      obtain ⟨t, there, number⟩ := last.renumbers _ s found
      rw [← Scope.tempTag_eq_of_number number] at tagged
      exact ⟨t, there, tagged⟩
    · cases last with
      | temporary found minted tagged =>
        cases List.mem_singleton.1 here
        refine ⟨_, scope?_replace_self found _, ?_⟩
        obtain ⟨-, -, rfl⟩ := Scope.mintTempIndex?_eq_some_iff.1 minted
        obtain rfl | ⟨given, rfl⟩ := tagged
        · exact .inl rfl
        · exact .inr rfl
      | _ => simp at here

/-- The first and the last label of every closure are names that it has handed out itself. -/
def Labelled (p : Program) : Prop :=
  ∀ id s, p.scope? id = some s → ∀ l ∈ s.ends, s.Issued l.name

theorem Write.labelled (write : p.Write l q) (labelled : p.Labelled) : q.Labelled := by
  intro x u found label member
  -- A scope that was there had its labels, and its counters have not gone back.
  have kept {s : Scope} (there : p.scope? x = some s) (old : label ∈ s.ends ∨ s.Issued label.name) :
      u.Issued label.name := by
    have before : s.Issued label.name := old.elim (labelled x s there label) id
    apply before.mono
    intro k
    rw [← used_of_scope? there, ← used_of_scope? found]
    exact write.hands.le x k
  cases write with
  | name there minted =>
    obtain ⟨-, -, rfl⟩ := Scope.mintName?_eq_some_iff.1 minted
    obtain ⟨rfl, rfl⟩ | old := scope?_replace_cases found
    · exact kept there (.inl member)
    · exact kept old (.inl member)
  | temporary there minted =>
    obtain ⟨-, -, rfl⟩ := Scope.mintTempIndex?_eq_some_iff.1 minted
    obtain ⟨rfl, rfl⟩ | old := scope?_replace_cases found
    · exact kept there (.inl member)
    · exact kept old (.inl member)
  | other there keeps =>
    obtain ⟨rfl, rfl⟩ | old := scope?_replace_cases found
    · exact kept there (keeps.ends label member)
    · exact kept old (.inl member)
  | flat bare =>
    obtain ⟨rfl, rfl⟩ | old := scope?_push_cases found
    · simp [Scope.ends, bare] at member
    · exact kept old (.inl member)
  | closure ends names temporaries =>
    obtain ⟨rfl, rfl⟩ | old := scope?_push_cases found
    · have used := Scope.used_firstNames names temporaries
      rw [ends] at member
      rcases List.mem_pair.1 member with rfl | rfl
      · exact ⟨_, 0, by simp [used], rfl⟩
      · exact ⟨_, 0, by simp [used], rfl⟩
    · exact kept old (.inl member)

theorem Writes.labelled (row : p.Writes l q) (labelled : p.Labelled) : q.Labelled := by
  induction row with
  | refl => exact labelled
  | tail _ last ih => exact last.labelled ih

end Program

end ClosureIR
