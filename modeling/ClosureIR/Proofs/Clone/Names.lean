import ClosureIR.Program.Clone
import ClosureIR.Proofs.Change
import ClosureIR.Proofs.Clone.Traversal

/-!
# The names of a clone

Preparing a renaming hands out one fresh label for each label and one fresh
temporary for each temporary that is mentioned.  The fresh names are numbered
without gaps, so no two names share one.
-/

namespace ClosureIR

open BuildM

namespace Dict

universe u v

variable {κ : Type u} {α : Type v} [DecidableEq κ]

/-- The values are `code key n` for the numbers `n` below `bound`, one key for each number. -/
structure Numbered (d : Dict κ α) (code : κ → Nat → α) (bound : Nat) : Prop where
  below : ∀ key a, d.get? key = some a → ∃ n < bound, a = code key n
  onto : ∀ n < bound, ∃ key, d.get? key = some (code key n)
  apart : ∀ first second n, d.get? first = some (code first n) →
    d.get? second = some (code second n) → first = second

namespace Numbered

variable {d : Dict κ α} {code : κ → Nat → α} {bound : Nat}

theorem empty : Numbered (∅ : Dict κ α) code 0 where
  below _ _ found := by cases found
  onto _ small := absurd small (Nat.not_lt_zero _)
  apart _ _ _ found := by cases found

theorem insert (injective : ∀ first second i j, code first i = code second j → i = j)
    (numbered : d.Numbered code bound) {key : κ} (fresh : d.get? key = none) :
    (d.insert key (code key bound)).Numbered code (bound + 1) := by
  -- A number below the bound was given out before, and not to `key`.
  have old {other : κ} {n : Nat} (found : d.get? other = some (code other n)) : n < bound := by
    obtain ⟨i, small, same⟩ := numbered.below other _ found
    exact injective _ _ _ _ same ▸ small
  refine ⟨fun other a found => ?_, fun n small => ?_, fun first second n found found' => ?_⟩
  · rw [get?_insert] at found
    split at found
    · rename_i same
      cases found
      exact ⟨bound, Nat.lt_succ_self _, by rw [same]⟩
    · obtain ⟨n, small, same⟩ := numbered.below other a found
      exact ⟨n, Nat.lt_succ_of_lt small, same⟩
  · rcases Nat.lt_succ_iff_lt_or_eq.1 small with before | rfl
    · obtain ⟨other, found⟩ := numbered.onto n before
      have different : other ≠ key := by
        rintro rfl
        rw [fresh] at found
        cases found
      exact ⟨other, by rw [get?_insert_of_ne d _ different, found]⟩
    · exact ⟨key, get?_insert_self d key _⟩
  · rw [get?_insert] at found found'
    split at found <;> split at found'
    · rename_i here here'
      exact here.trans here'.symm
    · have last := injective _ _ _ _ (Option.some.inj found)
      have before := old found'
      omega
    · have last := injective _ _ _ _ (Option.some.inj found')
      have before := old found
      omega
    · exact numbered.apart first second n found found'

/-- No two keys share a value. -/
theorem injective (distinct : ∀ first second i j, code first i = code second j → i = j)
    (numbered : d.Numbered code bound) {first second : κ} {a : α}
    (found : d.get? first = some a) (found' : d.get? second = some a) : first = second := by
  obtain ⟨i, -, rfl⟩ := numbered.below first a found
  obtain ⟨j, -, same⟩ := numbered.below second _ found'
  obtain rfl := distinct _ _ _ _ same
  exact numbered.apart first second i found (found'.trans (congrArg some same))

end Numbered

end Dict

namespace Scope

def Minted (c after : Scope) : Prop :=
  ∃ names temporaries, after = { c with names, temporaries }

theorem Minted.refl (c : Scope) : c.Minted c := ⟨c.names, c.temporaries, rfl⟩

theorem Minted.trans {c d e : Scope} (first : c.Minted d) (second : d.Minted e) : c.Minted e := by
  obtain ⟨_, _, rfl⟩ := first
  obtain ⟨names, temporaries, rfl⟩ := second
  exact ⟨names, temporaries, rfl⟩

def copyTag (c : Scope) (t : Temporary) : TempTag :=
  match t.tag with
  | .named name => .named name
  | .scope | .closure _ => c.tempTag

def ownLabel (c : Scope) (n : Nat) : Label := ⟨numbered c.labelStem n⟩

def ownLabels (c : Scope) : Nat := c.names.getD c.labelStem 0

theorem ownLabels_insert (c : Scope) (n : Nat) :
    ownLabels { c with names := c.names.insert c.labelStem n } = n :=
  congrArg (Option.getD · 0) (Dict.get?_insert_self c.names c.labelStem n)

def labelled (c : Scope) (n : Nat) : Scope :=
  { c with names := c.names.insert c.labelStem (c.ownLabels + n) }

@[simp] theorem ownLabels_labelled (c : Scope) (n : Nat) :
    (c.labelled n).ownLabels = c.ownLabels + n :=
  ownLabels_insert c _

/-- Labels are handed out one after the other. -/
theorem labelled_labelled (c : Scope) (m n : Nat) :
    (c.labelled m).labelled n = c.labelled (m + n) := by
  rw [labelled, ownLabels_labelled, labelled, labelled, Nat.add_assoc]
  simp only [Dict.insert_insert, labelStem]

def nextLabels (c : Scope) (n : Nat) : List Label :=
  (List.range' c.ownLabels n).map c.ownLabel

theorem ownLabel_injective {c : Scope} {i j : Nat} (same : c.ownLabel i = c.ownLabel j) : i = j :=
  numbered_injective (congrArg Label.name same)

end Scope

namespace Program

variable {p : Program} {id : ScopeId} {c : Scope}

theorem yields_newLabel (found : p.scope? id = some c) (live : c.isInlined = false) :
    (newLabel id).Yields p
      (fun l q => l = c.ownLabel c.ownLabels ∧
        q = p.replace id { c with names := c.names.insert c.labelStem (c.ownLabels + 1) })
      fun fault q => fault = .misused .wordOverflow ∧ q = p ∧ Counter.bound ≤ c.ownLabels + 1 := by
  refine yields_ask_bind.2 ⟨fun s here => ?_, fun m missing => ?_⟩
  · cases found.symm.trans (scope_eq_ok_iff.1 here)
    refine yields_ask_bind.2 ⟨fun _ _ => yields_bind.2 ?_, fun m dead => ?_⟩
    · refine yields_mint (fun t name after there minted => ?_) (fun t there full => ?_)
        fun missing => ?_
      · cases found.symm.trans there
        obtain ⟨-, rfl, rfl⟩ := Scope.mintName?_eq_some_iff.1 minted
        exact ⟨rfl, rfl⟩
      · cases found.symm.trans there
        exact ⟨rfl, rfl, Counter.next?_eq_none_iff.1 (Option.map_eq_none_iff.1 full)⟩
      · simp [found] at missing
    · simp [liveScope_of_scope? found, live] at dead
  · simp [scope_eq_ok_iff.2 found] at missing

/-- New labels of a scope are its next ones, in a row, as long as its counter lasts. -/
theorem yields_ownLabels (found : p.scope? id = some c) (live : c.isInlined = false) (n : Nat) :
    (newLabels id (n + 1)).Yields p
      (fun labels q => labels = c.nextLabels (n + 1) ∧ q = p.replace id (c.labelled (n + 1)))
      fun fault _ => fault = .misused .wordOverflow ∧ Counter.bound ≤ c.ownLabels + (n + 1) := by
  induction n generalizing p c with
  | zero =>
    refine yields_bind.2 ((yields_newLabel found live).mono ?_ ?_)
    · rintro first t ⟨rfl, rfl⟩
      exact ⟨rfl, rfl⟩
    · rintro fault t ⟨rfl, -, full⟩
      exact ⟨rfl, full⟩
  | succ n ih =>
    refine yields_bind.2 ((yields_newLabel found live).mono ?_ ?_)
    · rintro first t ⟨rfl, rfl⟩
      have rest := ih (scope?_replace_self found (c.labelled 1)) live
      rw [Scope.ownLabels_labelled] at rest
      refine yields_bind.2 (rest.mono ?_ ?_)
      · rintro labels t ⟨rfl, rfl⟩
        constructor
        · rw [Scope.nextLabels, Scope.nextLabels, List.range'_succ, Scope.ownLabels_labelled]
          rfl
        · rw [replace_replace, Scope.labelled_labelled, Nat.add_comm 1]
      · rintro fault t ⟨rfl, full⟩
        exact ⟨rfl, by omega⟩
    · rintro fault t ⟨rfl, -, full⟩
      exact ⟨rfl, by omega⟩

theorem yields_freshTemp (found : p.scope? id = some c) (live : c.isInlined = false)
    (t : Temporary) :
    (Renaming.freshTemp id t).Yields p
      (fun fresh q => fresh = ⟨id, c.temporaries, c.copyTag t⟩ ∧
        q = p.replace id { c with temporaries := c.temporaries + 1 })
      fun fault q => fault = .misused .wordOverflow ∧ q = p := by
  -- Both kinds of temporaries take the next index; they differ in the tag only.
  have indexed (tag : TempTag) :
      (do
        let index ← mint id (·.mintTempIndex?)
        return ⟨id, index, tag⟩ : BuildM Temporary).Yields p
          (fun fresh q => fresh = ⟨id, c.temporaries, tag⟩ ∧
            q = p.replace id { c with temporaries := c.temporaries + 1 })
          fun fault q => fault = .misused .wordOverflow ∧ q = p := by
    refine yields_bind.2 (yields_mint (fun s index after here minted => ?_)
      (fun _ _ _ => ⟨rfl, rfl⟩) fun missing => ?_)
    · cases found.symm.trans here
      obtain ⟨-, rfl, rfl⟩ := Scope.mintTempIndex?_eq_some_iff.1 minted
      exact ⟨rfl, rfl⟩
    · simp [found] at missing
  have alive : p.liveScope id = .ok c := liveScope_eq_ok_iff.2 ⟨found, live⟩
  rcases t with ⟨owner, index, tag⟩
  cases tag with
  | named name =>
    refine yields_ask_bind.2 ⟨fun _ _ => indexed (.named name), fun _ dead => ?_⟩
    simp [alive] at dead
  | scope =>
    refine yields_ask_bind.2 ⟨fun s here => ?_, fun _ dead => ?_⟩
    · cases alive.symm.trans here
      exact indexed c.tempTag
    · simp [alive] at dead
  | closure n =>
    refine yields_ask_bind.2 ⟨fun s here => ?_, fun _ dead => ?_⟩
    · cases alive.symm.trans here
      exact indexed c.tempTag
    · simp [alive] at dead

theorem replace_self (found : p.scope? id = some c) : p.replace id c = p := by
  have same : p.scopes.setIfInBounds id.index c = p.scopes := by
    apply Array.ext_getElem?
    intro i
    rw [Array.getElem?_setIfInBounds]
    split
    · rename_i here
      subst here
      rw [scope?] at found
      simp [(Array.getElem?_eq_some_iff.1 found).1, found.symm]
    · rfl
  simp [replace, same]

end Program

namespace Renaming

def tempCode (host : ScopeId) (c : Scope) (v : Variable) (n : Nat) : Variable :=
  .ofTemp ⟨host, n, match v with
    | .ofTemp t => c.copyTag t
    | .ofLocal _ => c.tempTag⟩

theorem tempCode_injective {host : ScopeId} {c : Scope} (v w : Variable) (i j : Nat)
    (same : tempCode host c v i = tempCode host c w j) : i = j := by
  simp only [tempCode, Variable.ofTemp.injEq, Temporary.mk.injEq] at same
  exact same.2.1

/--
The renaming covers exactly the names `ms`, with labels and temporaries of its
host `c`, which has handed out no others.
-/
structure Prepared (r : Renaming) (c : Scope) (ms : List Mention) : Prop where
  covers : ∀ n, r.covers n = true ↔ n ∈ ms
  labels : r.labels.Numbered (fun _ n => c.ownLabel n) c.ownLabels
  temps : r.vars.Numbered (tempCode r.host c) c.temporaries
  only : ∀ v w, r.vars.get? v = some w → ∃ t, v = .ofTemp t

/-- The step of a preparation: another name is covered, and the host may have handed out one more. -/
def Covered (r : Renaming) (c : Scope) (p : Program) (ms : List Mention) (after : Renaming)
    (q : Program) : Prop :=
  ∃ c', c.Minted c' ∧ q = p.replace r.host c' ∧ after.host = r.host ∧ after.scopes = r.scopes ∧
    after.Prepared c' ms

variable {r : Renaming} {c : Scope} {ms : List Mention} {p : Program}

theorem Prepared.of_mem (prepared : r.Prepared c ms) {n : Mention} (known : r.covers n = true) :
    r.Prepared c (ms ++ [n]) where
  __ := prepared
  covers k := by
    rw [prepared.covers, List.mem_append, List.mem_singleton]
    constructor
    · exact .inl
    · rintro (member | rfl)
      · exact member
      · exact (prepared.covers _).1 known

theorem Prepared.withLabel (prepared : r.Prepared c ms) {l : Label}
    (unknown : r.labels.get? l = none) :
    (r.withLabel l (c.ownLabel c.ownLabels)).Prepared
      { c with names := c.names.insert c.labelStem (c.ownLabels + 1) } (ms ++ [.label l]) where
  covers n := by
    rw [List.mem_append, List.mem_singleton, ← prepared.covers]
    cases n with
    | label k =>
      by_cases same : k = l
      · simp [Renaming.covers, Renaming.withLabel, Dict.contains, same]
      · simp [Renaming.covers, Renaming.withLabel, Dict.contains, same, Dict.get?_insert_of_ne]
    | temp t => simp [Renaming.covers, Renaming.withLabel]
  labels := by
    have numbered := prepared.labels.insert (fun _ _ _ _ => Scope.ownLabel_injective) unknown
    rw [Scope.ownLabels_insert]
    exact numbered
  temps := prepared.temps
  only := prepared.only

theorem Prepared.withTemporary (prepared : r.Prepared c ms) {t : Temporary}
    (unknown : r.vars.get? (.ofTemp t) = none) :
    (r.withVariable (.ofTemp t) (.ofTemp ⟨r.host, c.temporaries, c.copyTag t⟩)).Prepared
      { c with temporaries := c.temporaries + 1 } (ms ++ [.temp t]) where
  covers n := by
    rw [List.mem_append, List.mem_singleton, ← prepared.covers]
    cases n with
    | label l => simp [Renaming.covers, Renaming.withVariable]
    | temp k =>
      by_cases same : k = t
      · simp [Renaming.covers, Renaming.withVariable, Dict.contains, same]
      · simp [Renaming.covers, Renaming.withVariable, Dict.contains, same, Dict.get?_insert_of_ne]
  labels := prepared.labels
  temps := prepared.temps.insert tempCode_injective unknown
  only v w found := by
    by_cases same : v = .ofTemp t
    · exact ⟨t, same⟩
    · apply prepared.only v w
      rwa [Renaming.withVariable, Dict.get?_insert_of_ne _ _ same] at found

theorem yields_cover (prepared : r.Prepared c ms) (found : p.scope? r.host = some c)
    (live : c.isInlined = false) (n : Mention) :
    (r.cover n).Yields p (fun after q => r.Covered c p (ms ++ [n]) after q)
      fun fault q => fault = .misused .wordOverflow ∧ q = p := by
  have already (known : r.covers n = true) : r.Covered c p (ms ++ [n]) r p :=
    ⟨c, .refl c, (Program.replace_self found).symm, rfl, rfl, prepared.of_mem known⟩
  cases n with
  | label l =>
    by_cases known : r.labels.contains l = true
    · rw [cover, if_pos known]
      exact already known
    · rw [cover, if_neg known]
      refine yields_bind.2 ((Program.yields_newLabel found live).mono ?_ fun _ _ failed =>
        ⟨failed.1, failed.2.1⟩)
      rintro fresh q ⟨rfl, rfl⟩
      refine ⟨_, ⟨_, _, rfl⟩, rfl, rfl, rfl, prepared.withLabel ?_⟩
      simpa [Dict.contains] using known
  | temp t =>
    by_cases known : r.vars.contains (.ofTemp t) = true
    · rw [cover, if_pos known]
      exact already known
    · rw [cover, if_neg known]
      refine yields_bind.2 ((Program.yields_freshTemp found live t).mono ?_ fun _ _ failed => failed)
      rintro fresh q ⟨rfl, rfl⟩
      refine ⟨_, ⟨_, _, rfl⟩, rfl, rfl, rfl, prepared.withTemporary ?_⟩
      simpa [Dict.contains] using known

theorem isInlined_of_minted {c c' : Scope} (minted : c.Minted c') : c'.isInlined = c.isInlined := by
  obtain ⟨_, _, rfl⟩ := minted
  rfl

/-- A whole preparation: either all names are covered in the end, or a counter has run out. -/
theorem yields_coverAll (prepared : r.Prepared c ms) (found : p.scope? r.host = some c)
    (live : c.isInlined = false) (ns : List Mention) :
    (r.coverAll ns).Yields p (fun after q => r.Covered c p (ms ++ ns) after q)
      fun fault q => fault = .misused .wordOverflow ∧ ∃ c', c.Minted c' ∧ q = p.replace r.host c' := by
  induction ns generalizing r c p ms with
  | nil =>
    rw [List.append_nil]
    exact ⟨c, .refl c, (Program.replace_self found).symm, rfl, rfl, prepared⟩
  | cons n rest ih =>
    refine yields_bind.2 ((yields_cover prepared found live n).mono ?_ ?_)
    · rintro next q ⟨d, minted, rfl, host, scopes, prepared⟩
      have there : (p.replace r.host d).scope? next.host = some d := by
        rw [host]
        exact Program.scope?_replace_self found d
      apply (ih prepared there ((isInlined_of_minted minted).trans live)).mono
      · rintro last t ⟨e, later, rfl, host', scopes', prepared'⟩
        rw [List.append_assoc] at prepared'
        refine ⟨e, minted.trans later, ?_, host'.trans host, scopes'.trans scopes, prepared'⟩
        rw [host, Program.replace_replace]
      · rintro fault t ⟨overflow, e, later, rfl⟩
        refine ⟨overflow, e, minted.trans later, ?_⟩
        rw [host, Program.replace_replace]
    · rintro fault q ⟨overflow, rfl⟩
      exact ⟨overflow, c, .refl c, (Program.replace_self found).symm⟩

end Renaming

end ClosureIR
