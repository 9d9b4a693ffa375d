import ClosureIR.Proofs.Clone.Tree

/-!
# A clone before and after its body is copied

A clone starts as a shell without a graph, which hands out the names for the
body.  Once these are prepared, copying the parameters touches nothing, and
filling in the body completes the clone.
-/

namespace ClosureIR

open BuildM

/-! ## The shell -/

namespace Scope

variable {s : Scope} {data : ClosureData} {parent id : ScopeId} {number : Nat}

theorem valid_cloneShell (closed : s.isClosure = true) {clone : ScopeId} (older : parent.index < clone.index)
    (data : ClosureData) (number : Nat) :
    (s.cloneShell data parent number clone).Valid clone := by
  have other : s.kind ≠ .script := by
    intro script
    simp [isClosure, script, ScopeKind.isClosure] at closed
  refine ⟨rfl, ?_, ?_, ?_⟩
  · rw [if_neg (show (s.cloneShell data parent number clone).kind ≠ .script from other)]
    exact ⟨parent, rfl, older⟩
  · exact closed.symm
  · simp [blockArgs, cloneShell, ClosureData.fresh]

/-- The first names of a shell are none of its own labels. -/
theorem ownLabels_cloneShell : (s.cloneShell data parent number id).ownLabels = 0 := by
  have other (last : String) :
      "CL" ++ toString number ++ "_LBL" ≠ "_CLOSURE_CLONE_" ++ toString number ++ "_" ++ last := by
    intro same
    simpa using congrArg String.toList same
  simp only [ownLabels, labelStem, cloneShell, ClosureData.fresh, ClosureData.firstNames, Dict.getD]
  rw [Dict.get?_insert_of_ne _ _ (other "END"), Dict.get?_insert_of_ne _ _ (other "START")]
  rfl

theorem Valid.minted {c after : Scope} (valid : c.Valid id) (minted : c.Minted after) :
    after.Valid id := by
  obtain ⟨_, _, rfl⟩ := minted
  exact ⟨valid.place, valid.parent, valid.closure, valid.blockArgs⟩

end Scope

namespace Renaming

variable {r : Renaming} {c : Scope} {ms : List Mention}

theorem prepared_derive {source clone parent : ScopeId} {s : Scope} {data : ClosureData}
    {number : Nat} :
    (r.derive source clone).Prepared (s.cloneShell data parent number clone) [] where
  covers n := by cases n <;> simp [covers, derive, Dict.contains] <;> rfl
  labels := by
    rw [Scope.ownLabels_cloneShell]
    exact .empty
  temps := .empty
  only v w found := by cases found

/-- A prepared renaming gives the answers of its map of names. -/
theorem Prepared.agrees (prepared : r.Prepared c ms) : r.Agrees r.names where
  label l renamed done := by
    rw [renameLabel_eq_ok_iff] at done
    simp [names, done]
  var v renamed done := by
    unfold renameVariable at done
    cases v with
    | ofLocal v =>
      cases known : r.vars.get? (.ofLocal v) with
      | some w =>
        obtain ⟨t, impossible⟩ := prepared.only _ _ known
        cases impossible
      | none =>
        rw [known] at done
        cases done
        rw [renameLocal, NameMap.var, names]
        cases owned : r.scope? v.owner <;> simp [owned]
    | ofTemp t =>
      cases known : r.vars.get? (.ofTemp t) with
      | none => simp [known] at done
      | some w =>
        obtain ⟨n, -, rfl⟩ := prepared.temps.below _ _ known
        rw [known] at done
        cases done
        simp [NameMap.var, names, known, tempCode]

variable {g : Graph}

theorem Prepared.exists_label (prepared : r.Prepared c ms) {l : Label} (named : .label l ∈ ms) :
    r.labels.get? l = some (r.names.label l) := by
  have known := (prepared.covers _).2 named
  obtain ⟨renamed, found⟩ := Option.isSome_iff_exists.1 known
  simp [names, label?, found]

theorem Prepared.exists_temp (prepared : r.Prepared c ms) {t : Temporary} (named : .temp t ∈ ms) :
    r.vars.get? (.ofTemp t) = some (.ofTemp (r.names.temp t)) := by
  have known := (prepared.covers _).2 named
  obtain ⟨renamed, found⟩ := Option.isSome_iff_exists.1 known
  obtain ⟨n, -, rfl⟩ := prepared.temps.below _ _ found
  simp [names, found, tempCode]

/-- A name that the renaming knows follows it. -/
theorem Prepared.getD_label? (prepared : r.Prepared c ms) (l fallback : Label) :
    (r.label? l).getD fallback = if .label l ∈ ms then r.names.label l else fallback := by
  split
  · rename_i named
    rw [label?, prepared.exists_label named]
    rfl
  · rename_i unnamed
    have unknown : r.labels.get? l = none :=
      Option.not_isSome_iff_eq_none.1 fun known => unnamed ((prepared.covers _).1 known)
    rw [label?, unknown]
    rfl

/-- On the names of the graph the map is one to one onto what the host has handed out. -/
theorem Prepared.fresh (prepared : r.Prepared c g.mentions) : r.names.Fresh g r.host c where
  label_injective l₁ l₂ named₁ named₂ same := by
    refine prepared.labels.injective (fun _ _ _ _ => Scope.ownLabel_injective)
      (prepared.exists_label named₁) ?_
    rw [same]
    exact prepared.exists_label named₂
  label_minted l named := prepared.labels.below l _ (prepared.exists_label named)
  label_onto n small := by
    obtain ⟨l, found⟩ := prepared.labels.onto n small
    have named : .label l ∈ g.mentions :=
      (prepared.covers _).1 (Option.isSome_iff_exists.2 ⟨_, found⟩)
    exact ⟨l, named, Option.some.inj ((prepared.exists_label named).symm.trans found)⟩
  temp_injective t₁ t₂ named₁ named₂ same := by
    have found := prepared.exists_temp named₂
    rw [← same] at found
    exact Variable.ofTemp.inj
      (prepared.temps.injective tempCode_injective (prepared.exists_temp named₁) found)
  temp_minted t named := by
    obtain ⟨n, small, same⟩ := prepared.temps.below _ _ (prepared.exists_temp named)
    exact ⟨n, small, Variable.ofTemp.inj same⟩
  temp_onto n small := by
    obtain ⟨v, found⟩ := prepared.temps.onto n small
    obtain ⟨t, rfl⟩ := prepared.only _ _ found
    have named : .temp t ∈ g.mentions :=
      (prepared.covers _).1 (Option.isSome_iff_exists.2 ⟨_, found⟩)
    have same := Option.some.inj ((prepared.exists_temp named).symm.trans found)
    exact ⟨t, named, Variable.ofTemp.inj same⟩

end Renaming

/-! ## The parameters -/

namespace Operand

variable {nested : ScopeId → BuildM ScopeId} {r : Renaming} {m : NameMap} {p : Program}
variable {sub : ScopeId → ScopeId → Prop}

/-- A parameter is a variable, perhaps in a splat: its copy needs the variable's new name alone. -/
theorem IsParameter.yields_renamed {o : Operand} (isParameter : o.IsParameter)
    (agrees : r.Agrees m) (sub : ScopeId → ScopeId → Prop) :
    (o.renamed nested r).Yields p
      (fun o' q => q = p ∧ o.Copied m sub o' ∧ ∀ n ∈ o.mentions, r.covers n = true)
      fun fault q => q = p ∧ ∃ t, .temp t ∈ o.mentions ∧ r.covers (.temp t) = false ∧
        fault = .misused (.temporaryNotPrepared t) := by
  have read (v : Variable) :
      (ofMisuse (r.renameVariable v)).Yields p
        (fun renamed q => q = p ∧ renamed = m.var v ∧
          ∀ n ∈ (Mention.ofVariable? v).toList, r.covers n = true)
        fun fault q => q = p ∧ ∃ t, .temp t ∈ (Mention.ofVariable? v).toList ∧
          r.covers (.temp t) = false ∧ fault = .misused (.temporaryNotPrepared t) := by
    refine yields_ofMisuse.2 ⟨fun renamed done => ?_, fun misuse failed => ?_⟩
    · refine ⟨rfl, agrees.var v renamed done, fun n named => ?_⟩
      cases v with
      | ofLocal v => cases named
      | ofTemp t =>
        cases List.mem_singleton.1 named
        unfold Renaming.renameVariable at done
        cases known : r.vars.get? (.ofTemp t) with
        | none => simp [known] at done
        | some w => simp [Renaming.covers, Dict.contains, known]
    · obtain ⟨t, rfl, unknown, rfl⟩ := Renaming.unknown_of_renameVariable failed
      exact ⟨rfl, t, List.mem_singleton_self _, unknown, rfl⟩
  obtain ⟨v, rfl | rfl⟩ := isParameter
  · have same : (var v).mentions = (Mention.ofVariable? v).toList := by cases v <;> rfl
    rw [same]
    refine yields_bind.2 ((read v).mono ?_ fun _ _ failed => failed)
    rintro renamed q ⟨rfl, rfl, covered⟩
    exact ⟨rfl, .var v, covered⟩
  · have same : (splat (var v)).mentions = (Mention.ofVariable? v).toList := by cases v <;> rfl
    rw [same]
    refine yields_bind.2 (yields_bind.2 ((read v).mono ?_ fun _ _ failed => failed))
    rintro renamed q ⟨rfl, rfl, covered⟩
    exact ⟨rfl, .splat (.var v), covered⟩

/-- Copies of parameters are parameters. -/
theorem AllCopied.isParameter {os os' : List Operand} (copied : AllCopied m sub os os')
    (parameters : ∀ o ∈ os, o.IsParameter) : ∀ o ∈ os', o.IsParameter := by
  induction os generalizing os' with
  | nil =>
    cases copied
    simp
  | cons o os ih =>
    obtain ⟨here, others⟩ := List.forall_mem_cons.1 parameters
    cases copied with
    | cons first rest =>
      refine List.forall_mem_cons.2 ⟨?_, ih rest others⟩
      obtain ⟨v, rfl | rfl⟩ := here
      · cases first with
        | var => exact ⟨_, .inl rfl⟩
      · cases first with
        | splat inner =>
          cases inner with
          | var => exact ⟨_, .inr rfl⟩

theorem yields_renamedAll_parameters (agrees : r.Agrees m) (sub : ScopeId → ScopeId → Prop)
    (os : List Operand) (parameters : ∀ o ∈ os, o.IsParameter) :
    (renamedAll nested r os).Yields p
      (fun os' q => q = p ∧ AllCopied m sub os os' ∧
        ∀ n ∈ os.flatMap (·.mentions), r.covers n = true)
      fun fault q => q = p ∧ ∃ t, .temp t ∈ os.flatMap (·.mentions) ∧
        r.covers (.temp t) = false ∧ fault = .misused (.temporaryNotPrepared t) := by
  induction os with
  | nil => exact ⟨rfl, .nil, by simp⟩
  | cons o rest ih =>
    obtain ⟨here, others⟩ := List.forall_mem_cons.1 parameters
    refine yields_bind.2 ((here.yields_renamed agrees sub).mono ?_ ?_)
    · rintro o' q ⟨rfl, copied, covered⟩
      refine yields_bind.2 ((ih others).mono ?_ ?_)
      · rintro os' q ⟨rfl, copiedRest, coveredRest⟩
        refine ⟨rfl, .cons copied copiedRest, fun n named => ?_⟩
        rw [List.flatMap_cons, List.mem_append] at named
        exact named.elim (covered n) (coveredRest n)
      · rintro fault q ⟨rfl, t, named, unknown, rfl⟩
        exact ⟨rfl, t, by simp [named], unknown, rfl⟩
    · rintro fault q ⟨rfl, t, named, unknown, rfl⟩
      exact ⟨rfl, t, by simp [named], unknown, rfl⟩

end Operand

end ClosureIR
