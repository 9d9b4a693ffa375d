import Mathlib.Data.List.Forall2

/-!
# Lists side by side

Facts about two lists that agree member by member, and about positions in a list.
-/

namespace ClosureIR

variable {α β γ : Type} {R : α → β → Prop} {as : List α} {bs : List β}

theorem exists_right_of_forall₂ (related : List.Forall₂ R as bs) {a : α} (member : a ∈ as) :
    ∃ b ∈ bs, R a b := by
  induction related with
  | nil => cases member
  | @cons first partner _ _ here _ ih =>
    rcases List.mem_cons.1 member with rfl | later
    · exact ⟨partner, List.mem_cons_self, here⟩
    · obtain ⟨b, inside, there⟩ := ih later
      exact ⟨b, List.mem_cons_of_mem _ inside, there⟩

theorem exists_left_of_forall₂ (related : List.Forall₂ R as bs) {b : β} (member : b ∈ bs) :
    ∃ a ∈ as, R a b :=
  exists_right_of_forall₂ (List.Forall₂.flip (R := flip R) related) member

/-- Members that are partners stand at the same place. -/
theorem exists_left_at_of_forall₂ (related : List.Forall₂ R as bs) {k : Nat} {b : β}
    (found : bs[k]? = some b) : ∃ a, as[k]? = some a ∧ R a b := by
  induction related generalizing k with
  | nil => cases found
  | @cons a _ _ _ here _ ih =>
    cases k with
    | zero =>
      cases found
      exact ⟨a, rfl, here⟩
    | succ k => exact ih found

theorem flatMap_eq_of_forall₂ {f : α → List γ} {g : β → List γ}
    (related : List.Forall₂ (fun a b => g b = f a) as bs) : bs.flatMap g = as.flatMap f := by
  induction related with
  | nil => rfl
  | cons here _ ih => simp [here, ih]

theorem map_eq_of_forall₂ {f : α → γ} {g : β → γ}
    (related : List.Forall₂ (fun a b => g b = f a) as bs) : bs.map g = as.map f := by
  induction related with
  | nil => rfl
  | cons here _ ih => rw [List.map_cons, List.map_cons, here, ih]

/-- Partners of one list of lists that are the same when flattened are cut in the same places. -/
theorem eq_of_forall₂_of_flatten {as : List (List α)} {bs cs : List (List β)}
    (first : List.Forall₂ (List.Forall₂ R) as bs)
    (second : List.Forall₂ (List.Forall₂ R) as cs) (same : bs.flatten = cs.flatten) : bs = cs := by
  have lengths {ds : List (List β)} (related : List.Forall₂ (List.Forall₂ R) as ds) :
      ds.map List.length = as.map List.length :=
    map_eq_of_forall₂ (related.imp fun _ _ here => here.length_eq.symm)
  exact List.eq_iff_flatten_eq.2 ⟨same, (lengths first).trans (lengths second).symm⟩

theorem rel_getLast? (related : List.Forall₂ R as bs) : Option.Rel R as.getLast? bs.getLast? := by
  have reversed : List.Forall₂ R as.reverse bs.reverse := List.rel_reverse related
  rw [← List.head?_reverse, ← List.head?_reverse]
  generalize as.reverse = xs, bs.reverse = ys at reversed
  cases reversed with
  | nil => exact .none
  | cons here _ => exact .some here

/-- Members that are read off the one list are read off the other, under their new names. -/
theorem filterMap_of_forall₂ {δ : Type} {f : α → Option γ} {f' : β → Option δ} {g : γ → δ}
    (related : List.Forall₂ R as bs) (same : ∀ a b, R a b → f' b = (f a).map g) :
    bs.filterMap f' = (as.filterMap f).map g := by
  induction related with
  | nil => rfl
  | @cons a b _ _ here _ ih =>
    rw [List.filterMap_cons, List.filterMap_cons, same a b here, ih]
    cases f a <;> rfl

theorem flatMap_of_forall₂ {δ : Type} {f : α → List γ} {f' : β → List δ} {g : γ → δ}
    (related : List.Forall₂ R as bs) (same : ∀ a b, R a b → f' b = (f a).map g) :
    bs.flatMap f' = (as.flatMap f).map g := by
  induction related with
  | nil => rfl
  | @cons a b _ _ here _ ih =>
    rw [List.flatMap_cons, List.flatMap_cons, same a b here, ih, List.map_append]

theorem forall₂_of_mapM {ε : Type} {f : α → Except ε β} (done : as.mapM f = .ok bs) :
    List.Forall₂ (fun a b => f a = .ok b) as bs := by
  induction as generalizing bs with
  | nil =>
    cases done
    exact .nil
  | cons a rest ih =>
    rw [List.mapM_cons] at done
    cases first : f a with
    | error fault => simp [first, bind, Except.bind] at done
    | ok b =>
      cases others : rest.mapM f with
      | error fault => simp [first, others, bind, Except.bind] at done
      | ok bs' =>
        simp only [first, others, bind, Except.bind, pure, Except.pure] at done
        cases done
        exact .cons first (ih others)

theorem exists_mapM_of_forall {ε : Type} {f : α → Except ε β}
    (each : ∀ a ∈ as, ∃ b, f a = .ok b) : ∃ bs, as.mapM f = .ok bs := by
  induction as with
  | nil => exact ⟨[], rfl⟩
  | cons a rest ih =>
    obtain ⟨⟨b, first⟩, others⟩ := List.forall_mem_cons.1 each
    obtain ⟨bs, done⟩ := ih others
    refine ⟨b :: bs, ?_⟩
    rw [List.mapM_cons, first, done]
    rfl

/-- Of steps that are done one after the other the first failure is that of the whole. -/
theorem mapM_eq_error_iff {ε : Type} {f : α → Except ε β} {fails : α → Option ε}
    (each : ∀ a ∈ as, ∀ fault, f a = .error fault ↔ fails a = some fault) {fault : ε} :
    as.mapM f = .error fault ↔ as.findSome? fails = some fault := by
  induction as with
  | nil => simp [pure, Except.pure]
  | cons a rest ih =>
    obtain ⟨here, others⟩ := List.forall_mem_cons.1 each
    rw [List.mapM_cons, List.findSome?_cons]
    cases first : f a with
    | error earlier => simp [(here earlier).1 first, bind, Except.bind]
    | ok b =>
      have fine : fails a = none := by
        refine Option.eq_none_iff_forall_ne_some.2 fun earlier failed => ?_
        cases first.symm.trans ((here earlier).2 failed)
      rw [fine, ← ih others]
      cases rest.mapM f <;> simp [bind, Except.bind, pure, Except.pure]

/-- The first answer of the first part that gives one. -/
theorem findSome?_flatMap (as : List α) (f : α → List β) (g : β → Option γ) :
    (as.flatMap f).findSome? g = as.findSome? fun a => (f a).findSome? g := by
  induction as with
  | nil => rfl
  | cons a rest ih =>
    rw [List.flatMap_cons, List.findSome?_append, List.findSome?_cons, ih]
    cases (f a).findSome? g <;> rfl

/-- Where only the last member may give an answer. -/
theorem findSome?_eq_bind_getLast? {f : α → Option β} (others : ∀ a ∈ as.dropLast, f a = none) :
    as.findSome? f = as.getLast?.bind f := by
  rcases List.eq_nil_or_concat as with rfl | ⟨before, last, rfl⟩
  · rfl
  · rw [List.concat_eq_append] at others ⊢
    rw [List.dropLast_concat] at others
    rw [List.findSome?_append, List.findSome?_eq_none_iff.2 others, List.getLast?_concat,
      List.findSome?_singleton]
    rfl

/-- Where only one answer is ever given, it is the first. -/
theorem findSome?_eq_of_forall {f : α → Option β} {a : α} {b : β} (member : a ∈ as) (here : f a = some b)
    (others : ∀ x ∈ as, f x = none ∨ f x = some b) : as.findSome? f = some b := by
  induction as with
  | nil => cases member
  | cons first rest ih =>
    obtain ⟨none | some, later⟩ := List.forall_mem_cons.1 others
    · rcases List.mem_cons.1 member with rfl | member
      · cases none.symm.trans here
      · rw [List.findSome?_cons, none]
        exact ih member later
    · rw [List.findSome?_cons, some]

/-- Partners give the first answer together, each in its own way. -/
theorem findSome?_of_forall₂ {f : α → Option γ} {g : β → Option γ} {h : β → γ → γ}
    (related : List.Forall₂ R as bs) (same : ∀ a b, R a b → g b = (f a).map (h b)) :
    (as.findSome? f = none → bs.findSome? g = none) ∧
      ∀ c, as.findSome? f = some c → ∃ a b, R a b ∧ a ∈ as ∧ b ∈ bs ∧ f a = some c ∧
        bs.findSome? g = some (h b c) := by
  induction related with
  | nil => exact ⟨fun _ => rfl, fun c never => (by cases never)⟩
  | @cons a b as bs here _ ih =>
    rw [List.findSome?_cons, List.findSome?_cons, same a b here]
    cases answer : f a with
    | none =>
      refine ⟨ih.1, fun c first => ?_⟩
      obtain ⟨a', b', partners, inside, inside', given, answered⟩ := ih.2 c first
      exact ⟨a', b', partners, List.mem_cons_of_mem _ inside, List.mem_cons_of_mem _ inside', given,
        answered⟩
    | some c =>
      refine ⟨fun never => (by cases never), fun c' first => ?_⟩
      cases first
      exact ⟨a, b, here, List.mem_cons_self, List.mem_cons_self, answer, rfl⟩

/-- What is read off in one way comes, in order, among what is read off in a more generous one. -/
theorem filterMap_sublist_filterMap {f g : α → Option β}
    (weaker : ∀ a ∈ as, ∀ b, f a = some b → g a = some b) :
    (as.filterMap f).Sublist (as.filterMap g) := by
  induction as with
  | nil => exact .slnil
  | cons a rest ih =>
    obtain ⟨here, others⟩ := List.forall_mem_cons.1 weaker
    cases first : f a with
    | none =>
      rw [List.filterMap_cons_none first]
      exact (ih others).trans ((List.sublist_cons_self a rest).filterMap g)
    | some b =>
      rw [List.filterMap_cons_some first, List.filterMap_cons_some (here b first)]
      exact (ih others).cons_cons b

/-- Without repetition, when no two members give the same. -/
theorem nodup_filterMap_of_forall {f : α → Option β} (distinct : as.Nodup)
    (apart : ∀ a ∈ as, ∀ a' ∈ as, ∀ b, f a = some b → f a' = some b → a = a') :
    (as.filterMap f).Nodup := by
  apply List.pairwise_filterMap.2
  apply distinct.imp_of_mem
  rintro a a' member member' different b here _ here' rfl
  exact different (apart a member a' member' b here here')

theorem mem_dropLast_of_getElem? {k : Nat} {a : α} (found : as[k]? = some a)
    (inner : k + 1 < as.length) : a ∈ as.dropLast := by
  have kept : k < as.length - 1 := by omega
  apply List.mem_of_getElem? (i := k)
  rw [List.getElem?_dropLast, if_pos kept, found]

end ClosureIR
