import ClosureIR.Operand.Substitution
import ClosureIR.Proofs.Nesting

/-!
# Substitutions in a row

Two substitutions, one after the other, are one: every replacement of the first
has the second carried out in it, and what the first leaves alone is left to the
second.  A second pass of one map changes nothing when its replacements hold no
variable that it maps.
-/

namespace ClosureIR

/-! ## Maps laid over maps -/

section Laid

universe u v w

variable {κ : Type u} {α : Type v} {β : Type w} [DecidableEq κ]

namespace Entries

theorem find?_eq_none_iff {key : κ} {entries : List (κ × α)} :
    find? key entries = none ↔ key ∉ entries.map (·.1) := by
  induction entries with
  | nil => simp [find?]
  | cons entry rest ih =>
    by_cases equal : entry.1 = key
    · simp [find?, equal]
    · simp [find?, equal, Ne.symm equal, ih]

/-- Write what `f` makes of the entries into `lower`; an entry of which it makes nothing is skipped. -/
def laidOver (f : α → Option β) (lower : Dict κ β) : List (κ × α) → Dict κ β
  | [] => lower
  | (key, value) :: rest =>
    match f value with
    | some new => (laidOver f lower rest).insert key new
    | none => laidOver f lower rest

theorem get?_laidOver (f : α → Option β) (lower : Dict κ β) {entries : List (κ × α)}
    (distinct : (entries.map (·.1)).Nodup) (key : κ) :
    (laidOver f lower entries).get? key = ((find? key entries).bind f).or (lower.get? key) := by
  induction entries with
  | nil => simp [laidOver, find?]
  | cons entry rest ih =>
    obtain ⟨head, value⟩ := entry
    obtain ⟨fresh, tail⟩ := List.nodup_cons.1 distinct
    have below := ih tail
    cases made : f value with
    | some new =>
      by_cases equal : head = key
      · subst equal
        simp [laidOver, find?, made]
      · simp [laidOver, find?, made, equal, Ne.symm equal, Dict.get?_insert_of_ne, below]
    | none =>
      by_cases equal : head = key
      · subst equal
        -- The key stands here alone, and what is below it does not count.
        rw [find?_eq_none_iff.2 fresh] at below
        simpa [laidOver, find?, made] using below
      · simpa [laidOver, find?, made, equal] using below

end Entries

/-- What `f` makes of the values of `upper`, and the values of `lower` for all other keys. -/
def Dict.laidOver (f : α → Option β) (upper : Dict κ α) (lower : Dict κ β) : Dict κ β :=
  Entries.laidOver f lower upper.entries

theorem Dict.get?_laidOver (f : α → Option β) (upper : Dict κ α) (lower : Dict κ β) (key : κ) :
    (upper.laidOver f lower).get? key = ((upper.get? key).bind f).or (lower.get? key) :=
  Entries.get?_laidOver f lower upper.distinct key

end Laid

/-! ## Replacements -/

namespace ValueMap

variable {map : ValueMap} {force : Bool} {v : Variable} {o : Operand}

theorem replacement?_eq_some_iff :
    map.replacement? force v = some o ↔
      map.get? (.var v) = some o ∧ (force || o.propagates) = true := by
  unfold replacement?
  cases map.get? (.var v) with
  | none => simp
  | some new =>
    by_cases may : (force || new.propagates) = true
    · simp only [if_pos may, Option.some.injEq]
      exact ⟨fun same => ⟨same, same ▸ may⟩, And.left⟩
    · simp only [if_neg may, Option.some.injEq, reduceCtorEq, false_iff, not_and]
      rintro rfl
      exact may

theorem get?_of_replacement? (given : map.replacement? force v = some o) :
    map.get? (.var v) = some o :=
  (replacement?_eq_some_iff.1 given).1

theorem propagates_of_replacement? (given : map.replacement? force v = some o) :
    (force || o.propagates) = true :=
  (replacement?_eq_some_iff.1 given).2

end ValueMap

/-! ## Operands by their parts -/

namespace Operand

/-- What holds of operands without parts, and of others if it holds of their parts, holds of all. -/
@[elab_as_elim]
theorem parts_induction {P : Operand → Prop} (nil : P .nil) (boolean : ∀ b, P (.boolean b))
    (fixnum : ∀ n, P (.fixnum n)) (string : ∀ s, P (.string s)) (symbol : ∀ s, P (.symbol s))
    (self : P .self) (var : ∀ v, P (.var v)) (label : ∀ l, P (.label l))
    (splat : ∀ inner, P inner → P (.splat inner))
    (array : ∀ elements, (∀ o ∈ elements, P o) → P (.array elements))
    (closure : ∀ id, P (.closure id)) : ∀ o, P o
  | .nil => nil
  | .boolean b => boolean b
  | .fixnum n => fixnum n
  | .string s => string s
  | .symbol s => symbol s
  | .self => self
  | .var v => var v
  | .label l => label l
  | .splat inner => splat inner
      (parts_induction nil boolean fixnum string symbol self var label splat array closure inner)
  | .array elements => array elements fun o _ =>
      parts_induction nil boolean fixnum string symbol self var label splat array closure o
  | .closure id => closure id

variable {map map' : ValueMap} {force : Bool}

/-- Only the variables in an operand matter to a substitution. -/
theorem simplified_congr {o : Operand}
    (same : ∀ v ∈ o.vars, map.replacement? force v = map'.replacement? force v) :
    o.simplified map force = o.simplified map' force := by
  induction o using parts_induction with
  | var v => rw [simplified_var, simplified_var, same v (by simp)]
  | splat inner ih => rw [simplified_splat, simplified_splat, ih (by simpa using same)]
  | array elements ih =>
    rw [vars_array, List.forall_mem_flatMap] at same
    rw [simplified_array, simplified_array, List.map_congr_left fun o member => ih o member (same o member)]
  | _ => rfl

theorem simplified_empty (o : Operand) : o.simplified ∅ force = o := by
  induction o using parts_induction with
  | array elements ih => rw [simplified_array, List.map_congr_left ih, List.map_id']
  | splat inner ih => rw [simplified_splat, ih]
  | _ => rfl

/-- An operand stays as it is when none of its variables gives way. -/
theorem simplified_eq_self {o : Operand} (fixed : ∀ v ∈ o.vars, map.replacement? force v = none) :
    o.simplified map force = o := by
  have same : o.simplified map force = o.simplified ∅ force := simplified_congr fixed
  rw [same, simplified_empty]

/-- What may take the place of a variable may still do so after a substitution in it. -/
theorem propagates_simplified {o : Operand} (may : (force || o.propagates) = true) :
    (force || (o.simplified map force).propagates) = true := by
  cases o with
  | var v =>
    rw [simplified_var]
    cases given : map.replacement? force v with
    | none => exact may
    | some new => exact ValueMap.propagates_of_replacement? given
  | splat inner =>
    rw [simplified_splat]
    exact may
  | array elements =>
    rw [simplified_array]
    exact may
  | _ => exact may

end Operand

namespace ValueMap

/-- The one map that does what `first` does and then `second`. -/
def andThen (first second : ValueMap) (force : Bool) : ValueMap :=
  first.laidOver (fun o => if force || o.propagates then some (o.simplified second force) else none)
    second

variable {first second : ValueMap} {force : Bool}

/-- A variable that gives way to `o` at first gives way to what becomes of `o` next. -/
theorem get?_andThen (first second : ValueMap) (force : Bool) (v : Variable) :
    (first.andThen second force).get? (.var v) =
      match first.replacement? force v with
      | some o => some (o.simplified second force)
      | none => second.get? (.var v) := by
  rw [andThen, Dict.get?_laidOver, replacement?]
  cases first.get? (.var v) with
  | none => rfl
  | some o =>
    by_cases may : (force || o.propagates) = true
    · simp only [Option.bind_some, if_pos may, Option.some_or]
    · simp only [Option.bind_some, if_neg may, Option.none_or]

/-- Nothing that gave way before stays. -/
theorem replacement?_andThen (first second : ValueMap) (force : Bool) (v : Variable) :
    (first.andThen second force).replacement? force v =
      match first.replacement? force v with
      | some o => some (o.simplified second force)
      | none => second.replacement? force v := by
  rw [replacement?, get?_andThen]
  cases given : first.replacement? force v with
  | none => rfl
  | some o => exact if_pos (Operand.propagates_simplified (propagates_of_replacement? given))

end ValueMap

namespace Operand

/-- Two substitutions one after the other are one. -/
theorem simplified_simplified (first second : ValueMap) (force : Bool) (o : Operand) :
    (o.simplified first force).simplified second force =
      o.simplified (first.andThen second force) force := by
  induction o using parts_induction with
  | var v =>
    rw [simplified_var, simplified_var, ValueMap.replacement?_andThen]
    cases first.replacement? force v with
    | none => rw [Option.getD_none, simplified_var]
    | some o => rfl
  | splat inner ih => rw [simplified_splat, simplified_splat, simplified_splat, ih]
  | array elements ih =>
    rw [simplified_array, simplified_array, simplified_array, List.map_map]
    exact congrArg array (List.map_congr_left ih)
  | _ => rfl

/-- A second pass finds nothing to do in replacements in which nothing gives way. -/
theorem simplified_again {map : ValueMap} {force : Bool}
    (settled : ∀ v new, map.replacement? force v = some new →
      ∀ w ∈ new.vars, map.replacement? force w = none) (o : Operand) :
    (o.simplified map force).simplified map force = o.simplified map force := by
  rw [simplified_simplified]
  refine simplified_congr fun v _ => ?_
  rw [ValueMap.replacement?_andThen]
  cases given : map.replacement? force v with
  | none => rfl
  | some new => exact congrArg some (simplified_eq_self (settled v new given))

/--
One substitution after another is a single one: a variable goes to what the
second makes of its replacement, where the first has one, and otherwise to what
the second has for it.  A map by which no replacement holds a mapped variable
has done its work after one pass.
-/
theorem simplified_andThen (first second : ValueMap) (force : Bool) :
    (∀ v, (first.andThen second force).get? (.var v) =
      match first.replacement? force v with
      | some new => some (new.simplified second force)
      | none => second.get? (.var v)) ∧
    (∀ o : Operand, (o.simplified first force).simplified second force =
      o.simplified (first.andThen second force) force) ∧
    ((∀ v new, first.get? (.var v) = some new → ∀ w ∈ new.vars, first.get? (.var w) = none) →
      ∀ o : Operand, (o.simplified first force).simplified first force =
        o.simplified first force) := by
  refine ⟨first.get?_andThen second force, simplified_simplified first second force, ?_⟩
  intro settled
  apply simplified_again
  intro v new given w inside
  have mapped := settled v new (ValueMap.get?_of_replacement? given) w inside
  rw [ValueMap.replacement?, mapped]

/-- With the one entry that puts a splat of `b` for `a`, forced, no pass after the first does anything. -/
theorem simplified_andThen_of_splat :
    let a : Variable := .ofTemp ⟨⟨0⟩, 0, .scope⟩
    let b : Variable := .ofTemp ⟨⟨0⟩, 1, .scope⟩
    let map : ValueMap := Dict.empty.insert (.var a) (.splat (.var b))
    let o := array [var a, splat (var a)]
    (∀ v new, map.get? (.var v) = some new → ∀ w ∈ new.vars, map.get? (.var w) = none) ∧
      o.simplified map true = array [splat (var b), splat (splat (var b))] ∧
      (o.simplified map true).simplified map true = o.simplified map true := by
  intro a b map o
  have settled : ∀ v new, map.get? (.var v) = some new →
      ∀ w ∈ new.vars, map.get? (.var w) = none := by
    intro v new given w inside
    rw [Dict.get?_insert] at given
    split at given
    · cases given
      rw [vars_splat, vars_var, List.mem_singleton] at inside
      subst inside
      have apart : var b ≠ var a := by simp [a, b]
      exact Dict.get?_insert_of_ne .empty (.splat (.var b)) apart
    · cases given
  have replaced : map.replacement? true a = some (splat (var b)) := by
    simp [ValueMap.replacement?, map]
  exact ⟨settled, by simp [o, replaced], (simplified_andThen map ∅ true).2.2 settled o⟩

end Operand

end ClosureIR
