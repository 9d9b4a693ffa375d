/-!
# Finite maps

A map is an association list whose keys are distinct and stand in the order in
which they first arrived.  Writing a key changes what that key reads and
nothing else.
-/

namespace ClosureIR

universe u v w

namespace Entries

variable {κ : Type u} {α : Type v} {β : Type w} [DecidableEq κ]

def find? (key : κ) : List (κ × α) → Option α
  | [] => none
  | (other, value) :: rest => if other = key then some value else find? key rest

/-- Overwrite the value of `key` where it stands, or add it at the end. -/
def assign (key : κ) (value : α) : List (κ × α) → List (κ × α)
  | [] => [(key, value)]
  | (other, previous) :: rest =>
    if other = key then (key, value) :: rest
    else (other, previous) :: assign key value rest

theorem mem_keys_assign (key other : κ) (value : α) (entries : List (κ × α)) :
    other ∈ (assign key value entries).map (·.1) ↔
      other = key ∨ other ∈ entries.map (·.1) := by
  induction entries with
  | nil => simp [assign]
  | cons entry rest ih =>
    rcases entry with ⟨head, previous⟩
    by_cases equal : head = key
    · subst equal
      simp [assign]
    · simp only [assign, equal, if_false, List.map_cons, List.mem_cons, ih]
      constructor
      · rintro (h | h | h)
        · exact .inr (.inl h)
        · exact .inl h
        · exact .inr (.inr h)
      · rintro (h | h | h)
        · exact .inr (.inl h)
        · exact .inl h
        · exact .inr (.inr h)

theorem nodup_keys_assign (key : κ) (value : α) {entries : List (κ × α)}
    (distinct : (entries.map (·.1)).Nodup) :
    ((assign key value entries).map (·.1)).Nodup := by
  induction entries with
  | nil => simp [assign]
  | cons entry rest ih =>
    rcases entry with ⟨head, previous⟩
    obtain ⟨fresh, tail⟩ := List.nodup_cons.1 distinct
    by_cases equal : head = key
    · subst equal
      simpa [assign] using distinct
    · simp only [assign, equal, if_false, List.map_cons]
      refine List.nodup_cons.2 ⟨?_, ih tail⟩
      rw [mem_keys_assign]
      rintro (h | h)
      · exact equal h
      · exact fresh h

theorem find?_assign (key other : κ) (value : α) (entries : List (κ × α)) :
    find? other (assign key value entries) =
      if other = key then some value else find? other entries := by
  induction entries with
  | nil =>
    by_cases equal : other = key
    · simp [assign, find?, equal]
    · simp [assign, find?, equal, Ne.symm equal]
  | cons entry rest ih =>
    rcases entry with ⟨head, previous⟩
    by_cases same : head = key
    · subst same
      by_cases equal : other = head
      · simp [assign, find?, equal]
      · simp [assign, find?, equal, Ne.symm equal]
    · by_cases equal : other = key
      · subst equal
        simp [assign, find?, same, ih]
      · by_cases met : head = other
        · simp [assign, find?, equal, met]
        · simp [assign, find?, same, equal, met, ih]

/-- A new key comes last. -/
theorem assign_of_find?_eq_none (key : κ) (value : α) {entries : List (κ × α)}
    (fresh : find? key entries = none) : assign key value entries = entries ++ [(key, value)] := by
  induction entries with
  | nil => rfl
  | cons entry rest ih =>
    rcases entry with ⟨head, previous⟩
    by_cases equal : head = key
    · simp [find?, equal] at fresh
    · simp only [find?, equal, if_false] at fresh
      simp [assign, equal, ih fresh]

/-- Only the last of several values is kept. -/
theorem assign_assign (key : κ) (first second : α) (entries : List (κ × α)) :
    assign key second (assign key first entries) = assign key second entries := by
  induction entries with
  | nil => simp [assign]
  | cons entry rest ih =>
    rcases entry with ⟨head, previous⟩
    by_cases equal : head = key
    · simp [assign, equal]
    · simp [assign, equal, ih]

theorem find?_eq_some_iff {entries : List (κ × α)} (distinct : (entries.map (·.1)).Nodup) {key : κ}
    {value : α} : find? key entries = some value ↔ (key, value) ∈ entries := by
  induction entries with
  | nil => simp [find?]
  | cons entry rest ih =>
    rcases entry with ⟨head, first⟩
    obtain ⟨fresh, tail⟩ := List.nodup_cons.1 distinct
    by_cases equal : head = key
    · subst equal
      have elsewhere : (head, value) ∉ rest := fun member => fresh (List.mem_map.2 ⟨_, member, rfl⟩)
      simp [find?, elsewhere, eq_comm]
    · simp [find?, equal, Ne.symm equal, ih tail]

end Entries

/-- A finite map from `κ` to `α` with a fixed order of its entries. -/
structure Dict (κ : Type u) (α : Type v) where
  entries : List (κ × α)
  distinct : (entries.map (·.1)).Nodup
  deriving DecidableEq

namespace Dict

variable {κ : Type u} {α : Type v} {β : Type w}

def empty : Dict κ α := ⟨[], List.nodup_nil⟩

instance : EmptyCollection (Dict κ α) := ⟨empty⟩

instance : Inhabited (Dict κ α) := ⟨empty⟩

def size (d : Dict κ α) : Nat := d.entries.length

def isEmpty (d : Dict κ α) : Bool := d.entries.isEmpty

def values (d : Dict κ α) : List α := d.entries.map (·.2)

def mapValues (f : α → β) (d : Dict κ α) : Dict κ β where
  entries := d.entries.map fun entry => (entry.1, f entry.2)
  distinct := by simpa [Function.comp_def] using d.distinct

variable [DecidableEq κ]

def get? (d : Dict κ α) (key : κ) : Option α := Entries.find? key d.entries

def getD (d : Dict κ α) (key : κ) (fallback : α) : α := (d.get? key).getD fallback

def contains (d : Dict κ α) (key : κ) : Bool := (d.get? key).isSome

def insert (d : Dict κ α) (key : κ) (value : α) : Dict κ α :=
  ⟨Entries.assign key value d.entries, Entries.nodup_keys_assign key value d.distinct⟩

/-- The map of a list of pairs; a later pair wins over an earlier one with its key. -/
def ofList (pairs : List (κ × α)) : Dict κ α :=
  pairs.foldl (fun d pair => d.insert pair.1 pair.2) empty

@[simp] theorem get?_empty (key : κ) : (empty : Dict κ α).get? key = none := rfl

theorem get?_insert (d : Dict κ α) (key other : κ) (value : α) :
    (d.insert key value).get? other = if other = key then some value else d.get? other :=
  Entries.find?_assign key other value d.entries

@[simp] theorem get?_insert_self (d : Dict κ α) (key : κ) (value : α) :
    (d.insert key value).get? key = some value := by
  simp [get?_insert]

theorem get?_insert_of_ne (d : Dict κ α) {key other : κ} (value : α) (different : other ≠ key) :
    (d.insert key value).get? other = d.get? other := by
  simp [get?_insert, different]

@[simp] theorem insert_insert (d : Dict κ α) (key : κ) (first second : α) :
    (d.insert key first).insert key second = d.insert key second := by
  simp [insert, Entries.assign_assign]

theorem get?_eq_some_iff {d : Dict κ α} {key : κ} {value : α} :
    d.get? key = some value ↔ (key, value) ∈ d.entries :=
  Entries.find?_eq_some_iff d.distinct

/-- A new key brings a new value behind the others. -/
theorem values_insert {d : Dict κ α} {key : κ} (fresh : d.get? key = none) (value : α) :
    (d.insert key value).values = d.values ++ [value] := by
  simp [values, insert, Entries.assign_of_find?_eq_none key value fresh]

theorem mem_values_of_get? {d : Dict κ α} {key : κ} {value : α} (found : d.get? key = some value) :
    value ∈ d.values :=
  List.mem_map.2 ⟨(key, value), get?_eq_some_iff.1 found, rfl⟩

@[simp] theorem get?_mapValues (f : α → β) (d : Dict κ α) (key : κ) :
    (d.mapValues f).get? key = (d.get? key).map f := by
  rcases d with ⟨entries, distinct⟩
  simp only [get?, mapValues]
  clear distinct
  induction entries with
  | nil => rfl
  | cons entry rest ih =>
    rcases entry with ⟨head, value⟩
    by_cases equal : head = key
    · simp [Entries.find?, equal]
    · simpa [Entries.find?, equal] using ih

end Dict

end ClosureIR
