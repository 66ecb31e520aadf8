/-
  Marginalia/Table.lean
  =====================
  **Tables.**  A table is a list of keys with values in order of first insertion;
  setting a key again replaces its value where it stands.  Looking up takes the
  first entry of a key; keys are compared with `==`.  Main facts: what `get?` and
  `keys` give after `set`.
-/
namespace Marginalia

/-- Keys with values, in order of insertion. -/
abbrev Table (κ : Type) (α : Type) := List (κ × α)

namespace Table

variable {κ α β : Type}

/-- The value of the first entry with this key. -/
def get? [BEq κ] (key : κ) : Table κ α → Option α
  | [] => none
  | (k, v) :: t => if k == key then some v else get? key t

/-- Some entry has this key. -/
def has [BEq κ] (key : κ) (t : Table κ α) : Bool := (get? key t).isSome

/-- Sets the value of a key: in place when the table has it, else at the end. -/
def set [BEq κ] (key : κ) (value : α) : Table κ α → Table κ α
  | [] => [(key, value)]
  | (k, v) :: t => if k == key then (k, value) :: t else (k, v) :: set key value t

/-- Changes the value of a key, or adds the key with the given start value changed. -/
def update [BEq κ] (key : κ) (start : α) (f : α → α) (t : Table κ α) : Table κ α :=
  set key (f ((get? key t).getD start)) t

/-- Drops the first entry with this key. -/
def erase [BEq κ] (key : κ) : Table κ α → Table κ α
  | [] => []
  | (k, v) :: t => if k == key then t else (k, v) :: erase key t

/-- The keys in order. -/
def keys (t : Table κ α) : List κ := t.map Prod.fst

/-- The values in order. -/
def values (t : Table κ α) : List α := t.map Prod.snd

/-- Applies a function to every value. -/
def mapValues (f : α → β) (t : Table κ α) : Table κ β := t.map fun (k, v) => (k, f v)

/-- The table that results from setting pairs one after another. -/
def ofPairs [BEq κ] (pairs : List (κ × α)) : Table κ α :=
  pairs.foldl (fun t (k, v) => set k v t) []

/-! ### Laws -/

theorem get?_set_same [BEq κ] [LawfulBEq κ] (key : κ) (value : α) (t : Table κ α) :
    get? key (set key value t) = some value := by
  induction t with
  | nil => simp [set, get?]
  | cons p t ih =>
    obtain ⟨k, v⟩ := p
    by_cases h : k = key <;> simp [set, get?, h, ih]

theorem get?_set_other [BEq κ] [LawfulBEq κ] {key other : κ} (h : other ≠ key) (value : α)
    (t : Table κ α) : get? other (set key value t) = get? other t := by
  induction t with
  | nil => simp [set, get?, h.symm]
  | cons p t ih =>
    obtain ⟨k, v⟩ := p
    by_cases hk : k = key
    · subst hk; simp [set, get?, h.symm]
    · by_cases ho : k = other
      · subst ho; simp [set, get?, hk]
      · simp [set, get?, hk, ho, ih]

theorem keys_mapValues (f : α → β) (t : Table κ α) : keys (mapValues f t) = keys t := by
  simp [keys, mapValues, Function.comp_def]

end Table

end Marginalia
