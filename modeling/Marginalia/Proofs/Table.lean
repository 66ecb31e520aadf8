/-
  Marginalia/Proofs/Table.lean
  ============================
  **Laws of tables.**  What the keys of a table are after each operation, and when
  looking up a key finds the value of an entry.  `set` keeps keys distinct, so a
  table made by setting pairs has every key once, in the order in which the keys are
  met first (`keys_ofPairs`); if the keys of the pairs are distinct already, the table
  is the list of pairs.  Leaving out keys goes well with setting (`filter_ofPairs`).
  A table that gives each of its keys the value of a function (`tabulate`) stays one
  when a key is updated.
-/
import Marginalia.Table
import Mathlib.Data.List.Induction

namespace Marginalia

theorem eraseDups_concat {κ : Type} [BEq κ] [LawfulBEq κ] (l : List κ) (a : κ) :
    (l ++ [a]).eraseDups = if l.contains a then l.eraseDups else l.eraseDups ++ [a] := by
  rw [List.eraseDups_append]
  cases h : l.contains a <;> simp_all [List.removeAll, List.eraseDups_cons]

end Marginalia

namespace Marginalia.Table

variable {κ α : Type} [BEq κ] [LawfulBEq κ]

/-! ### Looking up -/

theorem get?_eq_none_iff {key : κ} {t : Table κ α} : get? key t = none ↔ key ∉ keys t := by
  induction t with
  | nil => simp [get?, keys]
  | cons p t ih =>
    obtain ⟨k, v⟩ := p
    simp only [keys] at ih
    by_cases h : k = key
    · simp [get?, keys, h]
    · simp [get?, keys, h, Ne.symm h, ih]

theorem mem_of_get?_eq_some {key : κ} {value : α} {t : Table κ α}
    (h : get? key t = some value) : (key, value) ∈ t := by
  induction t with
  | nil => simp [get?] at h
  | cons p t ih =>
    obtain ⟨k, v⟩ := p
    by_cases hk : k = key
    · simp [get?, hk] at h
      simp [hk, h]
    · simp only [get?, beq_iff_eq, hk, if_false] at h
      exact List.mem_cons_of_mem _ (ih h)

theorem get?_of_mem {t : Table κ α} (h : (keys t).Nodup) {p : κ × α} (hp : p ∈ t) :
    get? p.1 t = some p.2 := by
  induction t with
  | nil => simp at hp
  | cons q t ih =>
    obtain ⟨k, v⟩ := q
    obtain ⟨hk, ht⟩ := List.nodup_cons.mp h
    rcases List.mem_cons.mp hp with rfl | hmem
    · simp [get?]
    · have hne : k ≠ p.1 := by
        rintro rfl
        exact hk (List.mem_map.mpr ⟨p, hmem, rfl⟩)
      simp [get?, hne, ih ht hmem]

/-- With distinct keys it does not matter in which order the entries stand. -/
theorem get?_of_perm {t t' : Table κ α} (hkeys : (keys t).Nodup) (h : t.Perm t') (key : κ) :
    get? key t = get? key t' := by
  have hkeys' : (keys t').Nodup := (h.map Prod.fst).nodup_iff.mp hkeys
  ext value
  constructor
  · intro hget
    exact get?_of_mem hkeys' (h.mem_iff.mp (mem_of_get?_eq_some hget))
  · intro hget
    exact get?_of_mem hkeys (h.mem_iff.mpr (mem_of_get?_eq_some hget))

/-- Taking out a key does not change what is found under the others. -/
theorem get?_erase_other {key other : κ} (h : other ≠ key) (t : Table κ α) :
    get? other (erase key t) = get? other t := by
  induction t with
  | nil => rfl
  | cons p t ih =>
    obtain ⟨k, v⟩ := p
    by_cases hk : k = key
    · subst hk
      simp [erase, get?, Ne.symm h]
    · by_cases ho : k = other
      · simp [erase, get?, ho, h]
      · simp [erase, get?, hk, ho, ih]

theorem has_iff {key : κ} {t : Table κ α} : has key t = true ↔ key ∈ keys t := by
  rw [has, Option.isSome_iff_ne_none, ne_eq, get?_eq_none_iff, Decidable.not_not]

/-- Leaving out empty lists does not change what is found under a key, a missing key counting as
one with an empty list. -/
theorem getD_get?_filter_nonempty {β : Type} {t : Table κ (List β)} (h : (keys t).Nodup) (key : κ) :
    (get? key (t.filter fun p => !p.2.isEmpty)).getD [] = (get? key t).getD [] := by
  induction t with
  | nil => rfl
  | cons p t ih =>
    obtain ⟨k, l⟩ := p
    obtain ⟨hk, ht⟩ := List.nodup_cons.mp h
    by_cases hkey : k = key
    · subst hkey
      cases l with
      | nil =>
        have hnone : get? k t = none := get?_eq_none_iff.mpr hk
        simp [get?, ih ht, hnone]
      | cons x l => simp [get?]
    · cases l <;> simp [get?, hkey, ih ht]

/-- With distinct keys a condition on entries holds of what is found under a key, or nothing is. -/
theorem get?_filter {t : Table κ α} (h : (keys t).Nodup) (q : κ × α → Bool) (key : κ) :
    get? key (t.filter q) = (get? key t).filter fun v => q (key, v) := by
  induction t with
  | nil => rfl
  | cons p t ih =>
    obtain ⟨k, v⟩ := p
    obtain ⟨hk, ht⟩ := List.nodup_cons.mp h
    by_cases hkey : k = key
    · subst hkey
      have hnone : get? k t = none := get?_eq_none_iff.mpr hk
      cases hq : q (k, v) <;> simp [get?, hq, ih ht, hnone, Option.filter]
    · cases hq : q (k, v) <;> simp [get?, hq, hkey, ih ht]

/-! ### Setting -/

theorem set_of_not_mem {key : κ} {t : Table κ α} (h : key ∉ keys t) (value : α) :
    set key value t = t ++ [(key, value)] := by
  induction t with
  | nil => rfl
  | cons p t ih =>
    obtain ⟨k, v⟩ := p
    obtain ⟨hk, ht⟩ : ¬ key = k ∧ key ∉ keys t := by simpa [keys] using h
    simp [set, Ne.symm hk, ih ht]

theorem keys_set_of_mem {key : κ} {t : Table κ α} (h : key ∈ keys t) (value : α) :
    keys (set key value t) = keys t := by
  induction t with
  | nil => simp [keys] at h
  | cons p t ih =>
    obtain ⟨k, v⟩ := p
    by_cases hk : k = key
    · simp [set, keys, hk]
    · have ht : key ∈ keys t := by simpa [keys, Ne.symm hk] using h
      have := ih ht
      simp only [keys] at this
      simp [set, keys, hk, this]

theorem nodup_keys_set {key : κ} {t : Table κ α} (h : (keys t).Nodup) (value : α) :
    (keys (set key value t)).Nodup := by
  by_cases hk : key ∈ keys t
  · rwa [keys_set_of_mem hk]
  · have hkeys : keys (t ++ [(key, value)]) = keys t ++ [key] := by simp [keys]
    rw [set_of_not_mem hk, hkeys]
    refine List.nodup_append.mpr ⟨h, by simp, ?_⟩
    rintro x hx y hy rfl
    obtain rfl : x = key := by simpa using hy
    exact hk hx

/-- An entry after setting a key was there before or is the one set. -/
theorem mem_set {key : κ} {value : α} {t : Table κ α} {p : κ × α} (h : p ∈ set key value t) :
    p ∈ t ∨ p = (key, value) := by
  induction t with
  | nil => exact .inr (by simpa [set] using h)
  | cons q t ih =>
    obtain ⟨k, v⟩ := q
    by_cases hk : k = key
    · simp only [set, beq_iff_eq, hk, if_true, List.mem_cons] at h
      rcases h with rfl | h
      · exact .inr rfl
      · exact .inl (List.mem_cons_of_mem _ h)
    · simp only [set, beq_iff_eq, hk, if_false, List.mem_cons] at h
      rcases h with rfl | h
      · exact .inl List.mem_cons_self
      · exact (ih h).imp_left (List.mem_cons_of_mem _)

/-! ### Setting pairs one after another -/

theorem nodup_keys_ofPairs (pairs : List (κ × α)) : (keys (ofPairs pairs)).Nodup := by
  have hfold : ∀ (pairs : List (κ × α)) (t : Table κ α), (keys t).Nodup →
      (keys (pairs.foldl (fun t p => set p.1 p.2 t) t)).Nodup := by
    intro pairs
    induction pairs with
    | nil => intro t h; exact h
    | cons p pairs ih => intro t h; exact ih _ (nodup_keys_set h p.2)
  exact hfold pairs [] List.nodup_nil

theorem mem_of_mem_ofPairs {pairs : List (κ × α)} {p : κ × α} (h : p ∈ ofPairs pairs) :
    p ∈ pairs := by
  have hfold : ∀ (pairs : List (κ × α)) (t : Table κ α),
      p ∈ pairs.foldl (fun t p => set p.1 p.2 t) t → p ∈ t ∨ p ∈ pairs := by
    intro pairs
    induction pairs with
    | nil => intro t h; exact .inl h
    | cons q pairs ih =>
      intro t h
      rcases ih _ h with h | h
      · rcases mem_set h with h | rfl
        · exact .inl h
        · exact .inr List.mem_cons_self
      · exact .inr (List.mem_cons_of_mem _ h)
  exact (hfold pairs [] h).resolve_left List.not_mem_nil

/-- Pairs with distinct keys are the table that results from setting them. -/
theorem ofPairs_of_nodup {pairs : List (κ × α)} (h : (keys pairs).Nodup) :
    ofPairs pairs = pairs := by
  have hfold : ∀ (pairs : List (κ × α)) (t : Table κ α), (keys (t ++ pairs)).Nodup →
      pairs.foldl (fun t p => set p.1 p.2 t) t = t ++ pairs := by
    intro pairs
    induction pairs with
    | nil => intro t _; simp
    | cons p pairs ih =>
      intro t h
      have hp : p.1 ∉ keys t := by
        intro hmem
        rw [keys, List.map_append] at h
        exact (List.nodup_append.mp h).2.2 _ hmem _ (by simp) rfl
      rw [List.foldl_cons, set_of_not_mem hp, ih]
      · simp
      · simpa using h
  exact hfold pairs [] h

/-- Under every key stands the value of its last pair. -/
theorem get?_ofPairs (pairs : List (κ × α)) (key : κ) :
    get? key (ofPairs pairs) = (pairs.filter fun p => p.1 == key).getLast?.map Prod.snd := by
  have hfold : ∀ (pairs : List (κ × α)) (t : Table κ α),
      get? key (pairs.foldl (fun t p => set p.1 p.2 t) t) =
        ((pairs.filter fun p => p.1 == key).getLast?.map Prod.snd).or (get? key t) := by
    intro pairs
    induction pairs with
    | nil => intro t; rfl
    | cons p pairs ih =>
      intro t
      rw [List.foldl_cons, ih]
      by_cases hp : p.1 = key
      · subst hp
        rw [get?_set_same]
        cases hlast : (pairs.filter fun q => q.1 == p.1).getLast? with
        | none => simp [List.getLast?_cons, hlast]
        | some q => simp [List.getLast?_cons, hlast]
      · simp [get?_set_other (Ne.symm hp), hp]
  exact (hfold pairs []).trans Option.or_none

omit [LawfulBEq κ] in
theorem ofPairs_concat (pairs : List (κ × α)) (p : κ × α) :
    ofPairs (pairs ++ [p]) = set p.1 p.2 (ofPairs pairs) := by
  rw [ofPairs, List.foldl_append]
  rfl

/-- The keys stand in the order in which they are met first. -/
theorem keys_ofPairs (pairs : List (κ × α)) : keys (ofPairs pairs) = (keys pairs).eraseDups := by
  induction pairs using List.reverseRecOn with
  | nil => rfl
  | append_singleton pairs p ih =>
    have hkeys : keys (pairs ++ [p]) = keys pairs ++ [p.1] := List.map_append
    rw [ofPairs_concat, hkeys, eraseDups_concat, ← ih]
    by_cases hp : p.1 ∈ keys pairs
    · have hmem : p.1 ∈ keys (ofPairs pairs) := by rwa [ih, List.mem_eraseDups]
      rw [keys_set_of_mem hmem, if_pos (List.contains_iff_mem.mpr hp)]
    · have hnew : p.1 ∉ keys (ofPairs pairs) := by rwa [ih, List.mem_eraseDups]
      rw [set_of_not_mem hnew, if_neg (mt List.contains_iff_mem.mp hp)]
      exact List.map_append

theorem filter_set (keep : κ → Bool) (key : κ) (value : α) (t : Table κ α) :
    ((set key value t).filter fun p => keep p.1) =
      if keep key then set key value (t.filter fun p => keep p.1)
      else t.filter fun p => keep p.1 := by
  induction t with
  | nil => cases hkey : keep key <;> simp [set, hkey]
  | cons p t ih =>
    obtain ⟨k, v⟩ := p
    by_cases hk : k = key
    · subst hk
      cases hkeep : keep k <;> simp [set, hkeep]
    · cases hkeep : keep k <;> cases hkey : keep key <;> simp_all [set]

/-- Leaving out keys may be done before or after setting. -/
theorem filter_ofPairs (keep : κ → Bool) (pairs : List (κ × α)) :
    ((ofPairs pairs).filter fun p => keep p.1) = ofPairs (pairs.filter fun p => keep p.1) := by
  induction pairs using List.reverseRecOn with
  | nil => rfl
  | append_singleton pairs p ih =>
    rw [ofPairs_concat, filter_set, ih, List.filter_append]
    cases hp : keep p.1 with
    | false => simp [hp]
    | true =>
      have hlast : [p].filter (fun p => keep p.1) = [p] := by simp [hp]
      rw [hlast, ofPairs_concat, if_pos rfl]

/-! ### Tables of a function -/

/-- The table with a value for each of the keys. -/
def tabulate (keys : List κ) (f : κ → α) : Table κ α := keys.map fun k => (k, f k)

omit [BEq κ] [LawfulBEq κ] in
theorem keys_tabulate (ks : List κ) (f : κ → α) : keys (tabulate ks f) = ks := by
  simp [keys, tabulate, Function.comp_def]

theorem get?_tabulate {key : κ} {ks : List κ} (h : key ∈ ks) (f : κ → α) :
    get? key (tabulate ks f) = some (f key) := by
  induction ks with
  | nil => simp at h
  | cons k ks ih =>
    by_cases hk : k = key
    · simp [tabulate, get?, hk]
    · have hks : key ∈ ks := by simpa [Ne.symm hk] using h
      have := ih hks
      simp only [tabulate] at this
      simp [tabulate, get?, hk, this]

theorem set_tabulate {key : κ} {ks : List κ} (hnodup : ks.Nodup) (h : key ∈ ks) (f : κ → α)
    (value : α) :
    set key value (tabulate ks f) = tabulate ks fun k => if k == key then value else f k := by
  induction ks with
  | nil => simp at h
  | cons k ks ih =>
    obtain ⟨hk, hks⟩ := List.nodup_cons.mp hnodup
    by_cases hkey : k = key
    · -- the other keys differ from this one, so their values stay
      subst hkey
      have hrest : ∀ x ∈ ks, (x, f x) = (x, if x == k then value else f x) := by
        intro x hx
        have hne : x ≠ k := by rintro rfl; exact hk hx
        simp [hne]
      simp only [tabulate, List.map_cons, set, beq_self_eq_true, if_true]
      rw [List.map_congr_left hrest]
    · have hks' : key ∈ ks := by simpa [Ne.symm hkey] using h
      have := ih hks hks'
      simp only [tabulate] at this
      simp [tabulate, set, hkey, this]

/-- Changing the value of a key in the table of a function changes the function there. -/
theorem update_tabulate {key : κ} {ks : List κ} (hnodup : ks.Nodup) (h : key ∈ ks) (f : κ → α)
    (start : α) (g : α → α) :
    update key start g (tabulate ks f) =
      tabulate ks fun k => if k == key then g (f k) else f k := by
  rw [update, get?_tabulate h, set_tabulate hnodup h]
  apply List.map_congr_left
  intro k _
  by_cases hk : k = key <;> simp [hk]

/-! ### Changing all values -/

omit [LawfulBEq κ] in
theorem get?_mapValues {β : Type} (f : α → β) (key : κ) (t : Table κ α) :
    get? key (mapValues f t) = (get? key t).map f := by
  induction t with
  | nil => rfl
  | cons p t ih =>
    obtain ⟨k, v⟩ := p
    simp only [mapValues] at ih
    simp only [mapValues, List.map_cons, get?, ih]
    split <;> rfl

omit [LawfulBEq κ] in
theorem erase_mapValues {β : Type} (f : α → β) (key : κ) (t : Table κ α) :
    erase key (mapValues f t) = mapValues f (erase key t) := by
  induction t with
  | nil => rfl
  | cons p t ih =>
    obtain ⟨k, v⟩ := p
    simp only [mapValues] at ih
    simp only [mapValues, List.map_cons, erase, ih]
    split <;> rfl

/-! ### Values that may be missing -/

/-- Keeping the values that are there, what is found under a key is the value that is there. -/
theorem get?_filterMap_some {t : Table κ (Option α)} (h : (keys t).Nodup) (key : κ) :
    get? key (t.filterMap fun p => p.2.map (p.1, ·)) = (get? key t).join := by
  induction t with
  | nil => rfl
  | cons p t ih =>
    obtain ⟨k, v⟩ := p
    obtain ⟨hk, ht⟩ := List.nodup_cons.mp h
    cases v with
    | none =>
      by_cases hkey : k = key
      · -- no later entry has the key that was left out
        subst hkey
        have hnone : get? k t = none := get?_eq_none_iff.mpr hk
        simp [get?, ih ht, hnone]
      · simp [get?, hkey, ih ht]
    | some v => by_cases hkey : k = key <;> simp [get?, hkey, ih ht]

omit [BEq κ] [LawfulBEq κ] in
theorem keys_filterMap_some_sublist (t : Table κ (Option α)) :
    (keys (t.filterMap fun p => p.2.map (p.1, ·))).Sublist (keys t) := by
  induction t with
  | nil => exact .slnil
  | cons p t ih =>
    obtain ⟨k, v⟩ := p
    cases v with
    | none => exact ih.cons k
    | some v => exact ih.cons_cons k

/-! ### Changing some values and leaving out others -/

theorem get?_filterMap {β : Type} {t : Table κ α} (h : (keys t).Nodup) (f : α → Option β)
    (key : κ) : get? key (t.filterMap fun p => (f p.2).map (p.1, ·)) = (get? key t).bind f := by
  have hvalues : (t.filterMap fun p => (f p.2).map (p.1, ·)) =
      (mapValues f t).filterMap fun p => p.2.map (p.1, ·) := by
    rw [mapValues, List.filterMap_map]
    rfl
  have hkeys : (keys (mapValues f t)).Nodup := by rwa [keys_mapValues]
  rw [hvalues, get?_filterMap_some hkeys, get?_mapValues]
  cases get? key t <;> rfl

/-- The keys that are left are those with a value, in order. -/
theorem keys_filterMap {β : Type} {t : Table κ α} (h : (keys t).Nodup) (f : α → Option β) :
    keys (t.filterMap fun p => (f p.2).map (p.1, ·)) =
      (keys t).filter fun key => ((get? key t).bind f).isSome := by
  induction t with
  | nil => rfl
  | cons p t ih =>
    obtain ⟨k, v⟩ := p
    obtain ⟨hk, ht⟩ := List.nodup_cons.mp h
    have hrest : ((keys t).filter fun key => ((get? key ((k, v) :: t)).bind f).isSome) =
        (keys t).filter fun key => ((get? key t).bind f).isSome := by
      apply List.filter_congr
      intro key hkey
      have hne : k ≠ key := by
        rintro rfl
        exact hk hkey
      simp [get?, hne]
    have hkeys : keys ((k, v) :: t) = k :: keys t := rfl
    rw [hkeys, List.filter_cons, hrest, ← ih ht]
    cases hv : f v <;> simp [get?, hv, keys]

end Marginalia.Table
