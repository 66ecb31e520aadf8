/-
  Marginalia/Proofs/Record/Independence.lean
  ==========================================
  **Places are filled independently.**  What a run of fields leaves at a place is what
  the fields of that place alone leave there (`Record.only_of_writeFields_among`), so
  two runs with the same fields for every place end in the same record: fields of
  different places can be reordered, and fields that are not understood (`isIgnored`)
  can be left out.  No field takes away what stands at a place
  (`Record.only_ne_empty_of_writeField`).

  A run can fail, and the fields alone decide whether it does
  (`exists_writeFields_of_subset`), so what is taken out of a run that ends well ends
  well too, from any record.
-/
import Marginalia.Proofs.Extract.Faults
import Marginalia.Proofs.Record.Place

namespace Marginalia

open Marginalia.Text Marginalia.Literal Marginalia.Extract

/-! ### The fields of one place -/

theorem Place.mem_among {p : Place} {fields : List (List Char × List Char)}
    {f : List Char × List Char} : f ∈ p.among fields ↔ f ∈ fields ∧ placeOf? f.1 = some p := by
  simp [Place.among]

theorem Place.among_among_self (p : Place) (fields : List (List Char × List Char)) :
    p.among (p.among fields) = p.among fields := by
  simp [Place.among]

theorem Place.among_among_of_ne {p q : Place} (hne : q ≠ p)
    (fields : List (List Char × List Char)) : q.among (p.among fields) = [] := by
  rw [List.eq_nil_iff_forall_not_mem]
  intro f hf
  obtain ⟨hf, hq⟩ := mem_among.mp hf
  obtain ⟨_, hp⟩ := mem_among.mp hf
  exact hne (Option.some.inj (hq.symm.trans hp))

section Run

variable {r r' : Record} {fields : List (List Char × List Char)}

/-- Runs from one record end alike at a place for which they have the same fields. -/
theorem Record.only_eq_of_among_eq {s : Record} {fields' : List (List Char × List Char)}
    {p : Place} (h : r.writeFields fields = .ok r') (h' : r.writeFields fields' = .ok s)
    (hsame : p.among fields' = p.among fields) : s.only p = r'.only p := by
  have hrun := Record.writeFields_only (p := p) h
  have hrun' := Record.writeFields_only (p := p) h'
  rw [hsame, hrun] at hrun'
  exact (Except.ok.inj hrun').symm

/-- The fields of one place alone do there what the whole run does, and nothing elsewhere. -/
theorem Record.only_of_writeFields_among (h : r.writeFields fields = .ok r') (p : Place) :
    ∃ s, r.writeFields (p.among fields) = .ok s ∧ s.only p = r'.only p ∧
      ∀ q, q ≠ p → s.only q = r.only q := by
  obtain ⟨s, hs⟩ := exists_writeFields_of_subset h (fun f hf => (Place.mem_among.mp hf).1) r
  refine ⟨s, hs, Record.only_eq_of_among_eq h hs (Place.among_among_self p fields), ?_⟩
  intro q hq
  have hidle := Record.writeFields_only (p := q) hs
  rw [Place.among_among_of_ne hq] at hidle
  exact (Except.ok.inj hidle).symm

/-- Only the fields of each place and their order count. -/
theorem Record.writeFields_of_among_eq {fields' : List (List Char × List Char)}
    (h : r.writeFields fields = .ok r') (hsame : ∀ p : Place, p.among fields' = p.among fields) :
    r.writeFields fields' = .ok r' := by
  have hshort : ∀ f ∈ fields', isOverlong f = false := by
    intro f hf
    -- an overlong field is a phase, and the phases are among the fields of the other run
    cases hplace : placeOf? f.1 with
    | none =>
      have hkey : FieldKey.ofText? f.1 = none := Option.map_eq_none_iff.mp hplace
      simp [isOverlong, hkey]
    | some p =>
      have hmem : f ∈ p.among fields' := Place.mem_among.mpr ⟨hf, hplace⟩
      rw [hsame] at hmem
      exact forall_not_isOverlong h f (Place.mem_among.mp hmem).1
  obtain ⟨s, hs⟩ := (outcome_writeFields r fields').eq_ok (by simpa using hshort)
  have hends : s = r' := Record.ext_only fun p => Record.only_eq_of_among_eq h hs (hsame p)
  rw [hs, hends]

end Run

/-! ### Fields that are not understood -/

/-- The key is unknown, or the value is not one that a visibility, a status or a phase can have. -/
def isIgnored (f : List Char × List Char) : Bool :=
  match FieldKey.ofText? f.1 with
  | none => true
  | some .visibility => (Visibility.ofName? (scalarOf f.2)).isNone
  | some .status => (Status.ofName? (scalarOf f.2)).isNone
  | some .phase =>
    match leadingInt? (unquoted f.2) with
    | .ok none => true
    | _ => false
  | some _ => false

theorem Record.writeField_of_isIgnored {f : List Char × List Char} (h : isIgnored f = true)
    (r : Record) : r.writeField f.1 f.2 = .ok r := by
  unfold isIgnored at h
  unfold Record.writeField
  split at h
  · rename_i hkey
    rw [hkey]
  · rename_i hkey
    rw [Option.isNone_iff_eq_none] at h
    simp [hkey, Record.apply, h]
  · rename_i hkey
    rw [Option.isNone_iff_eq_none] at h
    simp [hkey, Record.apply, h]
  · rename_i hkey
    split at h
    · rename_i hnumber
      simp [hkey, Record.apply, hnumber, Except.map]
    · cases h
  · cases h

theorem Record.writeFields_filter_not_isIgnored {r r' : Record}
    {fields : List (List Char × List Char)} (h : r.writeFields fields = .ok r') :
    r.writeFields (fields.filter fun f => !isIgnored f) = .ok r' := by
  induction fields generalizing r with
  | nil => exact h
  | cons f fields ih =>
    rw [Record.writeFields_cons] at h
    obtain ⟨s, hs, hrest⟩ := bind_eq_ok.mp h
    cases hf : isIgnored f with
    | true =>
      rw [Record.writeField_of_isIgnored hf] at hs
      obtain rfl := Except.ok.inj hs
      rw [List.filter_cons_of_neg (by simp [hf])]
      exact ih hrest
    | false =>
      rw [List.filter_cons_of_pos (by simp [hf]), Record.writeFields_cons, hs]
      exact ih hrest

/-! ### Places that are filled -/

theorem Record.only_ne_empty_of_apply {r r' : Record} {k : FieldKey} {value : List Char}
    (h : r.apply k value = .ok r') (hfilled : r.only k.place ≠ .empty) :
    r'.only k.place ≠ .empty := by
  cases k with
  | phase =>
    obtain ⟨n, _, rfl⟩ := Record.apply_phase_eq_ok h
    cases n with
    | none => simpa [Record.only] using hfilled
    | some n => simp [Record.only, FieldKey.place, Record.empty]
  | visibility =>
    obtain rfl := Except.ok.inj h
    cases hv : Visibility.ofName? (scalarOf value) with
    | none => simpa [Record.only, hv] using hfilled
    | some v => simp [Record.only, FieldKey.place, Record.empty]
  | status =>
    obtain rfl := Except.ok.inj h
    cases hs : Status.ofName? (scalarOf value) with
    | none => simpa [Record.only, hs] using hfilled
    | some s => simp [Record.only, FieldKey.place, Record.empty]
  | _ =>
    obtain rfl := Except.ok.inj h
    simp [Record.only, FieldKey.place, Record.empty]

theorem Record.only_ne_empty_of_writeField {r r' : Record} {key value : List Char} {p : Place}
    (h : r.writeField key value = .ok r') (hfilled : r.only p ≠ .empty) : r'.only p ≠ .empty := by
  rcases Record.writeField_cases h with ⟨_, rfl⟩ | ⟨k, _, _, happly⟩
  · exact hfilled
  · by_cases hk : k.place = p
    · subst hk
      exact Record.only_ne_empty_of_apply happly hfilled
    · rwa [Record.only_of_apply_other happly hk]

theorem Record.only_ne_empty_of_writeFields {r r' : Record} {fields : List (List Char × List Char)}
    {p : Place} (h : r.writeFields fields = .ok r') (hfilled : r.only p ≠ .empty) :
    r'.only p ≠ .empty := by
  induction fields generalizing r with
  | nil =>
    obtain rfl := Except.ok.inj h
    exact hfilled
  | cons f fields ih =>
    rw [Record.writeFields_cons] at h
    obtain ⟨s, hs, hrest⟩ := bind_eq_ok.mp h
    exact ih hrest (Record.only_ne_empty_of_writeField hs hfilled)

/-- After a run of fields every place holds what the fields of that place alone leave there, and
these change no other place.  So the order of fields of different places does not matter; fields
that are not understood change nothing and can be left out; and a place that is filled stays
filled. -/
theorem Record.writeFields_independent {r r' : Record} {fields : List (List Char × List Char)}
    (h : r.writeFields fields = .ok r') :
    (∀ p : Place, ∃ s, r.writeFields (p.among fields) = .ok s ∧ s.only p = r'.only p ∧
      ∀ q, q ≠ p → s.only q = r.only q) ∧
    (∀ fields', (∀ p : Place, p.among fields' = p.among fields) →
      r.writeFields fields' = .ok r') ∧
    (∀ f ∈ fields, isIgnored f = true → ∀ s : Record, s.writeField f.1 f.2 = .ok s) ∧
    r.writeFields (fields.filter fun f => !isIgnored f) = .ok r' ∧
    ∀ p, r.only p ≠ .empty → r'.only p ≠ .empty :=
  ⟨Record.only_of_writeFields_among h, fun _ => Record.writeFields_of_among_eq h,
    fun _ _ hignored => Record.writeField_of_isIgnored hignored,
    Record.writeFields_filter_not_isIgnored h, fun _ => Record.only_ne_empty_of_writeFields h⟩

theorem Record.writeFields_independent_of_mixed_run :
    let spelled : List (String × String) → List (List Char × List Char) :=
      fun fields => fields.map fun f => (f.1.toList, f.2.toList)
    let r : Record := { desc := some "old", phase := some 1 }
    let r' : Record :=
      { desc := some "c", phase := some 1, ai := some (.parts { usage := some "d" }) }
    let fields := spelled [("Desc", "'a'"), ("owner", "x"), ("ai", "b"), ("description", "c"),
      ("status", "soon"), ("AI:usage", "d"), ("phase", "one")]
    let fields' := spelled [("phase", "one"), ("ai", "b"), ("AI:usage", "d"), ("status", "soon"),
      ("Desc", "'a'"), ("description", "c")]
    r.writeFields fields = .ok r' ∧ r.writeFields fields' = .ok r' ∧
      r.writeFields (fields.filter fun f => !isIgnored f) = .ok r' ∧
      (∃ s, r.writeFields (Place.desc.among fields) = .ok s ∧ s.only .desc = r'.only .desc) ∧
      r'.only .phase ≠ .empty := by
  intro spelled r r' fields fields'
  have hrun : r.writeFields fields = .ok r' := by decide +kernel
  have hsame : ∀ p : Place, p.among fields' = p.among fields := by
    intro p
    cases p <;> decide +kernel
  have hphase : r.only .phase ≠ .empty := by decide
  obtain ⟨halone, horder, -, hfilter, hfilled⟩ := Record.writeFields_independent hrun
  obtain ⟨s, hs, hdesc, -⟩ := halone .desc
  exact ⟨hrun, horder fields' hsame, hfilter, ⟨s, hs, hdesc⟩, hfilled .phase hphase⟩

end Marginalia
