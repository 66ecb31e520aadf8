/-
  Marginalia/Proofs/Record/Place.lean
  ===================================
  **Places of a record.**  Every key writes one of the ten places of a record.  What
  it writes there may depend on what the place holds, but not on the other places, and
  it leaves those alone.  So a run of fields can be followed at one place with the
  fields of that place only (`writeFields_only`).

  All places but that of the hint hold the last value that can be read
  (`only_of_writeFields`); a hint is made of several values.
-/
import Marginalia.Proofs.Except
import Marginalia.Record.Field

namespace Marginalia

open Marginalia.Text Marginalia.Literal

/-- The places of a record. -/
inductive Place where
  | id
  | name
  | desc
  | version
  | visibility
  | status
  | phase
  | tags
  | deps
  | ai
  deriving DecidableEq, Repr

/-- The place that a key writes. -/
def FieldKey.place : FieldKey → Place
  | .id => .id
  | .name => .name
  | .desc => .desc
  | .version => .version
  | .visibility => .visibility
  | .status => .status
  | .phase => .phase
  | .tags => .tags
  | .deps => .deps
  | .ai | .aiSummary | .aiUsage | .aiExamples => .ai

/-- The place that is written under a key, in any spelling; unknown keys have none. -/
def placeOf? (key : List Char) : Option Place := (FieldKey.ofText? key).map FieldKey.place

/-- The record with one place of another. -/
def Record.only (r : Record) : Place → Record
  | .id => { id := r.id }
  | .name => { name := r.name }
  | .desc => { desc := r.desc }
  | .version => { version := r.version }
  | .visibility => { visibility := r.visibility }
  | .status => { status := r.status }
  | .phase => { phase := r.phase }
  | .tags => { tags := r.tags }
  | .deps => { deps := r.deps }
  | .ai => { ai := r.ai }

/-- A record is what stands at its places. -/
theorem Record.ext_only {r r' : Record} (h : ∀ p, r.only p = r'.only p) : r = r' := by
  have hid := congrArg Record.id (h .id)
  have hname := congrArg Record.name (h .name)
  have hdesc := congrArg Record.desc (h .desc)
  have hversion := congrArg Record.version (h .version)
  have hvisibility := congrArg Record.visibility (h .visibility)
  have hstatus := congrArg Record.status (h .status)
  have hphase := congrArg Record.phase (h .phase)
  have htags := congrArg Record.tags (h .tags)
  have hdeps := congrArg Record.deps (h .deps)
  have hai := congrArg Record.ai (h .ai)
  cases r
  cases r'
  simp_all [Record.only]

theorem Record.only_empty (p : Place) : Record.empty.only p = .empty := by cases p <;> rfl

/-! ### One field -/

section Apply

variable {r r' : Record} {k : FieldKey} {p : Place} {value : List Char}

theorem Record.apply_phase_eq_ok (h : r.apply .phase value = .ok r') :
    ∃ n, leadingInt? (unquoted value) = .ok n ∧ r' = { r with phase := n <|> r.phase } := by
  rw [Record.apply] at h
  cases hn : leadingInt? (unquoted value) with
  | error fault => simp [hn, Except.map] at h
  | ok n => exact ⟨n, rfl, by simpa [hn, Except.map] using h.symm⟩

theorem Record.only_of_apply_other (h : r.apply k value = .ok r') (hp : k.place ≠ p) :
    r'.only p = r.only p := by
  cases k with
  | phase =>
    obtain ⟨n, _, rfl⟩ := Record.apply_phase_eq_ok h
    cases p <;> first | exact absurd rfl hp | simp only [Record.only]
  | _ =>
    obtain rfl := Except.ok.inj h
    cases p <;> first | exact absurd rfl hp | simp only [Record.only]

/-- A field does at its place what it would do if the others were empty. -/
theorem Record.apply_only (h : r.apply k value = .ok r') :
    (r.only k.place).apply k value = .ok (r'.only k.place) := by
  cases k with
  | phase =>
    obtain ⟨n, hn, rfl⟩ := Record.apply_phase_eq_ok h
    simp [Record.apply, hn, Except.map, Record.only, FieldKey.place]
  | _ =>
    obtain rfl := Except.ok.inj h
    rfl

/-- What a value gives at a place other than that of the hint, if it can be read. -/
def Place.reading? (p : Place) (value : List Char) : Option Record :=
  match p with
  | .id => some { id := some (scalarOf value) }
  | .name => some { name := some (scalarOf value) }
  | .desc => some { desc := some (scalarOf value) }
  | .version => some { version := some (scalarOf value) }
  | .visibility => (Visibility.ofName? (scalarOf value)).map fun v => { visibility := some v }
  | .status => (Status.ofName? (scalarOf value)).map fun s => { status := some s }
  | .phase =>
    match leadingInt? (unquoted value) with
    | .ok n => n.map fun n => { phase := some n }
    | .error _ => none
  | .tags => some { tags := some (listOf value) }
  | .deps => some { deps := some (depsOfText value) }
  | .ai => none

theorem Record.only_of_apply_same (h : r.apply k value = .ok r') (hk : k.place ≠ .ai) :
    r'.only k.place = (k.place.reading? value).getD (r.only k.place) := by
  cases k with
  | phase =>
    obtain ⟨n, hn, rfl⟩ := Record.apply_phase_eq_ok h
    cases n <;> simp [FieldKey.place, Place.reading?, hn, Record.only]
  | visibility =>
    obtain rfl := Except.ok.inj h
    cases hv : Visibility.ofName? (scalarOf value) <;>
      simp [FieldKey.place, Place.reading?, hv, Record.only]
  | status =>
    obtain rfl := Except.ok.inj h
    cases hs : Status.ofName? (scalarOf value) <;>
      simp [FieldKey.place, Place.reading?, hs, Record.only]
  | ai | aiSummary | aiUsage | aiExamples => exact absurd rfl hk
  | _ =>
    obtain rfl := Except.ok.inj h
    rfl

end Apply

/-! ### Fields in order -/

/-- The fields that write a place. -/
def Place.among (p : Place) (fields : List (List Char × List Char)) :
    List (List Char × List Char) :=
  fields.filter fun f => placeOf? f.1 == some p

theorem Record.writeFields_cons (r : Record) (f : List Char × List Char)
    (fields : List (List Char × List Char)) :
    r.writeFields (f :: fields) = r.writeField f.1 f.2 >>= fun r' => r'.writeFields fields := by
  rw [Record.writeFields, List.foldlM_cons]
  rfl

/-- A field is unknown and changes nothing, or is applied under the key that it spells. -/
theorem Record.writeField_cases {r r' : Record} {key value : List Char}
    (h : r.writeField key value = .ok r') :
    (placeOf? key = none ∧ r' = r) ∨
      ∃ k, FieldKey.ofText? key = some k ∧ placeOf? key = some k.place ∧
        r.apply k value = .ok r' := by
  unfold Record.writeField at h
  cases hkey : FieldKey.ofText? key with
  | none =>
    rw [hkey] at h
    left
    exact ⟨by rw [placeOf?, hkey, Option.map_none], (Except.ok.inj h).symm⟩
  | some k =>
    rw [hkey] at h
    right
    exact ⟨k, rfl, by rw [placeOf?, hkey, Option.map_some], h⟩

section Run

variable {r r' : Record} {p : Place}

/-- Fields in order do at a place what the fields of the place do alone. -/
theorem Record.writeFields_only {fields : List (List Char × List Char)}
    (h : r.writeFields fields = .ok r') :
    (r.only p).writeFields (p.among fields) = .ok (r'.only p) := by
  induction fields generalizing r with
  | nil =>
    obtain rfl := Except.ok.inj h
    rfl
  | cons f fields ih =>
    rw [Record.writeFields_cons] at h
    obtain ⟨s, hs, hrest⟩ := bind_eq_ok.mp h
    have hlater := ih hrest
    rcases Record.writeField_cases hs with ⟨hnone, rfl⟩ | ⟨k, hkey, hplace, happly⟩
    · rwa [Place.among, List.filter_cons_of_neg (by simp [hnone])]
    · by_cases hp : k.place = p
      · subst hp
        have hfield : (r.only k.place).writeField f.1 f.2 = .ok (s.only k.place) := by
          rw [Record.writeField, hkey]
          exact Record.apply_only happly
        rw [Place.among, List.filter_cons_of_pos (by simp [hplace]), Record.writeFields_cons,
          hfield]
        exact hlater
      · rw [Record.only_of_apply_other happly hp] at hlater
        rwa [Place.among, List.filter_cons_of_neg (by simp [hplace, hp])]

/-- After fields in order a place other than that of the hint holds the last value for it that can
be read; without one it holds what it held. -/
theorem Record.only_of_writeFields {fields : List (List Char × List Char)} (hp : p ≠ .ai)
    (h : r.writeFields fields = .ok r') :
    r'.only p =
      ((p.among fields).filterMap fun f => p.reading? f.2).getLast?.getD (r.only p) := by
  induction fields generalizing r with
  | nil =>
    obtain rfl := Except.ok.inj h
    rfl
  | cons f fields ih =>
    rw [Record.writeFields_cons] at h
    obtain ⟨s, hs, hrest⟩ := bind_eq_ok.mp h
    rw [ih hrest]
    rcases Record.writeField_cases hs with ⟨hnone, rfl⟩ | ⟨k, hkey, hplace, happly⟩
    · rw [Place.among, Place.among, List.filter_cons_of_neg (by simp [hnone])]
    · by_cases hk : k.place = p
      · subst hk
        have hfield := Record.only_of_apply_same happly hp
        rw [hfield, Place.among, Place.among, List.filter_cons_of_pos (by simp [hplace])]
        cases hvalue : k.place.reading? f.2 <;> simp [hvalue, List.getLast?_cons]
      · rw [Record.only_of_apply_other happly hk, Place.among, Place.among,
          List.filter_cons_of_neg (by simp [hplace, hk])]

end Run

end Marginalia
