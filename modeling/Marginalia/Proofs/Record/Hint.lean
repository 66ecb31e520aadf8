/-
  Marginalia/Proofs/Record/Hint.lean
  ==================================
  **A hint gets parts once and for all.**  A field for the hint is bare and sets a text,
  or it gives the hint parts (`givesParts`) and writes some of them (`partsWritten`).
  A text gives way to parts, and parts never give way to a text.  So the hint after a
  run of fields can be told without following the run (`hintFrom`): as soon as one field
  gives parts, each part is the last value written to it by any field, and otherwise the
  hint is the last bare text.

  The step is `Record.ai_of_apply`; the run is an induction on its fields from the end,
  and what carries it is that the parts so far are those of all fields so far
  (`partsOf_hintFrom`), whether the hint has become one with parts or not.
-/
import Marginalia.Proofs.Record.Place
import Mathlib.Data.List.Induction

namespace Marginalia

open Marginalia.Text Marginalia.Literal

/-! ### Values of parts -/

/-- A value for one part of a hint. -/
inductive PartValue where
  | summary (s : String)
  | usage (s : String)
  | examples (l : List String)
  deriving DecidableEq, Repr

def PartValue.summary? : PartValue → Option String
  | .summary s => some s
  | _ => none

def PartValue.usage? : PartValue → Option String
  | .usage s => some s
  | _ => none

def PartValue.examples? : PartValue → Option (List String)
  | .examples l => some l
  | _ => none

/-- The parts with one of them replaced. -/
def HintParts.write (p : HintParts String) : PartValue → HintParts String
  | .summary s => { p with summary := some s }
  | .usage s => { p with usage := some s }
  | .examples l => { p with examples := some l }

/-- The last value for each part. -/
def lastParts (values : List PartValue) : HintParts String where
  summary := (values.filterMap PartValue.summary?).getLast?
  usage := (values.filterMap PartValue.usage?).getLast?
  examples := (values.filterMap PartValue.examples?).getLast?

theorem lastParts_concat (values : List PartValue) (v : PartValue) :
    lastParts (values ++ [v]) = (lastParts values).write v := by
  cases v <;>
    simp [lastParts, HintParts.write, PartValue.summary?, PartValue.usage?, PartValue.examples?]

theorem lastParts_append (values values' : List PartValue) :
    lastParts (values ++ values') = values'.foldl HintParts.write (lastParts values) := by
  induction values' using List.reverseRecOn with
  | nil => rw [List.append_nil, List.foldl_nil]
  | append_singleton values' v ih =>
    rw [← List.append_assoc, lastParts_concat, ih, List.foldl_append, List.foldl_cons,
      List.foldl_nil]

/-! ### Fields for the hint -/

/-- The value that a field of a hint written as an object has for a part. -/
def partValue? (f : List Char × List Char) : Option PartValue :=
  if lower f.1 = "summary".toList then some (.summary (scalarOf f.2))
  else if lower f.1 = "usage".toList then some (.usage (scalarOf f.2))
  else if lower f.1 = "examples".toList then some (.examples (listOf f.2))
  else none

/-- The field names a part of the hint, or its value is an object or a summary with its mark. -/
def givesParts (f : List Char × List Char) : Bool :=
  match FieldKey.ofText? f.1 with
  | some .aiSummary | some .aiUsage | some .aiExamples => true
  | some .ai => startsWith ['{'] (trim f.2) || (summaryAfterMark? (unquoted f.2)).isSome
  | _ => false

/-- The values that a field has for parts of the hint, in order. -/
def partsWritten (f : List Char × List Char) : List PartValue :=
  match FieldKey.ofText? f.1 with
  | some .aiSummary => [.summary (scalarOf f.2)]
  | some .aiUsage => [.usage (scalarOf f.2)]
  | some .aiExamples => [.examples (listOf f.2)]
  | some .ai =>
    if startsWith ['{'] (trim f.2) then (objectFields (trim f.2)).filterMap partValue?
    else (summaryAfterMark? (unquoted f.2)).toList.map fun s => .summary (String.ofList (trim s))
  | _ => []

/-- The hint that fields for it amount to. -/
def hintFrom (hints : List (List Char × List Char)) : Option (Hint String) :=
  if hints.any givesParts then some (.parts (lastParts (hints.flatMap partsWritten)))
  else hints.getLast?.map fun f => .text (scalarOf f.2)

theorem HintParts.apply_eq (p : HintParts String) (f : List Char × List Char) :
    p.apply f.1 f.2 = (partValue? f).toList.foldl HintParts.write p := by
  simp only [HintParts.apply, partValue?]
  split_ifs <;> rfl

theorem foldl_apply_eq (fields : List (List Char × List Char)) (p : HintParts String) :
    fields.foldl (fun p (k, v) => p.apply k v) p =
      (fields.filterMap partValue?).foldl HintParts.write p := by
  induction fields generalizing p with
  | nil => rfl
  | cons f fields ih =>
    obtain ⟨key, value⟩ := f
    have happly : p.apply key value = (partValue? (key, value)).toList.foldl HintParts.write p :=
      HintParts.apply_eq p (key, value)
    simp only [List.foldl_cons, happly, ih]
    cases hf : partValue? (key, value) with
    | none => rw [List.filterMap_cons_none hf, Option.toList_none, List.foldl_nil]
    | some v =>
      rw [List.filterMap_cons_some hf, Option.toList_some, List.foldl_cons, List.foldl_nil,
        List.foldl_cons]

theorem partsWritten_of_bare {f : List Char × List Char} (h : givesParts f = false) :
    partsWritten f = [] := by
  unfold givesParts at h
  unfold partsWritten
  split at h
  · cases h
  · cases h
  · cases h
  · rw [Bool.or_eq_false_iff, Option.isSome_eq_false_iff, Option.isNone_iff_eq_none] at h
    simp [h.1, h.2]
  · rfl

/-- What one field for the hint does: it gives parts, or it is a text for a hint without them. -/
theorem Record.ai_of_writeField {r r' : Record} {f : List Char × List Char}
    (h : r.writeField f.1 f.2 = .ok r') (hplace : placeOf? f.1 = some .ai) :
    (givesParts f = true →
      r'.ai = some (.parts ((partsWritten f).foldl HintParts.write (partsOf r.ai)))) ∧
    (givesParts f = false → (∀ p, r.ai = some (.parts p) → r'.ai = some (.parts p)) ∧
      ((∀ p, r.ai ≠ some (.parts p)) → r'.ai = some (.text (scalarOf f.2)))) := by
  rcases Record.writeField_cases h with ⟨hnone, _⟩ | ⟨k, hkey, hk, happly⟩
  · rw [hnone] at hplace
    cases hplace
  · rw [hk] at hplace
    cases k with
    | aiSummary | aiUsage | aiExamples =>
      obtain rfl := Except.ok.inj happly
      simp [givesParts, partsWritten, hkey, HintParts.write]
    | ai =>
      obtain rfl := Except.ok.inj happly
      simp only [givesParts, partsWritten, hkey, applyHint, foldl_apply_eq]
      cases hobject : startsWith ['{'] (trim f.2) with
      | true => simp
      | false =>
        cases hmark : summaryAfterMark? (unquoted f.2) with
        | some s => simp [HintParts.write]
        | none =>
          cases hai : r.ai with
          | none => simp
          | some hint => cases hint <;> simp
    | _ => cases hplace

/-! ### Runs -/

theorem flatMap_partsWritten_of_bare {hints : List (List Char × List Char)}
    (h : hints.any givesParts = false) : hints.flatMap partsWritten = [] := by
  rw [List.flatMap_eq_nil_iff]
  intro f hf
  exact partsWritten_of_bare (by simpa using List.any_eq_false.mp h f hf)

theorem partsOf_hintFrom (hints : List (List Char × List Char)) :
    partsOf (hintFrom hints) = lastParts (hints.flatMap partsWritten) := by
  unfold hintFrom
  cases hany : hints.any givesParts with
  | true => rfl
  | false =>
    rw [flatMap_partsWritten_of_bare hany]
    cases hints.getLast? <;> rfl

theorem hintFrom_ne_parts {hints : List (List Char × List Char)}
    (h : hints.any givesParts = false) (p : HintParts String) :
    hintFrom hints ≠ some (.parts p) := by
  rw [hintFrom, h]
  cases hints.getLast? <;> simp

/-- The hint after one more field for it. -/
theorem Record.ai_of_writeField_hintFrom {r r' : Record} {f : List Char × List Char}
    {hints : List (List Char × List Char)} (h : r.writeField f.1 f.2 = .ok r')
    (hplace : placeOf? f.1 = some .ai) (hai : r.ai = hintFrom hints) :
    r'.ai = hintFrom (hints ++ [f]) := by
  obtain ⟨hparts, hbare⟩ := Record.ai_of_writeField h hplace
  cases hf : givesParts f with
  | true =>
    rw [hparts hf, hai, partsOf_hintFrom, ← lastParts_append, hintFrom,
      if_pos (by simp [hf]), List.flatMap_append, List.flatMap_singleton]
  | false =>
    obtain ⟨hkeep, htext⟩ := hbare hf
    cases hany : hints.any givesParts with
    | true =>
      have hstill : hintFrom (hints ++ [f]) = hintFrom hints := by
        rw [hintFrom, hintFrom, List.any_append, hany, List.flatMap_append,
          List.flatMap_singleton, partsWritten_of_bare hf, List.append_nil]
        rfl
      rw [hstill, hintFrom, if_pos hany]
      apply hkeep
      rw [hai, hintFrom, if_pos hany]
    | false =>
      have hnone : (hints ++ [f]).any givesParts = false := by
        rw [List.any_append, hany]
        simp [hf]
      rw [hintFrom, hnone, List.getLast?_concat]
      exact htext fun p => hai ▸ hintFrom_ne_parts hany p

/-- The hint after a run from the empty record. -/
theorem Record.ai_eq_hintFrom {fields : List (List Char × List Char)} {r : Record}
    (h : Record.empty.writeFields fields = .ok r) : r.ai = hintFrom (Place.ai.among fields) := by
  induction fields using List.reverseRecOn generalizing r with
  | nil =>
    obtain rfl := Except.ok.inj h
    rfl
  | append_singleton fields f ih =>
    rw [Record.writeFields, List.foldlM_append] at h
    obtain ⟨s, hs, hlast⟩ := bind_eq_ok.mp h
    rw [List.foldlM_cons] at hlast
    obtain ⟨t, ht, hend⟩ := bind_eq_ok.mp hlast
    obtain rfl := Except.ok.inj hend
    have hprev := ih hs
    rw [Place.among, List.filter_append]
    by_cases hplace : placeOf? f.1 = some .ai
    · have hf : [f].filter (fun f => placeOf? f.1 == some .ai) = [f] := by simp [hplace]
      rw [hf]
      exact Record.ai_of_writeField_hintFrom ht hplace hprev
    · have hf : [f].filter (fun f => placeOf? f.1 == some .ai) = [] := by simp [hplace]
      rw [hf, List.append_nil]
      have hsame : t.ai = s.ai := by
        rcases Record.writeField_cases ht with ⟨_, rfl⟩ | ⟨k, _, hk, happly⟩
        · rfl
        · have hne : k.place ≠ .ai := fun heq => hplace (heq ▸ hk)
          have honly : (t.only .ai).ai = (s.only .ai).ai :=
            congrArg Record.ai (Record.only_of_apply_other happly hne)
          exact honly
      rw [hsame]
      exact hprev

/-- The hint of a record after any run of fields.  Without a field for it there is none.  If all of
these are bare it is the text of the last one.  If any of them gives parts it has parts, each of
them the last value written to it, and bare texts before or after leave no trace. -/
theorem Record.ai_of_writeFields {fields : List (List Char × List Char)} {r : Record}
    (h : Record.empty.writeFields fields = .ok r) :
    (Place.ai.among fields = [] → r.ai = none) ∧
    (∀ f, (Place.ai.among fields).getLast? = some f →
      (∀ g ∈ Place.ai.among fields, givesParts g = false) →
        r.ai = some (.text (scalarOf f.2))) ∧
    ∀ g ∈ Place.ai.among fields, givesParts g = true →
      r.ai = some (.parts (lastParts ((Place.ai.among fields).flatMap partsWritten))) := by
  have hai := Record.ai_eq_hintFrom h
  refine ⟨?_, ?_, ?_⟩
  · intro hnil
    rw [hai, hnil]
    rfl
  · intro f hlast hbare
    have hnone : (Place.ai.among fields).any givesParts = false := by simpa using hbare
    rw [hai, hintFrom, hnone, hlast]
    rfl
  · intro g hg hparts
    rw [hai, hintFrom, if_pos (List.any_eq_true.mpr ⟨g, hg, hparts⟩)]

theorem Record.ai_of_writeFields_mixed_run :
    let fields := [("ai", "'Plain'"), ("AI", "\x7bsummary: 'a', usage: u\x7d"), ("tags", "x"),
      ("ai", "later"), ("ai.examples", "[one, two]"), ("ai", "summary: b")].map
        fun f => (f.1.toList, f.2.toList)
    let parts : HintParts String :=
      { summary := some "b", usage := some "u", examples := some ["one", "two"] }
    ∃ r, Record.empty.writeFields fields = .ok r ∧ r.ai = some (.parts parts) := by
  intro fields parts
  have hrun : Record.empty.writeFields fields =
      .ok { tags := some ["x"], ai := some (.parts parts) } := by decide +kernel
  have hlast : lastParts ((Place.ai.among fields).flatMap partsWritten) = parts := by
    decide +kernel
  obtain ⟨g, hg, hparts⟩ : ∃ g ∈ Place.ai.among fields, givesParts g = true := by decide +kernel
  obtain ⟨-, -, hstructured⟩ := Record.ai_of_writeFields hrun
  have hai := hstructured g hg hparts
  rw [hlast] at hai
  exact ⟨_, hrun, hai⟩

end Marginalia
