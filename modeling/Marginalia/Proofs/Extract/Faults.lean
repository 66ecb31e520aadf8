/-
  Marginalia/Proofs/Extract/Faults.lean
  =====================================
  **What stops an extraction.**  Every field that is read may stop it, but only a
  phase whose number has more than `maxDigits` digits does (`isOverlong`).  The fields
  are read in a fixed order, and the first of them that is overlong decides: without
  one there is a result, and otherwise the fault tells its number of digits
  (`Outcome`).  Outcomes of two readings combine to that of both (`Outcome.bind`), so
  the fields of comments, objects, passes and files are collected along the way
  (`commentFieldsIn`, `objectFieldsIn`, `fieldsIn`).
-/
import Marginalia.Extract.File
import Marginalia.Proofs.Database.Document
import Marginalia.Proofs.Extract.Comment
import Marginalia.Proofs.Literal.Pieces

namespace Marginalia.Extract

open Marginalia.Text Marginalia.Literal

/-- A key and its raw value. -/
abbrev RawField := List Char × List Char

/-! ### Overlong phases -/

/-- The number of digits that a value begins with, as a phase is read. -/
def phaseDigits (value : List Char) : Nat :=
  ((readSign (trimLeft (unquoted value))).2.takeWhile isDigit).length

/-- The field is a phase with too many digits. -/
def isOverlong (f : RawField) : Bool :=
  FieldKey.ofText? f.1 == some .phase && maxDigits < phaseDigits f.2

/-- The reading of fields gives a result, unless one is overlong; then it stops at the first of
these. -/
structure Outcome {α : Type} (reading : Except IntFault α) (fields : List RawField) : Prop where
  eq_ok : fields.find? isOverlong = none → ∃ x, reading = .ok x
  eq_error : ∀ f, fields.find? isOverlong = some f → reading = .error (.tooLong (phaseDigits f.2))

section Steps

variable {α β : Type} {reading : Except IntFault α} {fields fields' : List RawField}

theorem outcome_ok (x : α) : Outcome (.ok x) [] where
  eq_ok _ := ⟨x, rfl⟩
  eq_error f hf := by simp at hf

theorem Outcome.bind {next : α → Except IntFault β} (h : Outcome reading fields)
    (hnext : ∀ x, Outcome (next x) fields') : Outcome (reading >>= next) (fields ++ fields') := by
  cases hfind : fields.find? isOverlong with
  | none =>
    obtain ⟨x, rfl⟩ := h.eq_ok hfind
    have hlater : (fields ++ fields').find? isOverlong = fields'.find? isOverlong := by
      rw [List.find?_append, hfind, Option.none_or]
    constructor
    · intro hnone
      exact (hnext x).eq_ok (hlater ▸ hnone)
    · intro f hf
      exact (hnext x).eq_error f (hlater ▸ hf)
  | some f =>
    have hfirst : (fields ++ fields').find? isOverlong = some f := by
      rw [List.find?_append, hfind, Option.some_or]
    have herror : reading >>= next = .error (.tooLong (phaseDigits f.2)) := by
      rw [h.eq_error f hfind]
      rfl
    constructor
    · intro hnone
      rw [hfirst] at hnone
      cases hnone
    · intro f' hf'
      obtain rfl := Option.some.inj (hfirst.symm.trans hf')
      exact herror

theorem Outcome.bind_ok {next : α → Except IntFault β} (h : Outcome reading fields)
    (hnext : ∀ x, ∃ y, next x = .ok y) : Outcome (reading >>= next) fields := by
  have hbind : Outcome (reading >>= next) (fields ++ []) := by
    apply h.bind
    intro x
    obtain ⟨y, hy⟩ := hnext x
    rw [hy]
    exact outcome_ok y
  rwa [List.append_nil] at hbind

theorem Outcome.map (h : Outcome reading fields) (f : α → β) : Outcome (reading.map f) fields :=
  h.bind_ok fun x => ⟨f x, rfl⟩

theorem outcome_mapM {f : β → Except IntFault α} {collect : β → List RawField} {l : List β}
    (h : ∀ x ∈ l, Outcome (f x) (collect x)) : Outcome (l.mapM f) (l.flatMap collect) := by
  induction l with
  | nil => exact outcome_ok []
  | cons x l ih =>
    obtain ⟨hx, hl⟩ := List.forall_mem_cons.mp h
    rw [List.mapM_cons, List.flatMap_cons]
    exact hx.bind fun y => (ih hl).map (y :: ·)

end Steps

/-! ### Fields -/

theorem length_filterMap_digitValue? {ds : List Char} (h : ∀ c ∈ ds, isDigit c = true) :
    (ds.filterMap digitValue?).length = ds.length := by
  induction ds with
  | nil => rfl
  | cons c ds ih =>
    obtain ⟨hc, hds⟩ := List.forall_mem_cons.mp h
    obtain ⟨d, hd⟩ := Option.isSome_iff_exists.mp hc
    rw [List.filterMap_cons_some hd, List.length_cons, ih hds, List.length_cons]

/-- A phase is too long exactly if its digits are more than can be converted. -/
theorem leadingInt?_unquoted (value : List Char) :
    if maxDigits < phaseDigits value then
      leadingInt? (unquoted value) = .error (.tooLong (phaseDigits value))
    else ∃ n, leadingInt? (unquoted value) = .ok n := by
  have hlength : (((readSign (trimLeft (unquoted value))).2.takeWhile isDigit).filterMap
      digitValue?).length = phaseDigits value :=
    length_filterMap_digitValue? fun c hc => List.mem_takeWhile_imp hc
  simp only [leadingInt?, hlength]
  split
  · rename_i hlong
    have hdigits : (((readSign (trimLeft (unquoted value))).2.takeWhile isDigit).filterMap
        digitValue?).isEmpty = false := by
      rw [Bool.eq_false_iff, ne_eq, List.isEmpty_iff_length_eq_zero, hlength]
      exact Nat.ne_zero_of_lt hlong
    rw [hdigits, if_neg (by simp)]
  · split
    · exact ⟨none, rfl⟩
    · exact ⟨_, rfl⟩

theorem outcome_singleton {α : Type} {reading : Except IntFault α} {f : RawField}
    (h : if isOverlong f then reading = .error (.tooLong (phaseDigits f.2))
      else ∃ x, reading = .ok x) : Outcome reading [f] := by
  cases hf : isOverlong f with
  | true =>
    rw [hf, if_pos rfl] at h
    constructor
    · intro hnone
      simp [hf] at hnone
    · intro f' hf'
      obtain rfl : f = f' := by simpa [hf] using hf'
      exact h
  | false =>
    rw [hf, if_neg (by simp)] at h
    constructor
    · intro _
      exact h
    · intro f' hf'
      simp [hf] at hf'

theorem outcome_writeField (r : Record) (f : RawField) : Outcome (r.writeField f.1 f.2) [f] := by
  apply outcome_singleton
  unfold Record.writeField isOverlong
  cases hkey : FieldKey.ofText? f.1 with
  | none => exact ⟨r, rfl⟩
  | some k =>
    cases k with
    | phase =>
      have hphase := leadingInt?_unquoted f.2
      by_cases hlong : maxDigits < phaseDigits f.2
      · rw [if_pos hlong] at hphase
        simp [hlong, Record.apply, hphase, Except.map]
      · rw [if_neg hlong] at hphase
        obtain ⟨n, hn⟩ := hphase
        simp [hlong, Record.apply, hn, Except.map]
    | _ => exact ⟨_, rfl⟩

theorem outcome_writeFields (r : Record) (fields : List RawField) :
    Outcome (r.writeFields fields) fields := by
  unfold Record.writeFields
  induction fields generalizing r with
  | nil => exact outcome_ok r
  | cons f fields ih =>
    rw [List.foldlM_cons]
    exact (outcome_writeField r f).bind fun r' => ih r'

theorem forall_not_isOverlong {r r' : Record} {fields : List RawField}
    (h : r.writeFields fields = .ok r') : ∀ f ∈ fields, isOverlong f = false := by
  cases hfind : fields.find? isOverlong with
  | none => simpa using hfind
  | some f =>
    have herror := (outcome_writeFields r fields).eq_error f hfind
    rw [h] at herror
    cases herror

/-- Fields that are taken out of a run that ends well can be applied to any record. -/
theorem exists_writeFields_of_subset {r r' : Record} {fields fields' : List RawField}
    (h : r.writeFields fields = .ok r') (hsub : ∀ f ∈ fields', f ∈ fields) (s : Record) :
    ∃ s', s.writeFields fields' = .ok s' := by
  apply (outcome_writeFields s fields').eq_ok
  rw [List.find?_eq_none]
  intro f hf
  simp [forall_not_isOverlong h f (hsub f hf)]

/-! ### Passes -/

/-- The fields of the comments of a text. -/
def commentFieldsIn (text : List Char) : List RawField :=
  (commentsIn text).flatMap fun b => commentFields b.raw

/-- The literals that are read at the given places: of those that begin on one line, the first
one that is closed. -/
def literalsAt (taken : List Nat) : List Site → List (List Char)
  | [] => []
  | site :: rest =>
    if taken.contains (lineAfter site.before) then literalsAt taken rest
    else
      match balanced? site.literal with
      | none => literalsAt taken rest
      | some literal => literal :: literalsAt (lineAfter site.before :: taken) rest

/-- The fields of the objects of a text. -/
def objectFieldsIn (text : List Char) : List RawField :=
  (literalsAt [] (sites text)).flatMap objectFields

/-- The fields of a file in the order in which they are read. -/
def fieldsIn (content path : List Char) : List RawField :=
  (scriptParts content path).flatMap fun p => commentFieldsIn p.text ++ objectFieldsIn p.text

theorem outcome_commentPass (text : List Char) (offset : Int) :
    Outcome (commentPass text offset) (commentFieldsIn text) := by
  unfold commentPass commentFieldsIn
  apply Outcome.map
  apply outcome_mapM
  intro b _
  unfold Comment.note? parseComment
  exact (outcome_writeFields Record.empty (commentFields b.raw)).map _

theorem outcome_ofObject (literal : List Char) :
    Outcome (Record.ofObject literal) (objectFields literal) := by
  rw [Record.ofObject]
  exact outcome_writeFields Record.empty (objectFields literal)

theorem outcome_embeddedFrom (offset : Int) (taken : List Nat) (places : List Site) :
    Outcome (embeddedFrom offset taken places)
      ((literalsAt taken places).flatMap objectFields) := by
  induction places generalizing taken with
  | nil => exact outcome_ok ([], [])
  | cons site rest ih =>
    rw [embeddedFrom, literalsAt]
    split
    · exact ih taken
    · cases hliteral : balanced? site.literal with
      | none => exact (ih taken).map _
      | some literal =>
        simp only
        rw [List.flatMap_cons]
        apply (outcome_ofObject literal).bind
        intro r
        apply (ih (lineAfter site.before :: taken)).bind_ok
        rintro ⟨found, warnings⟩
        simp only
        split
        · exact ⟨_, rfl⟩
        · exact ⟨_, rfl⟩

theorem outcome_embeddedPass (text : List Char) (offset : Int) :
    Outcome (embeddedPass text offset) (objectFieldsIn text) :=
  outcome_embeddedFrom offset [] (sites text)

theorem outcome_extract (content path : String) :
    Outcome (extract content path) (fieldsIn content.toList path.toList) := by
  have hparts : Outcome ((scriptParts content.toList path.toList).mapM searchPart)
      (fieldsIn content.toList path.toList) := by
    apply outcome_mapM
    intro p _
    apply (outcome_commentPass p.text p.offset).bind
    intro comments
    exact (outcome_embeddedPass p.text p.offset).map _
  exact hparts.map _

/-- What an extraction and its steps give, for every input: a result, or the fault of the first
overlong phase that is read. -/
theorem extraction_outcomes (content path : String) (text : List Char) (offset : Int) (r : Record)
    (key value : List Char) :
    Outcome (extract content path) (fieldsIn content.toList path.toList) ∧
      Outcome (commentPass text offset) (commentFieldsIn text) ∧
      Outcome (embeddedPass text offset) (objectFieldsIn text) ∧
      Outcome (r.writeField key value) [(key, value)] :=
  ⟨outcome_extract content path, outcome_commentPass text offset, outcome_embeddedPass text offset,
    outcome_writeField r (key, value)⟩

/-! ### A phase that is too long -/

section Nines

variable (n : Nat)

/-- The text of `n` nines. -/
def nines : String := String.ofList (List.replicate n '9')

theorem forall_mem_nines {P : Char → Prop} (h : P '9') : ∀ c ∈ (nines n).toList, P c := by
  intro c hc
  rw [nines, String.toList_ofList] at hc
  rw [List.eq_of_mem_replicate hc]
  exact h

theorem isLineText_nines : IsLineText (nines n).toList :=
  isLineText_of_forall (forall_mem_nines n (by decide))

theorem phaseDigits_nines (hn : n ≠ 0) : phaseDigits (nines n).toList = n := by
  have hquote : ∀ c ∈ (nines n).toList, isQuote c = false := forall_mem_nines n (by decide)
  have htrim := (isLineText_nines n).trimmed
  have hunquoted : unquoted (nines n).toList = (nines n).toList :=
    unquoted_of_no_quote htrim hquote
  have hsign : readSign (nines n).toList = (false, (nines n).toList) := by
    obtain ⟨m, rfl⟩ := Nat.exists_eq_succ_of_ne_zero hn
    rw [nines, String.toList_ofList, List.replicate_succ]
    rfl
  have hdigits : (nines n).toList.takeWhile isDigit = (nines n).toList := by
    rw [List.takeWhile_eq_self_iff]
    exact forall_mem_nines n (by decide)
  rw [phaseDigits, hunquoted, (trim_eq_self_iff.mp htrim).1, hsign, hdigits, nines,
    String.toList_ofList, List.length_replicate]

/-- A comment of one line with a phase of `n` nines. -/
def phaseComment : String := "# @mm:phase=" ++ nines n

theorem toList_phaseComment :
    (phaseComment n).toList = "# @mm:phase=".toList ++ (nines n).toList := by
  rw [phaseComment, String.toList_append]

theorem commentFields_phaseComment :
    commentFields (phaseComment n).toList = [("phase".toList, (nines n).toList)] := by
  have hcomment : phaseComment n = Writer.comment .hash [Writer.fieldLine "phase" (nines n)] := by
    apply String.toList_inj.mp
    simp [phaseComment, Writer.comment, Writer.fieldLine]
  have hwritten : ∀ p ∈ [(FieldKey.phase, nines n)], IsLineText p.2.toList := by
    intro p hp
    obtain rfl := List.mem_singleton.mp hp
    exact isLineText_nines n
  have hfields := commentFields_comment .hash hwritten
  simp only [List.map_cons, List.map_nil, FieldKey.spelling] at hfields
  rw [hcomment, hfields]

theorem commentsIn_phaseComment :
    commentsIn (phaseComment n).toList = [⟨(phaseComment n).toList, 1, none⟩] := by
  have hline : lines (phaseComment n).toList = [(phaseComment n).toList] := by
    apply lines_of_not_mem
    rw [toList_phaseComment]
    intro hmem
    rcases List.mem_append.mp hmem with hmem | hmem
    · exact absurd hmem (by decide)
    · exact forall_mem_nines n (P := (· ≠ '\n')) (by decide) _ hmem rfl
  rw [commentsIn, hline, commentsFrom]
  have hspan : blockSpan? (phaseComment n).toList [] = some 0 := by
    rw [toList_phaseComment]
    rfl
  have hmark : occursIn fieldMark (phaseComment n).toList = true := by
    rw [toList_phaseComment]
    rfl
  simp [hspan, unlines, hmark, nextEntity?, commentsFrom]

theorem isOverlong_nines (hn : maxDigits < n) :
    isOverlong ("phase".toList, (nines n).toList) = true := by
  have hkey : FieldKey.ofText? "phase".toList = some .phase := FieldKey.ofText?_spelling .phase
  have hdigits := phaseDigits_nines n (Nat.ne_zero_of_lt hn)
  rw [isOverlong, hkey, hdigits]
  simpa using hn

theorem extract_phaseComment {path : String} (hpath : isComposite path.toList = false)
    (hn : maxDigits < n) : extract (phaseComment n) path = .error (.tooLong n) := by
  have hfields : fieldsIn (phaseComment n).toList path.toList =
      ("phase".toList, (nines n).toList) :: objectFieldsIn (phaseComment n).toList := by
    simp only [fieldsIn, scriptParts, hpath, Bool.false_eq_true, if_false, List.flatMap_singleton,
      commentFieldsIn, commentsIn_phaseComment, commentFields_phaseComment, List.singleton_append]
  have hfind : (fieldsIn (phaseComment n).toList path.toList).find? isOverlong =
      some ("phase".toList, (nines n).toList) := by
    rw [hfields]
    exact List.find?_cons_of_pos (isOverlong_nines n hn)
  rw [(outcome_extract (phaseComment n) path).eq_error _ hfind,
    phaseDigits_nines n (Nat.ne_zero_of_lt hn)]

end Nines

theorem extract_fails_on_long_phase :
    extract (phaseComment 4301) "a.ts" = .error (.tooLong 4301) :=
  extract_phaseComment 4301 (by decide) (by decide)

end Marginalia.Extract
