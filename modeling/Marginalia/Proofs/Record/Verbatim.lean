/-
  Marginalia/Proofs/Record/Verbatim.lean
  ======================================
  **Which texts are stored as they are written.**  A text on the line of a comment is
  stored without what looks like the end of a block comment, and without a quote at
  either end, whether or not there is one at the other end as well
  (`parseComment_scalar`).  So it is stored as it is written exactly if it is plain: a
  text that is not enclosed in quotes can still lose a character
  (`parseComment_loses_characters`).

  Cleaning the line takes nothing off in front of the equals sign
  (`dropBlockEnd_append_cons`, `trim_append_cons_right`), so what is stored depends on
  the text alone.
-/
import Marginalia.Proofs.Record.Place
import Marginalia.Proofs.Record.Plain

namespace Marginalia

open Marginalia.Text Marginalia.Literal Marginalia.Extract

/-- The text is enclosed in two quotes of one kind. -/
def isEnclosed (cs : List Char) : Bool :=
  2 ≤ cs.length && cs.head?.any isQuote && cs.head? == cs.getLast?

/-! ### What reaches the record -/

/-- A text without the stars and slash that close a comment, and without quotes at its ends. -/
def stored (v : String) : String := String.ofList (unquoted (dropBlockEnd v.toList))

theorem stored_eq_self_iff {v : String} (htrim : trim v.toList = v.toList)
    (hline : ∀ c ∈ v.toList, isLineBreak c = false) : stored v = v ↔ IsPlainText v := by
  have hchars : stored v = v ↔ unquoted (dropBlockEnd v.toList) = v.toList := by
    rw [← String.toList_inj, stored, String.toList_ofList]
  rw [hchars]
  constructor
  · intro h
    have hkept : dropBlockEnd v.toList = v.toList := by
      apply (dropBlockEnd_isPrefix v.toList).eq_of_length_le
      have hinfix := unquoted_isInfix (dropBlockEnd v.toList)
      rw [h] at hinfix
      exact hinfix.length_le
    rw [hkept] at h
    obtain ⟨hopen, hclose⟩ := (unquoted_eq_self_iff htrim).mp h
    exact ⟨⟨htrim, hline, dropBlockEnd_eq_self_iff.mp hkept⟩, hopen, hclose⟩
  · intro hplain
    rw [dropBlockEnd_of_unclosed hplain.unclosed]
    exact hplain.unquoted_eq

section

variable {v : String} (htrim : trim v.toList = v.toList)

include htrim

/-- A line with a field is cleaned of its mark, and of what follows the text. -/
theorem cleanLine_hash_fieldText (k : FieldKey) :
    cleanLine ('#' :: ' ' :: fieldText k v) =
      fieldText k (String.ofList (trimRight (dropBlockEnd v.toList))) := by
  have hfront : ∀ mark ∈ [[], ['#', ' ']], trim (mark ++ ("@mm:".toList ++ k.spelling.toList)) =
      mark ++ ("@mm:".toList ++ k.spelling.toList) := by
    cases k <;> decide
  have hbare : trim ("@mm:".toList ++ k.spelling.toList) = "@mm:".toList ++ k.spelling.toList :=
    hfront [] (by simp)
  have hmarked := hfront ['#', ' '] (by simp)
  simp only [fieldText_eq, String.toList_ofList]
  generalize "@mm:".toList ++ k.spelling.toList = front at hbare hmarked ⊢
  have hline : trim ('#' :: ' ' :: (front ++ '=' :: v.toList)) =
      '#' :: ' ' :: (front ++ '=' :: v.toList) :=
    trim_append_cons hmarked htrim (by decide)
  have hend : dropBlockEnd ('#' :: ' ' :: (front ++ '=' :: v.toList)) =
      '#' :: ' ' :: (front ++ '=' :: dropBlockEnd v.toList) :=
    dropBlockEnd_append_cons (by decide) (by decide) ('#' :: ' ' :: front) v.toList
  have hblank : trim ('#' :: ' ' :: (front ++ '=' :: dropBlockEnd v.toList)) =
      '#' :: ' ' :: (front ++ '=' :: trimRight (dropBlockEnd v.toList)) :=
    trim_append_cons_right hmarked (by decide) (dropBlockEnd v.toList)
  have hstart : dropBlockStart ('#' :: ' ' :: (front ++ '=' :: v.toList)) =
      '#' :: ' ' :: (front ++ '=' :: v.toList) := rfl
  have hmark : dropLineMark ('#' :: ' ' :: (front ++ '=' :: trimRight (dropBlockEnd v.toList))) =
      ' ' :: (front ++ '=' :: trimRight (dropBlockEnd v.toList)) := rfl
  rw [cleanLine, hline, hstart, hend, hblank, hmark, trim_blank_cons (by decide),
    trim_append_cons_right hbare (by decide), trimRight_idem]

/-- Trimming the front of a text takes nothing off what is left of it. -/
theorem trim_trimRight_dropBlockEnd :
    trim (trimRight (dropBlockEnd v.toList)) = trimRight (dropBlockEnd v.toList) ∧
      trim (dropBlockEnd v.toList) = trimRight (dropBlockEnd v.toList) := by
  have hleft : ∀ x, x <+: v.toList → trimLeft x = x := by
    intro x hx
    rw [trimLeft_eq_self_iff]
    intro c hc
    apply trimLeft_eq_self_iff.mp (trim_eq_self_iff.mp htrim).1
    obtain ⟨rest, hrest⟩ := hx
    rw [← hrest, List.head?_append, hc, Option.some_or]
  have hend := dropBlockEnd_isPrefix v.toList
  rw [trim, trim, hleft _ ((trimRight_isPrefix _).trans hend), hleft _ hend]
  exact ⟨trimRight_idem _, rfl⟩

variable (hline : ∀ c ∈ v.toList, isLineBreak c = false)

include hline

theorem commentFields_hash_fieldText (k : FieldKey) :
    commentFields ('#' :: ' ' :: fieldText k v) =
      [(k.spelling.toList, trimRight (dropBlockEnd v.toList))] := by
  have hfront : ((['#', ' '] ++ ("@mm:".toList ++ k.spelling.toList)).all
      fun c => !isLineBreak c) = true := by
    cases k <;> decide
  have hunbroken : ∀ c ∈ '#' :: ' ' :: fieldText k v, isLineBreak c = false := by
    intro c hc
    rw [fieldText_eq, ← List.cons_append, ← List.cons_append] at hc
    rcases List.mem_append.mp hc with hc | hc
    · exact forall_of_all_not hfront c hc
    · rcases List.mem_cons.mp hc with rfl | hc
      · decide
      · exact hline c hc
  have hread : readLine ('#' :: ' ' :: fieldText k v) =
      some (k.spelling.toList, trimRight (dropBlockEnd v.toList)) := by
    rw [readLine, cleanLine_hash_fieldText htrim, field?_fieldText, String.toList_ofList,
      Option.map_some]
    simp only [(trim_trimRight_dropBlockEnd htrim).1]
  rw [commentFields_eq, breakLines_of_unbroken (by simp) hunbroken,
    List.filterMap_cons_some hread, List.filterMap_nil]

/-- A comment of one line applies the field on it to the text that is left of the line. -/
theorem parseComment_hash_fieldText (k : FieldKey) :
    parseComment ('#' :: ' ' :: fieldText k v) =
      Record.empty.apply k (trimRight (dropBlockEnd v.toList)) := by
  have happly : ∀ value, Record.empty.writeField k.spelling.toList value =
      Record.empty.apply k value := by
    intro value
    rw [Record.writeField, FieldKey.ofText?_spelling]
  rw [parseComment, commentFields_hash_fieldText htrim hline, Record.writeFields_cons, happly]
  exact bind_pure _

omit hline in
theorem scalarOf_trimRight_dropBlockEnd :
    scalarOf (trimRight (dropBlockEnd v.toList)) = stored v := by
  obtain ⟨hright, hwhole⟩ := trim_trimRight_dropBlockEnd htrim
  rw [scalarOf, stored, unquoted, unquoted, hright, hwhole]

end

/-- What a line of a comment stores for an id, a name, a description or a version, for every trimmed
text on one line; and it stores the text as it is written exactly if that is plain. -/
theorem parseComment_scalar {v : String} (htrim : trim v.toList = v.toList)
    (hline : ∀ c ∈ v.toList, isLineBreak c = false) :
    parseComment ("# @mm:id=" ++ v).toList = .ok { id := some (stored v) } ∧
    parseComment ("# @mm:name=" ++ v).toList = .ok { name := some (stored v) } ∧
    parseComment ("# @mm:desc=" ++ v).toList = .ok { desc := some (stored v) } ∧
    parseComment ("# @mm:version=" ++ v).toList = .ok { version := some (stored v) } ∧
    (stored v = v ↔ IsPlainText v) := by
  have htext : ∀ k : FieldKey, ∀ line : String, line = "# @mm:" ++ k.spelling ++ "=" →
      parseComment (line ++ v).toList =
        Record.empty.apply k (trimRight (dropBlockEnd v.toList)) := by
    rintro k line rfl
    rw [← parseComment_hash_fieldText htrim hline k, fieldText_eq]
    simp
  have hstored := scalarOf_trimRight_dropBlockEnd htrim
  refine ⟨?_, ?_, ?_, ?_, stored_eq_self_iff htrim hline⟩
  · rw [htext .id _ (by decide), Record.apply, hstored, Record.empty]
  · rw [htext .name _ (by decide), Record.apply, hstored, Record.empty]
  · rw [htext .desc _ (by decide), Record.apply, hstored, Record.empty]
  · rw [htext .version _ (by decide), Record.apply, hstored, Record.empty]

theorem parseComment_scalar_glob :
    let v := "'src' and **/"
    trim v.toList = v.toList ∧ (∀ c ∈ v.toList, isLineBreak c = false) ∧
      parseComment ("# @mm:version=" ++ v).toList = .ok { version := some "src' and" } ∧
      ¬ IsPlainText v := by
  intro v
  have htrim : trim v.toList = v.toList := by decide
  have hline : ∀ c ∈ v.toList, isLineBreak c = false := forall_of_all_not (by decide)
  have hstored : stored v = "src' and" := by decide
  obtain ⟨_, _, _, hversion, hself⟩ := parseComment_scalar htrim hline
  rw [hstored] at hversion hself
  refine ⟨htrim, hline, hversion, ?_⟩
  rw [← hself]
  decide

/-- Texts that are not enclosed in quotes and lose a character: a quote at one end, and what looks
like the end of a block comment. -/
theorem parseComment_loses_characters :
    (∀ v ∈ ["say \"hi\"", "'tis", "src/**/"], trim v.toList = v.toList ∧
      v.toList.any isLineBreak = false ∧ isEnclosed v.toList = false) ∧
    parseComment "# @mm:desc=say \"hi\"".toList = .ok { desc := some "say \"hi" } ∧
    parseComment "# @mm:name='tis".toList = .ok { name := some "tis" } ∧
    parseComment "# @mm:id=src/**/".toList = .ok { id := some "src/" } := by
  decide +kernel

end Marginalia
