/-
  Marginalia/Proofs/Extract/Comment.lean
  ======================================
  **Fields that are written into a comment are read from it.**  A comment is made of
  lines `@mm:key=text`, each after a mark of the comment style.  Reading takes off
  the blanks and the marks at both ends of a line, so a text comes back as it was
  written if none of it could be taken for these (`IsLineText`).  A text of that kind
  stays one when something of the same kind is put in front of it with a sign between
  (`IsLineText.append_cons`), which covers lists of items as well as whole lines.
-/
import Marginalia.Extract.Comment
import Marginalia.Proofs.Text.Lines
import Marginalia.Record.Writer

namespace Marginalia

open Marginalia.Text

/-- The spelling under which a field is written. -/
def FieldKey.spelling : FieldKey → String
  | .id => "id"
  | .name => "name"
  | .desc => "desc"
  | .version => "version"
  | .visibility => "visibility"
  | .status => "status"
  | .phase => "phase"
  | .tags => "tags"
  | .deps => "deps"
  | .ai => "ai"
  | .aiSummary => "ai:summary"
  | .aiUsage => "ai:usage"
  | .aiExamples => "ai:examples"

theorem FieldKey.ofText?_spelling (k : FieldKey) : FieldKey.ofText? k.spelling.toList = some k := by
  cases k <;> decide

namespace Extract

/-! ### Texts on a line -/

/-- A text that a line of a comment ends with and gives back: there is nothing to trim, it stays on
its line, and it does not look like the end of the comment. -/
structure IsLineText (cs : List Char) : Prop where
  trimmed : trim cs = cs
  unbroken : ∀ c ∈ cs, isLineBreak c = false
  unclosed : ¬ ['*', '/'] <:+ cs

theorem forall_of_all_not {α : Type} {p : α → Bool} {l : List α}
    (h : (l.all fun x => !p x) = true) :
    ∀ x ∈ l, p x = false := by
  intro x hx
  simpa using List.all_eq_true.mp h x hx

instance (cs : List Char) : Decidable (IsLineText cs) :=
  decidable_of_iff
    (trim cs = cs ∧ (cs.all fun c => !isLineBreak c) = true ∧ ¬ ['*', '/'] <:+ cs)
    ⟨fun h => ⟨h.1, forall_of_all_not h.2.1, h.2.2⟩,
      fun h => ⟨h.trimmed, by simpa using h.unbroken, h.unclosed⟩⟩

theorem isLineText_of_forall {cs : List Char}
    (h : ∀ c ∈ cs, isBlank c = false ∧ isLineBreak c = false ∧ c ≠ '/') : IsLineText cs where
  trimmed := by
    rw [trim_eq_self_iff, trimLeft_eq_self_iff, trimRight_eq_self_iff]
    constructor
    · intro c hc
      exact (h c (List.mem_of_mem_head? hc)).1
    · intro c hc
      exact (h c (List.mem_of_mem_getLast? hc)).1
  unbroken c hc := (h c hc).2.1
  unclosed hclosed := (h '/' (hclosed.subset (by simp))).2.2 rfl

/-- Something in front of a sign makes no end of a comment of what follows the sign. -/
theorem not_closed_append_cons {b : List Char} {c : Char} (hb : ¬ ['*', '/'] <:+ b)
    (hstar : c ≠ '*') (hslash : c ≠ '/') (a : List Char) : ¬ ['*', '/'] <:+ a ++ c :: b := by
  intro hclosed
  -- the two signs that close a comment lie in `b`, or one of them is `c`
  rcases List.suffix_or_suffix_of_suffix hclosed (List.suffix_append a (c :: b)) with h | h
  · rcases List.suffix_cons_iff.mp h with h | h
    · exact hstar (List.cons.inj h).1.symm
    · exact hb h
  · rcases List.suffix_cons_iff.mp h with h | h
    · exact hstar (List.cons.inj h).1
    · rcases List.suffix_cons_iff.mp h with h | h
      · exact hslash (List.cons.inj h).1
      · simp at h

theorem IsLineText.append_cons {a b : List Char} {c : Char} (ha : IsLineText a)
    (hb : IsLineText b) (hc : isBlank c = false) (hbreak : isLineBreak c = false)
    (hstar : c ≠ '*') (hslash : c ≠ '/') : IsLineText (a ++ c :: b) := by
  constructor
  · exact trim_append_cons ha.trimmed hb.trimmed hc
  · intro d hd
    rcases List.mem_append.mp hd with hd | hd
    · exact ha.unbroken d hd
    · rcases List.mem_cons.mp hd with rfl | hd
      · exact hbreak
      · exact hb.unbroken d hd
  · exact not_closed_append_cons hb.unclosed hstar hslash a

/-! ### Marks of a line -/

theorem dropBlockEnd_of_unclosed {cs : List Char} (h : ¬ ['*', '/'] <:+ cs) :
    dropBlockEnd cs = cs := by
  unfold dropBlockEnd
  split
  · rename_i rest hrest
    refine absurd ⟨rest.reverse, ?_⟩ h
    rw [← List.reverse_reverse cs, hrest]
    simp
  · rfl

theorem dropBlockEnd_closed (w : List Char) :
    dropBlockEnd (w ++ ['*', '/']) = w.rdropWhile (· == '*') := by
  simp [dropBlockEnd, List.rdropWhile]

theorem dropBlockEnd_isPrefix (v : List Char) : dropBlockEnd v <+: v := by
  by_cases hclosed : ['*', '/'] <:+ v
  · obtain ⟨w, rfl⟩ := hclosed
    have hstars : w.rdropWhile (· == '*') <+: w := List.rdropWhile_prefix _ w
    rw [dropBlockEnd_closed]
    exact hstars.trans (List.prefix_append w _)
  · simp [dropBlockEnd_of_unclosed hclosed]

theorem dropBlockEnd_eq_self_iff {v : List Char} :
    dropBlockEnd v = v ↔ ¬ ['*', '/'] <:+ v := by
  constructor
  · rintro h ⟨w, rfl⟩
    rw [dropBlockEnd_closed] at h
    have hstars : w.rdropWhile (· == '*') <+: w := List.rdropWhile_prefix _ w
    have hlength := hstars.length_le
    rw [h, List.length_append, List.length_cons] at hlength
    omega
  · exact dropBlockEnd_of_unclosed

theorem dropBlockEnd_append_cons {c : Char} (hstar : c ≠ '*') (hslash : c ≠ '/')
    (a v : List Char) : dropBlockEnd (a ++ c :: v) = a ++ c :: dropBlockEnd v := by
  by_cases hclosed : ['*', '/'] <:+ v
  · obtain ⟨w, rfl⟩ := hclosed
    have hassoc : a ++ c :: (w ++ ['*', '/']) = (a ++ c :: w) ++ ['*', '/'] := by simp
    rw [hassoc, dropBlockEnd_closed, dropBlockEnd_closed]
    exact rdropWhile_append_cons (by simpa using hstar) a w
  · rw [dropBlockEnd_of_unclosed hclosed,
      dropBlockEnd_of_unclosed (not_closed_append_cons hclosed hstar hslash a)]

theorem cleanLine_hash {t : List Char} (hline : IsLineText ('#' :: ' ' :: t)) (ht : trim t = t) :
    cleanLine ('#' :: ' ' :: t) = t := by
  have hstart : dropBlockStart ('#' :: ' ' :: t) = '#' :: ' ' :: t := rfl
  have hmark : dropLineMark ('#' :: ' ' :: t) = ' ' :: t := rfl
  rw [cleanLine, hline.trimmed, hstart, dropBlockEnd_of_unclosed hline.unclosed, hline.trimmed,
    hmark, trim_blank_cons (by decide), ht]

theorem cleanLine_star {t : List Char} (hline : IsLineText ('*' :: ' ' :: t)) (ht : trim t = t) :
    cleanLine (' ' :: '*' :: ' ' :: t) = t := by
  have hstart : dropBlockStart ('*' :: ' ' :: t) = '*' :: ' ' :: t := rfl
  have hmark : dropLineMark ('*' :: ' ' :: t) = ' ' :: t := rfl
  rw [cleanLine, trim_blank_cons (by decide), hline.trimmed, hstart,
    dropBlockEnd_of_unclosed hline.unclosed, hline.trimmed, hmark, trim_blank_cons (by decide), ht]

/-! ### Fields on a line -/

/-- The characters of a field on its line, before the mark of the comment style. -/
def fieldText (k : FieldKey) (v : String) : List Char := (Writer.fieldLine k.spelling v).toList

theorem fieldText_eq (k : FieldKey) (v : String) :
    fieldText k v = ("@mm:".toList ++ k.spelling.toList) ++ '=' :: v.toList := by
  simp [fieldText, Writer.fieldLine]

theorem field?_fieldText (k : FieldKey) (v : String) :
    field? (fieldText k v) = some (k.spelling.toList, v.toList) := by
  rw [fieldText_eq]
  cases k <;> rfl

/-- What stands in front of a field on its line is a text of a line too, whatever the mark. -/
theorem isLineText_marked {v : String} (hv : IsLineText v.toList) (k : FieldKey)
    (mark : List Char) (hmark : mark ∈ [[], ['#', ' '], ['*', ' ']]) :
    IsLineText (mark ++ fieldText k v) := by
  have hfront : ∀ k : FieldKey, ∀ mark ∈ [[], ['#', ' '], ['*', ' ']],
      IsLineText (mark ++ ("@mm:".toList ++ k.spelling.toList)) := by
    intro k
    cases k <;> decide
  rw [fieldText_eq, ← List.append_assoc]
  exact (hfront k mark hmark).append_cons hv (by decide) (by decide) (by decide) (by decide)

/-! ### Comments -/

/-- What stands in front of a field in the given style. -/
def lineMark : Writer.Style → List Char
  | .hash => ['#', ' ']
  | .block => [' ', '*', ' ']

/-- The lines of a comment in the given style. -/
def commentLines (style : Writer.Style) (ts : List (List Char)) : List (List Char) :=
  match style with
  | .hash => ts.map (lineMark .hash ++ ·)
  | .block => ['/', '*', '*'] :: ts.map (lineMark .block ++ ·) ++ [[' ', '*', '/']]

theorem toList_comment (style : Writer.Style) (ls : List String) :
    (Writer.comment style ls).toList = unlines (commentLines style (ls.map String.toList)) := by
  unfold Writer.comment
  rw [String.toList_intercalate]
  cases style with
  | hash => simp [unlines, commentLines, lineMark, Function.comp_def]
  | block => simp [unlines, commentLines, lineMark, Function.comp_def]

/-- Every line of a comment is one that frames it or one that was put into it. -/
theorem mem_commentLines {style : Writer.Style} {ts : List (List Char)} {l : List Char}
    (h : l ∈ commentLines style ts) :
    l ∈ [['/', '*', '*'], [' ', '*', '/']] ∨ ∃ t ∈ ts, l = lineMark style ++ t := by
  cases style with
  | hash =>
    obtain ⟨t, ht, rfl⟩ := List.mem_map.mp h
    exact .inr ⟨t, ht, rfl⟩
  | block =>
    rcases List.mem_append.mp h with h | h
    · rcases List.mem_cons.mp h with rfl | h
      · exact .inl (by simp)
      · obtain ⟨t, ht, rfl⟩ := List.mem_map.mp h
        exact .inr ⟨t, ht, rfl⟩
    · exact .inl (List.mem_cons_of_mem _ h)

/-- Key and value of a line of a comment that is a field. -/
def readLine (line : List Char) : Option (List Char × List Char) :=
  (field? (cleanLine line)).map fun (k, v) => (k, trim v)

theorem commentFields_eq (block : List Char) :
    commentFields block = (breakLines block).filterMap readLine := rfl

/-- The lines that frame a comment are not fields. -/
theorem filterMap_readLine_commentLines (style : Writer.Style) (ts : List (List Char)) :
    (commentLines style ts).filterMap readLine =
      ts.filterMap fun t => readLine (lineMark style ++ t) := by
  have hopen : readLine ['/', '*', '*'] = none := by decide
  have hclose : readLine [' ', '*', '/'] = none := by decide
  cases style with
  | hash => simp only [commentLines, List.filterMap_map, Function.comp_def]
  | block =>
    rw [commentLines, List.cons_append, List.filterMap_cons_none hopen, List.filterMap_append,
      List.filterMap_cons_none hclose, List.filterMap_map]
    simp

section

variable {v : String} (hv : IsLineText v.toList) (k : FieldKey) (style : Writer.Style)

include hv

theorem unbroken_lineMark_append :
    ∀ c ∈ lineMark style ++ fieldText k v, isLineBreak c = false := by
  have hmark : ((lineMark style).all fun c => !isLineBreak c) = true := by
    cases style <;> decide
  intro c hc
  rcases List.mem_append.mp hc with hc | hc
  · exact forall_of_all_not hmark c hc
  · exact (isLineText_marked hv k [] (by simp)).unbroken c hc

theorem readLine_lineMark_append :
    readLine (lineMark style ++ fieldText k v) = some (k.spelling.toList, v.toList) := by
  have hbare : trim (fieldText k v) = fieldText k v :=
    (isLineText_marked hv k [] (by simp)).trimmed
  have hclean : cleanLine (lineMark style ++ fieldText k v) = fieldText k v := by
    cases style with
    | hash => exact cleanLine_hash (isLineText_marked hv k ['#', ' '] (by simp)) hbare
    | block => exact cleanLine_star (isLineText_marked hv k ['*', ' '] (by simp)) hbare
  rw [readLine, hclean, field?_fieldText, Option.map_some]
  simp only [hv.trimmed]

end

/-- Fields that are written into a comment, each with a text that a line gives back, are the fields
of that comment. -/
theorem commentFields_comment (style : Writer.Style) {fields : List (FieldKey × String)}
    (h : ∀ p ∈ fields, IsLineText p.2.toList) :
    commentFields (Writer.comment style
      (fields.map fun p => Writer.fieldLine p.1.spelling p.2)).toList =
      fields.map fun p => (p.1.spelling.toList, p.2.toList) := by
  have hframe : ∀ l ∈ [['/', '*', '*'], [' ', '*', '/']],
      l ≠ [] ∧ (l.all fun c => !isLineBreak c) = true := by decide
  have hlines : breakLines (unlines (commentLines style (fields.map fun p => fieldText p.1 p.2))) =
      commentLines style (fields.map fun p => fieldText p.1 p.2) := by
    apply breakLines_unlines
    · intro l hl
      rcases mem_commentLines hl with hl | ⟨t, _, rfl⟩
      · exact (hframe l hl).1
      · cases style <;> simp [lineMark]
    · intro l hl
      rcases mem_commentLines hl with hl | ⟨t, ht, rfl⟩
      · exact forall_of_all_not (hframe l hl).2
      · obtain ⟨p, hp, rfl⟩ := List.mem_map.mp ht
        exact unbroken_lineMark_append (h p hp) p.1 style
  have htexts : (fields.map fun p => Writer.fieldLine p.1.spelling p.2).map String.toList =
      fields.map fun p => fieldText p.1 p.2 := by
    simp only [List.map_map, Function.comp_def, fieldText]
  rw [toList_comment, htexts, commentFields_eq, hlines, filterMap_readLine_commentLines,
    List.filterMap_map, ← List.filterMap_eq_map]
  apply List.filterMap_congr
  intro p hp
  rw [Function.comp_apply, Function.comp_apply, readLine_lineMark_append (h p hp) p.1 style]

end Extract

end Marginalia
