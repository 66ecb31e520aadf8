/-
  Marginalia/Proofs/Draft/Suggestion.lean
  =======================================
  **A draft says what was suggested.**  The id that a file name gives is made of
  lower-case letters, digits and single underscores between them (`IsIdText`), so
  nothing more can be taken off it: it suggests itself (`idFor_eq_self`).  Such a text
  also stands on a line of a comment as it is, like the placeholder, the tags and the
  phase, so reading the draft fills the same four fields of the record
  (`applyAll_drafted`).  The status of a draft is none that a record can have and
  leaves no trace.
-/
import Marginalia.Draft
import Marginalia.Proofs.Record.RoundTrip
import Mathlib.Data.List.Chain

namespace Marginalia.Draft

open Marginalia.Text Marginalia.Literal Marginalia.Extract

variable {α κ : Type}

/-! ### Texts of ids -/

/-- Lower-case letters, digits and the underscore. -/
def isIdChar (c : Char) : Bool := c.isLower || c.isDigit || c = '_'

/-- Lower-case letters and digits, with single underscores between them. -/
structure IsIdText (cs : List Char) : Prop where
  letters : ∀ c ∈ cs, isIdChar c = true
  opening : ∀ c ∈ cs.head?, c ≠ '_'
  closing : ∀ c ∈ cs.getLast?, c ≠ '_'
  single : cs.IsChain fun c d => c ≠ '_' ∨ d ≠ '_'

theorem isWordChar_iff {c : Char} : isWordChar c = true ↔
    ((c.isUpper = true ∨ c.isLower = true) ∨ c.isDigit = true) ∨ c = '_' := by
  have hform : isWordChar c = (c.isUpper || c.isLower || c.isDigit || decide (c = '_')) := rfl
  simp only [hform, Bool.or_eq_true, decide_eq_true_eq]

/-- What holds of the word characters among the first 128 characters holds of all of them. -/
theorem forall_isWordChar {P : Char → Prop}
    (h : ∀ n < 128, isWordChar (Char.ofNat n) = true → P (Char.ofNat n)) {c : Char}
    (hc : isWordChar c = true) : P c := by
  have hascii : c.toNat < 128 := by
    have hbelow : ∀ d : Char, d.toNat < 128 → c.val ≤ d.val → c.toNat < 128 := fun d hd hle =>
      Nat.lt_of_le_of_lt (UInt32.le_iff_toNat_le.mp hle) hd
    rcases isWordChar_iff.mp hc with ((hupper | hlower) | hdigit) | rfl
    · exact hbelow 'Z' (by decide) (of_decide_eq_true hupper).2
    · exact hbelow 'z' (by decide) (of_decide_eq_true (Bool.and_eq_true_iff.mp hlower).2)
    · exact hbelow '9' (by decide) (of_decide_eq_true (Bool.and_eq_true_iff.mp hdigit).2)
    · decide
  have hchar := h c.toNat hascii
  rw [Char.ofNat_toNat] at hchar
  exact hchar hc

theorem isIdChar_toLower {c : Char} (h : isWordChar c = true) : isIdChar c.toLower = true :=
  forall_isWordChar (P := fun c => isIdChar c.toLower = true) (by decide +kernel) h

theorem toLower_ne_underscore {c : Char} (hc : c ≠ '_') : c.toLower ≠ '_' := by
  by_cases h : isWordChar c = true
  · exact forall_isWordChar (P := fun c => c ≠ '_' → c.toLower ≠ '_') (by decide +kernel) h hc
  · have hupper : ¬ c.isUpper = true := fun hupper => h (isWordChar_iff.mpr (by simp [hupper]))
    have hsame : c.toLower = c := dif_neg fun hrange => hupper (decide_eq_true hrange)
    rwa [hsame]

theorem isWordChar_of_isIdChar {c : Char} (h : isIdChar c = true) : isWordChar c = true := by
  simp only [isIdChar, Bool.or_eq_true, decide_eq_true_eq] at h
  rw [isWordChar_iff]
  rcases h with (hlower | hdigit) | hunderscore
  · exact .inl (.inl (.inr hlower))
  · exact .inl (.inr hdigit)
  · exact .inr hunderscore

theorem toLower_of_isIdChar {c : Char} (h : isIdChar c = true) : c.toLower = c :=
  forall_isWordChar (P := fun c => isIdChar c = true → c.toLower = c) (by decide +kernel)
    (isWordChar_of_isIdChar h) h

theorem plain_of_isIdChar {c : Char} (h : isIdChar c = true) :
    (isBlank c = false ∧ isLineBreak c = false ∧ c ≠ '/') ∧ isQuote c = false ∧ c ≠ '.' ∧
      c ≠ '\\' :=
  forall_isWordChar (P := fun c => isIdChar c = true →
      (isBlank c = false ∧ isLineBreak c = false ∧ c ≠ '/') ∧ isQuote c = false ∧ c ≠ '.' ∧
        c ≠ '\\') (by decide +kernel) (isWordChar_of_isIdChar h) h

/-! ### The id of a file name -/

theorem isWordChar_of_mem_squeeze {cs : List Char} {c : Char} (h : c ∈ squeeze cs) :
    isWordChar c = true := by
  induction cs with
  | nil => simp [squeeze] at h
  | cons d cs ih =>
    simp only [squeeze] at h
    split at h
    · rename_i hd
      rcases List.mem_cons.mp h with rfl | h
      · exact (Bool.and_eq_true _ _ ▸ hd).1
      · exact ih h
    · split at h
      · exact ih h
      · rcases List.mem_cons.mp h with rfl | h
        · decide
        · exact ih h

theorem isChain_squeeze (cs : List Char) :
    (squeeze cs).IsChain fun c d => c ≠ '_' ∨ d ≠ '_' := by
  induction cs with
  | nil => exact .nil
  | cons c cs ih =>
    simp only [squeeze]
    split
    · rename_i hc
      have hne : c ≠ '_' := of_decide_eq_true (Bool.and_eq_true _ _ ▸ hc).2
      exact List.isChain_cons.mpr ⟨fun d _ => .inl hne, ih⟩
    · split
      · exact ih
      · rename_i hhead
        refine List.isChain_cons.mpr ⟨fun d hd => .inr ?_, ih⟩
        rintro rfl
        exact hhead (by simpa using hd)

theorem squeeze_eq_self {cs : List Char} (h : ∀ c ∈ cs, isWordChar c = true)
    (hsingle : cs.IsChain fun c d => c ≠ '_' ∨ d ≠ '_') : squeeze cs = cs := by
  induction cs with
  | nil => rfl
  | cons c cs ih =>
    obtain ⟨hnext, hrest⟩ := List.isChain_cons.mp hsingle
    have hcs := ih (fun d hd => h d (List.mem_cons_of_mem c hd)) hrest
    simp only [squeeze, hcs, h c List.mem_cons_self, Bool.true_and, decide_eq_true_eq]
    by_cases hc : c = '_'
    · have hhead : cs.head? ≠ some '_' := fun hd => (hnext '_' hd).elim (absurd hc) (absurd rfl)
      simp [hc, hhead]
    · simp [hc]

theorem trimUnderscores_eq (cs : List Char) :
    trimUnderscores cs = (cs.dropWhile (· == '_')).rdropWhile (· == '_') := rfl

theorem trimUnderscores_isInfix (cs : List Char) : trimUnderscores cs <:+: cs := by
  rw [trimUnderscores_eq]
  exact (List.rdropWhile_prefix _ _).isInfix.trans (List.dropWhile_suffix _).isInfix

theorem head?_trimUnderscores {cs : List Char} {c : Char} (h : c ∈ (trimUnderscores cs).head?) :
    c ≠ '_' := by
  have hprefix : trimUnderscores cs <+: cs.dropWhile (· == '_') := List.rdropWhile_prefix _ _
  have hfirst : (cs.dropWhile (· == '_')).head? = some c := by
    obtain ⟨rest, hrest⟩ := hprefix
    rw [← hrest, List.head?_append, h, Option.some_or]
  have hnot := List.head?_dropWhile_not (· == '_') cs
  rw [hfirst] at hnot
  simpa using hnot

theorem getLast?_trimUnderscores {cs : List Char} {c : Char}
    (h : c ∈ (trimUnderscores cs).getLast?) : c ≠ '_' := by
  have hne : trimUnderscores cs ≠ [] := by
    intro hnil
    simp [hnil] at h
  obtain rfl : (trimUnderscores cs).getLast hne = c := by
    rw [Option.mem_def, List.getLast?_eq_some_getLast hne] at h
    exact Option.some.inj h
  have hlast := List.rdropWhile_last_not (· == '_') (cs.dropWhile (· == '_')) hne
  simpa only [beq_iff_eq, trimUnderscores_eq] using hlast

theorem trimUnderscores_eq_self {cs : List Char} (hopen : ∀ c ∈ cs.head?, c ≠ '_')
    (hclose : ∀ c ∈ cs.getLast?, c ≠ '_') : trimUnderscores cs = cs := by
  have hleft : cs.dropWhile (· == '_') = cs := by
    cases cs with
    | nil => rfl
    | cons c cs => exact List.dropWhile_cons_of_neg (by simpa using hopen c rfl)
  rw [trimUnderscores_eq, hleft, List.rdropWhile_eq_self_iff]
  intro hne
  simpa using hclose _ (List.getLast?_eq_some_getLast hne)

/-- Whatever the name of a file, its id is of the form of an id. -/
theorem isIdText_idFor (path : String) : IsIdText (idFor path).toList := by
  have hid : ∀ cs, IsIdText (lower (trimUnderscores (squeeze cs))) := by
    intro cs
    have hword : ∀ c ∈ trimUnderscores (squeeze cs), isWordChar c = true := fun c hc =>
      isWordChar_of_mem_squeeze ((trimUnderscores_isInfix _).subset hc)
    have hchain := isChain_squeeze cs
    obtain ⟨front, rest, hsplit⟩ := trimUnderscores_isInfix (squeeze cs)
    rw [← hsplit] at hchain
    constructor
    · intro c hc
      obtain ⟨d, hd, rfl⟩ := List.mem_map.mp hc
      exact isIdChar_toLower (hword d hd)
    · intro c hc
      rw [lower, List.head?_map] at hc
      obtain ⟨d, hd, rfl⟩ := Option.map_eq_some_iff.mp hc
      exact toLower_ne_underscore (head?_trimUnderscores hd)
    · intro c hc
      rw [lower, List.getLast?_map] at hc
      obtain ⟨d, hd, rfl⟩ := Option.map_eq_some_iff.mp hc
      exact toLower_ne_underscore (getLast?_trimUnderscores hd)
    · exact List.isChain_map_of_isChain Char.toLower
        (fun c d h => h.imp toLower_ne_underscore toLower_ne_underscore)
        hchain.left_of_append.right_of_append
  rw [idFor, String.toList_ofList]
  exact hid _

theorem basename_of_not_mem {s : String} (hslash : '/' ∉ s.toList) (hdot : s ≠ ".") :
    Path.basename s = s := by
  have hsplit : splitString '/' s = [s] := by
    rw [splitString, splitAt_of_not_mem hslash, List.map_singleton, String.ofList_toList]
  by_cases hs : s = ""
  · subst hs
    decide
  · simp [Path.basename, Path.name, Path.ofString, Path.components, hsplit, hs, hdot]

theorem stem_of_not_mem {cs : List Char} (h : '.' ∉ cs) : stem cs = cs := by
  cases cs with
  | nil => rfl
  | cons c cs =>
    have hpoint : cs.contains '.' = false := by simpa using fun hc => h (List.mem_cons_of_mem c hc)
    rw [stem, hpoint, if_neg Bool.false_ne_true]

/-- A text of the form of an id suggests itself. -/
theorem idFor_eq_self {s : String} (h : IsIdText s.toList) : idFor s = s := by
  have hplain : ∀ c ∈ s.toList, _ := fun c hc => plain_of_isIdChar (h.letters c hc)
  have hslashes : replaceChar '\\' '/' s.toList = s.toList :=
    (List.map_congr_left fun c hc => if_neg (hplain c hc).2.2.2).trans (List.map_id _)
  have hname : Path.basename s = s := by
    apply basename_of_not_mem
    · exact fun hmem => (hplain '/' hmem).1.2.2 rfl
    · rintro rfl
      have hdot : isIdChar '.' = true := h.letters '.' (by simp)
      exact absurd hdot (by decide)
  have hstem : stem s.toList = s.toList :=
    stem_of_not_mem fun hmem => (hplain '.' hmem).2.2.1 rfl
  have hsqueeze : squeeze s.toList = s.toList :=
    squeeze_eq_self (fun c hc => isWordChar_of_isIdChar (h.letters c hc)) h.single
  have hlower : lower s.toList = s.toList :=
    (List.map_congr_left fun c hc => toLower_of_isIdChar (h.letters c hc)).trans (List.map_id _)
  simp only [idFor, hslashes, String.ofList_toList, hname, hstem, hsqueeze,
    trimUnderscores_eq_self h.opening h.closing, hlower]

theorem IsIdText.isPlainText {s : String} (h : IsIdText s.toList) : IsPlainText s :=
  isPlainText_of_no_quote (isLineText_of_forall fun c hc => (plain_of_isIdChar (h.letters c hc)).1)
    fun c hc => (plain_of_isIdChar (h.letters c hc)).2.1

/-! ### Tags and phase -/

theorem mem_tags_of_mem_tagsFor {path tag : String} (h : tag ∈ tagsFor path) :
    tag ∈ folderTags.map Prod.snd := by
  obtain ⟨names, hnames, rfl⟩ := List.mem_map.mp h
  exact List.mem_map_of_mem (List.mem_of_mem_filter hnames)

theorem isItemText_of_mem_tagsFor {path tag : String} (h : tag ∈ tagsFor path) :
    IsItemText tag := by
  have hall : ∀ tag ∈ folderTags.map Prod.snd, IsItemText tag := by decide
  exact hall tag (mem_tags_of_mem_tagsFor h)

/-- A phase that is suggested is that of an entry. -/
theorem exists_entry_of_mem_neighbourPhase {db : Database α κ} {path : String} {n : Int}
    (h : n ∈ neighbourPhase db path) : ∃ e ∈ Table.values db.entries, n ∈ e.phase := by
  unfold neighbourPhase at h
  split at h
  · cases h
  · obtain ⟨e, he, hphase⟩ := List.exists_of_findSome?_eq_some h
    split at hphase
    · exact ⟨e, he, hphase⟩
    · cases hphase

/-! ### Reading the draft -/

/-- The tags that are suggested, if any are. -/
def suggestedTags (path : String) : Option (List String) :=
  if tagsFor path = [] then none else some (tagsFor path)

/-- The keys and texts of a draft. -/
def drafted (db : Database α κ) (path : String) : List (FieldKey × String) :=
  [(.id, idFor path), (.desc, placeholder)] ++ keyLine .tags ((suggestedTags path).map joinedItems)
    ++ keyLine .phase ((neighbourPhase db path).map showInt) ++ [(.status, "draft")]

theorem suggestion_eq (db : Database α κ) (style : Writer.Style) (path : String) :
    suggestion db style path = Writer.comment style ((drafted db path).map asLine) := by
  have htags : (keyLine .tags ((suggestedTags path).map joinedItems)).map asLine =
      if (tagsFor path).isEmpty then []
      else [Writer.fieldLine "tags" (String.intercalate "," (tagsFor path))] := by
    simp only [suggestedTags, List.isEmpty_iff]
    split <;> rfl
  rw [suggestion, drafted, List.map_append, List.map_append, List.map_append, htags]
  cases neighbourPhase db path <;> rfl

theorem isItemText_of_mem_suggestedTags {path : String} :
    ∀ l ∈ suggestedTags path, ∀ t ∈ l, IsItemText t := by
  intro l hl t ht
  unfold suggestedTags at hl
  split at hl
  · cases hl
  · obtain rfl := Option.some.inj hl
    exact isItemText_of_mem_tagsFor ht

/-- Everything in a draft can stand on a line. -/
theorem isLineText_of_mem_drafted (db : Database α κ) (path : String) :
    ∀ p ∈ drafted db path, IsLineText p.2.toList := by
  have hdesc : IsLineText placeholder.toList := by decide
  have hstatus : IsLineText "draft".toList := by decide
  simp only [drafted, List.forall_mem_append, List.forall_mem_cons]
  refine ⟨⟨⟨⟨?_, hdesc, by simp⟩, ?_⟩, ?_⟩, hstatus, by simp⟩
  · exact (isIdText_idFor path).isPlainText.toIsLineText
  · exact isLineText_of_mem_line_map fun l hl =>
      isLineText_joinedItems (isItemText_of_mem_suggestedTags l hl)
  · exact isLineText_of_mem_line_map fun n _ => (isPlainText_showInt n).toIsLineText

/-- The keys and texts of a draft, applied to the empty record, give the record that is
suggested. -/
theorem applyAll_drafted {db : Database α κ} {path : String}
    (hphase : ∀ n ∈ neighbourPhase db path, IsShort n) :
    applyAll {} (drafted db path) = .ok {
      id := some (idFor path), desc := some placeholder, tags := suggestedTags path,
      phase := neighbourPhase db path } := by
  have hdesc : IsPlainText placeholder := by decide
  have hnone : Status.ofName? (scalarOf "draft".toList) = none := by decide
  generalize hid : idFor path = id
  have hidText : IsPlainText id := hid ▸ (isIdText_idFor path).isPlainText
  have hopening : applyAll {} [(.id, id), (.desc, placeholder)] =
      .ok { id := some id, desc := some placeholder } := by
    simp only [applyAll, List.foldlM_cons, List.foldlM_nil, Record.apply,
      scalarOf_of_isPlainText hidText, scalarOf_of_isPlainText hdesc, ok_bind]
    rfl
  have htags : applyAll { id := some id, desc := some placeholder }
      (keyLine .tags ((suggestedTags path).map joinedItems)) =
      .ok { id := some id, desc := some placeholder, tags := suggestedTags path } :=
    applyAll_line (fun x => { id := some id, desc := some placeholder, tags := x }) fun l hl => by
      simp only [Record.apply, listOf_joinedItems (isItemText_of_mem_suggestedTags l hl)]
  have hnumber : applyAll { id := some id, desc := some placeholder, tags := suggestedTags path }
      (keyLine .phase ((neighbourPhase db path).map showInt)) =
      .ok { id := some id, desc := some placeholder, tags := suggestedTags path,
            phase := neighbourPhase db path } :=
    applyAll_line (fun x => { id := some id, desc := some placeholder,
                              tags := suggestedTags path, phase := x }) fun n hn => by
      simp only [Record.apply, leadingInt?_showInt (hphase n hn)]
      rfl
  rw [drafted, hid, applyAll_append, applyAll_append, applyAll_append, hopening, ok_bind, htags,
    ok_bind, hnumber, ok_bind]
  simp only [applyAll, List.foldlM_cons, List.foldlM_nil, Record.apply, hnone, ok_bind]
  rfl

/-- A draft is read back, in either style, as the record with the suggested id, the placeholder, the
suggested tags and phase and nothing else.  The id has the form of an id and suggests itself. -/
theorem parseComment_suggestion (db : Database α κ)
    (hphases : ∀ e ∈ Table.values db.entries, ∀ n ∈ e.phase, IsShort n) (style : Writer.Style)
    (path : String) :
    parseComment (suggestion db style path).toList = .ok {
      id := some (idFor path)
      desc := some placeholder
      tags := if tagsFor path = [] then none else some (tagsFor path)
      phase := neighbourPhase db path } ∧
    IsIdText (idFor path).toList ∧ idFor (idFor path) = idFor path := by
  have hphase : ∀ n ∈ neighbourPhase db path, IsShort n := by
    intro n hn
    obtain ⟨e, he, hn⟩ := exists_entry_of_mem_neighbourPhase hn
    exact hphases e he n hn
  have hfields : commentFields (Writer.comment style ((drafted db path).map asLine)).toList = _ :=
    commentFields_comment style (isLineText_of_mem_drafted db path)
  refine ⟨?_, isIdText_idFor path, idFor_eq_self (isIdText_idFor path)⟩
  rw [suggestion_eq, parseComment, hfields, writeFields_spelling]
  exact applyAll_drafted hphase

theorem parseComment_suggestion_beside_widget :
    let db : Database String Nat := {
      entries := [("core", { id := "core", filePath := "src\\ui/core.ts", line := 1,
                             origin := .comment, phase := some (-3) })]
      ids := ["core"], graph := {}, stats := {}, build := ⟨"", "", 1, databaseFormat⟩ }
    let path := "web/ui\\__My Wídget--2.test.tsx"
    (∀ e ∈ Table.values db.entries, ∀ n ∈ e.phase, IsShort n) ∧
    parseComment (suggestion db .hash path).toList = .ok {
      id := some "my_w_dget_2_test", desc := some "Describe this module", tags := some ["ui"],
      phase := some (-3) } ∧
    IsIdText "my_w_dget_2_test".toList ∧ idFor "my_w_dget_2_test" = "my_w_dget_2_test" := by
  intro db path
  have hphases : ∀ e ∈ Table.values db.entries, ∀ n ∈ e.phase, IsShort n := by
    intro e he n hn
    obtain rfl := List.mem_singleton.mp he
    obtain rfl := Option.some.inj hn
    exact (length_decimal_le (k := 1) (by decide) (by decide)).trans (by decide)
  have hid : idFor path = "my_w_dget_2_test" := by decide +kernel
  have htags : tagsFor path = ["ui"] := by decide +kernel
  have hphase : neighbourPhase db path = some (-3) := by decide +kernel
  obtain ⟨hparse, htext, hself⟩ := parseComment_suggestion db hphases .hash path
  rw [hid] at hparse htext hself
  rw [htags, hphase] at hparse
  exact ⟨hphases, hparse, htext, hself⟩

end Marginalia.Draft
