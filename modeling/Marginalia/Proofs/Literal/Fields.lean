/-
  Marginalia/Proofs/Literal/Fields.lean
  =====================================
  **Written pairs are read back.**  An object that is written pair by pair, each key
  bare or in double quotes and each value closed, has these pairs as its fields, in
  order and with the values as they were written (`objectFields_objectText`).  The
  scanner finds the pairs, since a written pair is closed as well, and in each pair
  the first colon after the key ends it: a bare key has no colon, and the colons of a
  quoted one stand before its closing quote.
-/
import Marginalia.Literal.Fields
import Marginalia.Proofs.Literal.TopLevel
import Marginalia.Proofs.Table
import Marginalia.Proofs.Text.Search

namespace Marginalia.Literal

open Marginalia.Text

/-! ### Written pairs -/

/-- A pair of an object; its key is written bare or in double quotes. -/
structure Pair where
  key : List Char
  value : List Char
  quoted : Bool
  deriving DecidableEq, Repr

/-- The key as it is written. -/
def Pair.keyText (p : Pair) : List Char := if p.quoted then '"' :: p.key ++ ['"'] else p.key

/-- The pair as it is written. -/
def Pair.text (p : Pair) : List Char := p.keyText ++ ':' :: ' ' :: p.value

/-- The object that has the pairs. -/
def objectText (pairs : List Pair) : List Char :=
  '{' :: [',', ' '].intercalate (pairs.map Pair.text) ++ ['}']

/-- A pair that can be told from the pairs beside it: the key is a trimmed text without the
characters that would end it, and the value is trimmed and closed. -/
structure Pair.IsPlain (p : Pair) : Prop where
  key_ne_nil : p.key ≠ []
  key_trimmed : trim p.key = p.key
  key_quoted : p.quoted = true → '"' ∉ p.key ∧ '\\' ∉ p.key
  key_bare : p.quoted = false → ∀ c ∈ p.key, isLoose c = true ∧ c ≠ ':'
  value_trimmed : trim p.value = p.value
  value_closed : IsClosed [','] p.value

instance (p : Pair) : Decidable p.IsPlain :=
  -- the characters of the key are checked, not all characters
  have : Decidable (∀ c ∈ p.key, isLoose c = true ∧ c ≠ ':') := List.decidableBAll _ _
  decidable_of_iff (p.key ≠ [] ∧ trim p.key = p.key ∧
      (p.quoted = true → '"' ∉ p.key ∧ '\\' ∉ p.key) ∧
      (p.quoted = false → ∀ c ∈ p.key, isLoose c = true ∧ c ≠ ':') ∧
      trim p.value = p.value ∧ IsClosed [','] p.value)
    ⟨fun ⟨hne, htrim, hquoted, hbare, hvalue, hclosed⟩ =>
        ⟨hne, htrim, hquoted, hbare, hvalue, hclosed⟩,
      fun h => ⟨h.key_ne_nil, h.key_trimmed, h.key_quoted, h.key_bare, h.value_trimmed,
        h.value_closed⟩⟩

/-! ### Keys -/

theorem scan_in_quotes {cs : List Char} (hquote : '"' ∉ cs) (hescape : '\\' ∉ cs) :
    Uncut [','] ⟨0, some '"', false⟩ cs ∧
      cs.foldl Scan.step ⟨0, some '"', false⟩ = ⟨0, some '"', false⟩ := by
  induction cs with
  | nil => exact ⟨trivial, rfl⟩
  | cons c cs ih =>
    obtain ⟨hc, hcs⟩ := List.ne_and_not_mem_of_not_mem_cons hquote
    obtain ⟨hc', hcs'⟩ := List.ne_and_not_mem_of_not_mem_cons hescape
    obtain ⟨huncut, hends⟩ := ih hcs hcs'
    have hstep : Scan.step ⟨0, some '"', false⟩ c = ⟨0, some '"', false⟩ := by
      simp [Scan.step, hc.symm, hc'.symm]
    refine ⟨⟨rfl, ?_⟩, ?_⟩
    · rwa [hstep]
    · rwa [List.foldl_cons, hstep]

theorem isClosed_quoted {cs : List Char} (hquote : '"' ∉ cs) (hescape : '\\' ∉ cs) :
    IsClosed [','] ('"' :: cs ++ ['"']) := by
  obtain ⟨huncut, hends⟩ := scan_in_quotes hquote hescape
  have hopen : Scan.start.step '"' = ⟨0, some '"', false⟩ := by decide
  constructor
  · refine ⟨by decide, ?_⟩
    rw [hopen]
    exact uncut_append_iff.mpr ⟨huncut, by rw [hends]; decide⟩
  · rw [List.cons_append, List.foldl_cons, hopen, List.foldl_append, hends]
    decide

section
variable {p : Pair} (h : p.IsPlain)
include h

theorem Pair.IsPlain.keyText_trimmed : trim p.keyText = p.keyText := by
  unfold Pair.keyText
  split
  · have hquote : isBlank '"' = false := by decide
    exact trim_append_cons (a := []) rfl (trim_append_cons h.key_trimmed rfl hquote) hquote
  · exact h.key_trimmed

theorem Pair.IsPlain.unquoted_keyText : unquoted p.keyText = p.key := by
  cases hquoted : p.quoted with
  | true =>
    have htrim := h.keyText_trimmed
    have hclose : dropClosingQuote (p.key ++ ['"']) = p.key := by
      simp [dropClosingQuote, isQuote]
    rw [unquoted, htrim, Pair.keyText, if_pos hquoted, List.cons_append, dropOpeningQuote,
      if_pos (by decide), hclose, h.key_trimmed]
  | false =>
    rw [Pair.keyText, hquoted, if_neg Bool.false_ne_true]
    exact unquoted_of_no_quote h.key_trimmed fun c hc =>
      isQuote_of_isLoose (h.key_bare hquoted c hc).1

theorem Pair.IsPlain.isClosed_keyText : IsClosed [','] p.keyText := by
  cases hquoted : p.quoted with
  | true =>
    obtain ⟨hquote, hescape⟩ := h.key_quoted hquoted
    rw [Pair.keyText, if_pos hquoted]
    exact isClosed_quoted hquote hescape
  | false =>
    rw [Pair.keyText, hquoted, if_neg Bool.false_ne_true]
    exact isClosed_of_isLoose fun c hc => (h.key_bare hquoted c hc).1

/-- The key ends at the colon after it. -/
theorem Pair.IsPlain.keyEnd?_append (rest : List Char) :
    keyEnd? (p.keyText ++ ':' :: rest) = some p.keyText.length := by
  cases hquoted : p.quoted with
  | true =>
    -- the search for the closing quote takes no account of backslashes
    obtain ⟨hquote, -⟩ := h.key_quoted hquoted
    have htext : p.keyText ++ ':' :: rest = '"' :: (p.key ++ '"' :: ':' :: rest) := by
      rw [Pair.keyText, if_pos hquoted]
      simp
    have hdrop : (p.key ++ '"' :: ':' :: rest).drop (p.key.length + 1) = ':' :: rest := by
      simp
    rw [htext, keyEnd?, if_pos (by decide), find?_singleton_append hquote, Option.bind_some, hdrop,
      Pair.keyText, if_pos hquoted]
    simp [find?, startsWith]
  | false =>
    have hcolon : ':' ∉ p.key := fun hmem => (h.key_bare hquoted _ hmem).2 rfl
    obtain ⟨c, key, hkey⟩ := List.exists_cons_of_ne_nil h.key_ne_nil
    have hc : isQuote c = false :=
      isQuote_of_isLoose (h.key_bare hquoted c (by simp [hkey])).1
    have hfind := find?_singleton_append hcolon rest
    rw [hkey] at hfind
    rw [Pair.keyText, hquoted, if_neg Bool.false_ne_true, hkey, List.cons_append, keyEnd?, hc,
      if_neg Bool.false_ne_true, ← List.cons_append, hfind]

/-! ### Pairs -/

theorem Pair.IsPlain.isClosed_text : IsClosed [','] p.text := by
  have hcolon : IsClosed [','] [':', ' '] := by decide
  exact h.isClosed_keyText.append (hcolon.append h.value_closed)

theorem Pair.IsPlain.trim_text :
    trim p.text = p.keyText ++ ':' :: trimRight (' ' :: p.value) :=
  trim_append_cons_right h.keyText_trimmed (by decide) _

/-- A written pair is taken apart into its key and its value. -/
theorem Pair.IsPlain.splitPair?_text : splitPair? (trim p.text) = some (p.key, p.value) := by
  have hvalue : trim (trimRight (' ' :: p.value)) = p.value := by
    rw [trim_trimRight, trim_blank_cons (by decide), h.value_trimmed]
  rw [h.trim_text, splitPair?, h.keyEnd?_append, Option.bind_some, List.take_left,
    h.unquoted_keyText, ← List.drop_drop, List.drop_left, List.drop_one, List.tail_cons, hvalue]
  simp [h.key_ne_nil]

end

/-! ### Objects -/

theorem objectPairs_of_braces (body : List Char) :
    objectPairs ('{' :: body ++ ['}']) = (topLevelPieces [','] body).filterMap splitPair? := by
  have htrim : trim ('{' :: body ++ ['}']) = '{' :: body ++ ['}'] := by
    rw [trim_eq_self_iff, trimLeft_eq_self_iff, trimRight_eq_self_iff]
    constructor
    · intro c hc
      obtain rfl : '{' = c := by simpa using hc
      decide
    · intro c hc
      rw [List.getLast?_concat] at hc
      obtain rfl := Option.some.inj hc
      decide
  have hopen : startsWith ['{'] ('{' :: body ++ ['}']) = true := by simp [startsWith]
  have hclose : endsWith ['}'] ('{' :: body ++ ['}']) = true :=
    List.isSuffixOf_iff_suffix.mpr (List.suffix_append _ _)
  have hunwrap : unwrap ['{'] ['}'] ('{' :: body ++ ['}']) = body := by
    simp only [unwrap, htrim, hopen, hclose, Bool.and_self, if_true]
    simp
  rw [objectPairs, hunwrap, topLevelPieces_trim]

/-- **Written pairs are read back** in order and with their values untouched. -/
theorem objectFields_objectText {pairs : List Pair} (hplain : ∀ p ∈ pairs, p.IsPlain)
    (hkeys : (pairs.map Pair.key).Nodup) :
    objectFields (objectText pairs) = pairs.map fun p => (p.key, p.value) := by
  have hclosed : ∀ t ∈ pairs.map Pair.text, IsClosed [','] t :=
    List.forall_mem_map.mpr fun p hp => (hplain p hp).isClosed_text
  have hpieces : topLevelPieces [','] ([',', ' '].intercalate (pairs.map Pair.text)) =
      (pairs.map Pair.text).map trim := by
    rw [topLevelPieces_intercalate_blank hclosed, List.filter_eq_self]
    simp only [List.forall_mem_map]
    intro p hp
    simp [(hplain p hp).trim_text]
  have hpairs : objectPairs (objectText pairs) = pairs.map fun p => (p.key, p.value) := by
    rw [objectText, objectPairs_of_braces, hpieces, List.map_map, List.filterMap_map,
      ← List.filterMap_eq_map]
    exact List.filterMap_congr fun p hp => (hplain p hp).splitPair?_text
  rw [objectFields, hpairs, Table.ofPairs_of_nodup]
  simpa [Table.keys, Function.comp_def] using hkeys

/-- Pairs with signs of every kind inside quotes and brackets, and one without a value. -/
def nestedPairs : List Pair :=
  [⟨"a:b, \x7b'".toList, "\x7bx: [1, '\x7d'], y: 2\x7d".toList, true⟩,
    ⟨"deps".toList, "['a, b', \"c\\\"d\"]".toList, false⟩, ⟨"url".toList, "http://x".toList, false⟩,
    ⟨"none".toList, [], false⟩]

theorem objectFields_objectText_nested :
    (∀ p ∈ nestedPairs, p.IsPlain) ∧ (nestedPairs.map Pair.key).Nodup ∧
      objectFields (objectText nestedPairs) = nestedPairs.map fun p => (p.key, p.value) := by
  have hplain : ∀ p ∈ nestedPairs, p.IsPlain := by decide
  have hkeys : (nestedPairs.map Pair.key).Nodup := by decide
  exact ⟨hplain, hkeys, objectFields_objectText hplain hkeys⟩

end Marginalia.Literal
