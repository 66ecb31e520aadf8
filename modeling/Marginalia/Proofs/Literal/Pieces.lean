/-
  Marginalia/Proofs/Literal/Pieces.lean
  =====================================
  **Pieces that are joined are found again.**  A text is closed if the scanner meets
  no cut in it and is outside quotes and brackets after it (`IsClosed`).  Such texts
  can be scanned one by one: what comes after one of them is cut as if it stood alone
  (`segments_append_of_isClosed`), so trimmed closed texts with commas between them
  are the top-level pieces of the whole.  A text without commas, quotes and brackets
  is closed, and a list of such texts is read as the list of its items
  (`listItems_intercalate`).
-/
import Marginalia.Literal.TopLevel
import Marginalia.Proofs.Text.Lines

namespace Marginalia.Literal

open Marginalia.Text

/-! ### Quotes -/

theorem dropOpeningQuote_eq_self_iff {cs : List Char} :
    dropOpeningQuote cs = cs ↔ ∀ c ∈ cs.head?, isQuote c = false := by
  cases cs with
  | nil => simp [dropOpeningQuote]
  | cons c cs => cases hc : isQuote c <;> simp [dropOpeningQuote, hc]

theorem dropClosingQuote_eq_self_iff {cs : List Char} :
    dropClosingQuote cs = cs ↔ ∀ c ∈ cs.getLast?, isQuote c = false := by
  induction cs using List.reverseRecOn with
  | nil => simp [dropClosingQuote]
  | append_singleton cs c => cases hc : isQuote c <;> simp [dropClosingQuote, hc]

theorem unquoted_eq_self {cs : List Char} (htrim : trim cs = cs)
    (hopen : ∀ c ∈ cs.head?, isQuote c = false) (hclose : ∀ c ∈ cs.getLast?, isQuote c = false) :
    unquoted cs = cs := by
  rw [unquoted, htrim, dropOpeningQuote_eq_self_iff.mpr hopen,
    dropClosingQuote_eq_self_iff.mpr hclose, htrim]

theorem unquoted_of_no_quote {cs : List Char} (htrim : trim cs = cs)
    (h : ∀ c ∈ cs, isQuote c = false) : unquoted cs = cs :=
  unquoted_eq_self htrim (fun c hc => h c (List.mem_of_mem_head? hc))
    fun c hc => h c (List.mem_of_mem_getLast? hc)

theorem dropOpeningQuote_isSuffix (cs : List Char) : dropOpeningQuote cs <:+ cs := by
  cases cs with
  | nil => exact List.suffix_rfl
  | cons c cs =>
    rw [dropOpeningQuote]
    split
    · exact List.suffix_cons c cs
    · exact List.suffix_rfl

theorem dropClosingQuote_isPrefix (cs : List Char) : dropClosingQuote cs <+: cs := by
  unfold dropClosingQuote
  split
  · split
    · exact List.dropLast_prefix cs
    · exact List.prefix_rfl
  · exact List.prefix_rfl

theorem unquoted_isInfix (cs : List Char) : unquoted cs <:+: cs :=
  (trim_isInfix _).trans <| (dropClosingQuote_isPrefix _).isInfix.trans <|
    (dropOpeningQuote_isSuffix _).isInfix.trans (trim_isInfix cs)

/-- A trimmed text loses nothing exactly if it has no quote at either end. -/
theorem unquoted_eq_self_iff {cs : List Char} (htrim : trim cs = cs) :
    unquoted cs = cs ↔
      (∀ c ∈ cs.head?, isQuote c = false) ∧ ∀ c ∈ cs.getLast?, isQuote c = false := by
  constructor
  · intro h
    -- every step of unquoting only shortens, so none of them takes anything off
    have hinner : cs <:+: dropClosingQuote (dropOpeningQuote cs) := by
      have hlast := trim_isInfix (dropClosingQuote (dropOpeningQuote (trim cs)))
      rwa [← unquoted, h, htrim] at hlast
    have hopen : dropOpeningQuote cs = cs :=
      (dropOpeningQuote_isSuffix cs).eq_of_length_le
        (hinner.trans (dropClosingQuote_isPrefix _).isInfix).length_le
    rw [hopen] at hinner
    have hclose : dropClosingQuote cs = cs :=
      (dropClosingQuote_isPrefix cs).eq_of_length_le hinner.length_le
    exact ⟨dropOpeningQuote_eq_self_iff.mp hopen, dropClosingQuote_eq_self_iff.mp hclose⟩
  · rintro ⟨hopen, hclose⟩
    exact unquoted_eq_self htrim hopen hclose

/-! ### Scanning -/

/-- No character of the text is a cut when it is scanned from the given state. -/
def Uncut (delimiter : List Char) : Scan → List Char → Prop
  | _, [] => True
  | s, c :: cs => s.cutsAt delimiter c = false ∧ Uncut delimiter (s.step c) cs

/-- The text has no cut and leaves the scanner outside quotes and brackets. -/
structure IsClosed (delimiter cs : List Char) : Prop where
  uncut : Uncut delimiter .start cs
  ends : cs.foldl Scan.step .start = .start

theorem segments_append_of_uncut {delimiter p : List Char} {s : Scan} (h : Uncut delimiter s p)
    (rest : List Char) : segments delimiter s (p ++ rest) =
      (segments delimiter (p.foldl Scan.step s) rest).modifyHead (p ++ ·) := by
  induction p generalizing s with
  | nil => exact (congrFun List.modifyHead_id _).symm
  | cons c p ih =>
    obtain ⟨hc, hp⟩ := h
    rw [List.cons_append, segments, hc, ih hp, List.foldl_cons]
    cases hrest : segments delimiter (p.foldl Scan.step (s.step c)) rest with
    | nil => exact absurd hrest (segments_ne_nil _ _ _)
    | cons piece pieces => simp

theorem segments_append_of_isClosed {delimiter p : List Char} (h : IsClosed delimiter p)
    (rest : List Char) : segments delimiter .start (p ++ rest) =
      (segments delimiter .start rest).modifyHead (p ++ ·) := by
  rw [segments_append_of_uncut h.uncut, h.ends]

theorem segments_intercalate {ps : List (List Char)} (hne : ps ≠ [])
    (h : ∀ p ∈ ps, IsClosed [','] p) : segments [','] .start ([','].intercalate ps) = ps := by
  induction ps with
  | nil => exact absurd rfl hne
  | cons p ps ih =>
    have hp := h p List.mem_cons_self
    cases ps with
    | nil =>
      have hsingle := segments_append_of_isClosed hp []
      rw [List.append_nil] at hsingle
      simp [hsingle, segments]
    | cons q ps =>
      have hcut : segments [','] .start (',' :: [','].intercalate (q :: ps)) = [] :: q :: ps := by
        rw [segments, if_pos (by decide),
          ih (by simp) fun p' hp' => h p' (List.mem_cons_of_mem _ hp')]
      rw [List.intercalate_cons_cons, List.append_assoc, List.singleton_append,
        segments_append_of_isClosed hp, hcut]
      simp

theorem topLevelPieces_intercalate {ps : List (List Char)} (hclosed : ∀ p ∈ ps, IsClosed [','] p)
    (htrim : ∀ p ∈ ps, trim p = p) (hne : ∀ p ∈ ps, p ≠ []) :
    topLevelPieces [','] ([','].intercalate ps) = ps := by
  cases ps with
  | nil => decide
  | cons p ps =>
    have hmap : (p :: ps).map trim = p :: ps := (List.map_congr_left htrim).trans (List.map_id _)
    rw [topLevelPieces, segments_intercalate (by simp) hclosed, hmap, List.filter_eq_self]
    intro q hq
    simp [hne q hq]

/-! ### Items -/

/-- Characters that mean nothing to the scanner: no comma, no quote and no bracket. -/
def isLoose (c : Char) : Bool := c != ',' && !isQuote c && !isOpener c && !isCloser c

theorem isQuote_of_isLoose {c : Char} (h : isLoose c = true) : isQuote c = false := by
  simp only [isLoose, Bool.and_eq_true, Bool.not_eq_true'] at h
  exact h.1.1.2

theorem isClosed_of_isLoose {cs : List Char} (h : ∀ c ∈ cs, isLoose c = true) :
    IsClosed [','] cs := by
  have hscan : Uncut [','] .start cs ∧ cs.foldl Scan.step .start = .start := by
    induction cs with
    | nil => exact ⟨trivial, rfl⟩
    | cons c cs ih =>
      have hc := h c List.mem_cons_self
      simp only [isLoose, Bool.and_eq_true, bne_iff_ne, Bool.not_eq_true'] at hc
      obtain ⟨⟨⟨hcomma, hquote⟩, hopener⟩, hcloser⟩ := hc
      obtain ⟨huncut, hends⟩ := ih fun d hd => h d (List.mem_cons_of_mem _ hd)
      have hstep : Scan.start.step c = .start := by
        simp [Scan.step, Scan.start, hquote, hopener, hcloser]
      have hcut : Scan.start.cutsAt [','] c = false := by
        simp [Scan.cutsAt, Ne.symm hcomma]
      refine ⟨⟨hcut, ?_⟩, ?_⟩
      · rwa [hstep]
      · rwa [List.foldl_cons, hstep]
  exact ⟨hscan.1, hscan.2⟩

theorem unwrap_of_not_opened {cs : List Char} (htrim : trim cs = cs)
    (hopen : ∀ c ∈ cs.head?, c ≠ '[') : unwrap ['['] [']'] cs = cs := by
  have hstart : startsWith ['['] cs = false := by
    cases cs with
    | nil => rfl
    | cons c cs =>
      have hc := hopen c rfl
      simp [startsWith, List.isPrefixOf, Ne.symm hc]
  simp [unwrap, htrim, hstart]

theorem mem_intercalate {sep c : Char} {ts : List (List Char)} (h : c ∈ [sep].intercalate ts) :
    c = sep ∨ ∃ t ∈ ts, c ∈ t := by
  induction ts with
  | nil => simp at h
  | cons t ts ih =>
    cases ts with
    | nil => exact .inr ⟨t, List.mem_cons_self, by simpa using h⟩
    | cons t' ts =>
      rw [List.intercalate_cons_cons, List.append_assoc, List.singleton_append] at h
      rcases List.mem_append.mp h with h | h
      · exact .inr ⟨t, List.mem_cons_self, h⟩
      · rcases List.mem_cons.mp h with rfl | h
        · exact .inl rfl
        · rcases ih h with h | ⟨u, hu, h⟩
          · exact .inl h
          · exact .inr ⟨u, List.mem_cons_of_mem _ hu, h⟩

/-- A list of texts without commas, quotes and brackets, each trimmed and not empty, is read as the
list of these texts. -/
theorem listItems_intercalate {items : List (List Char)}
    (hloose : ∀ t ∈ items, ∀ c ∈ t, isLoose c = true) (htrim : ∀ t ∈ items, trim t = t)
    (hne : ∀ t ∈ items, t ≠ [])
    (hwhole : trim ([','].intercalate items) = [','].intercalate items) :
    listItems ([','].intercalate items) = items := by
  have hopen : ∀ c ∈ ([','].intercalate items).head?, c ≠ '[' := by
    intro c hc
    rintro rfl
    rcases mem_intercalate (List.mem_of_mem_head? hc) with h | ⟨t, ht, h⟩
    · exact absurd h (by decide)
    · exact absurd (hloose t ht _ h) (by decide)
  have hpieces : topLevelPieces [','] ([','].intercalate items) = items :=
    topLevelPieces_intercalate (fun t ht => isClosed_of_isLoose (hloose t ht)) htrim hne
  have hquotes : ∀ t ∈ items, ∀ c ∈ t, isQuote c = false :=
    fun t ht c hc => isQuote_of_isLoose (hloose t ht c hc)
  have hmap : items.map unquoted = items := by
    refine (List.map_congr_left fun t ht => ?_).trans (List.map_id _)
    exact unquoted_of_no_quote (htrim t ht) (hquotes t ht)
  rw [listItems, unwrap_of_not_opened hwhole hopen, hpieces, hmap, List.filter_eq_self]
  intro t ht
  simp [hne t ht]

end Marginalia.Literal
