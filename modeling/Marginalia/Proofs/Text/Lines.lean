/-
  Marginalia/Proofs/Text/Lines.lean
  =================================
  **Trimmed texts and lines.**  A text is left as it is by trimming exactly if
  neither of its ends is blank (`trim_eq_self_iff`).  Lines without line boundaries
  are found again in the text that they are joined to: all of them when the text is
  divided at line feeds, and when it is divided at every boundary if none of them is
  empty (`breakLines_unlines`).  As many line feeds stand before a line as there are
  lines before it (`unlines_append`, `countChar_flatMap_newline`).
-/
import Marginalia.Text.Blank
import Marginalia.Text.Lines
import Mathlib.Data.List.DropRight

namespace Marginalia.Text

/-! ### Trimming -/

theorem trimLeft_eq_self_iff {cs : List Char} :
    trimLeft cs = cs ↔ ∀ c, cs.head? = some c → isBlank c = false := by
  cases cs with
  | nil => simp [trimLeft]
  | cons c cs =>
    rw [trimLeft, List.dropWhile_eq_self_iff]
    simp

theorem trimRight_eq_self_iff {cs : List Char} :
    trimRight cs = cs ↔ ∀ c, cs.getLast? = some c → isBlank c = false := by
  have hdrop : trimRight cs = cs.rdropWhile isBlank := rfl
  rw [hdrop, List.rdropWhile_eq_self_iff]
  constructor
  · intro h c hc
    have hne : cs ≠ [] := by
      rintro rfl
      simp at hc
    rw [List.getLast?_eq_some_getLast hne, Option.some.injEq] at hc
    simpa [hc] using h hne
  · intro h hne
    simp [h _ (List.getLast?_eq_some_getLast hne)]

theorem trim_eq_self_iff {cs : List Char} :
    trim cs = cs ↔ trimLeft cs = cs ∧ trimRight cs = cs := by
  constructor
  · intro h
    have hleft : trimLeft cs = cs := by
      -- nothing is lost on the left, since both ways of trimming only shorten
      have hsuffix : trimLeft cs <:+ cs := List.dropWhile_suffix _
      have hprefix : trimRight (trimLeft cs) <+: trimLeft cs := List.rdropWhile_prefix _ _
      apply hsuffix.eq_of_length_le
      calc cs.length = (trim cs).length := by rw [h]
        _ ≤ (trimLeft cs).length := hprefix.length_le
    refine ⟨hleft, ?_⟩
    rwa [trim, hleft] at h
  · rintro ⟨hleft, hright⟩
    rw [trim, hleft, hright]

theorem trim_append_cons {a b : List Char} {c : Char} (ha : trim a = a) (hb : trim b = b)
    (hc : isBlank c = false) : trim (a ++ c :: b) = a ++ c :: b := by
  rw [trim_eq_self_iff, trimLeft_eq_self_iff, trimRight_eq_self_iff] at ha hb ⊢
  constructor
  · intro d hd
    cases a with
    | nil =>
      obtain rfl : c = d := by simpa using hd
      exact hc
    | cons e a => exact ha.1 d (by simpa using hd)
  · intro d hd
    rw [List.getLast?_append, List.getLast?_cons] at hd
    cases hlast : b.getLast? with
    | none =>
      obtain rfl : c = d := by simpa [hlast] using hd
      exact hc
    | some e => exact hb.2 d (by simpa [hlast] using hd)

theorem trim_blank_cons {c : Char} {cs : List Char} (hc : isBlank c = true) :
    trim (c :: cs) = trim cs := by
  simp [trim, trimLeft, hc]

theorem trim_blanks_append {gap : List Char} (h : ∀ c ∈ gap, isBlank c = true) (cs : List Char) :
    trim (gap ++ cs) = trim cs := by
  induction gap with
  | nil => rfl
  | cons c gap ih =>
    obtain ⟨hc, hgap⟩ := List.forall_mem_cons.mp h
    rw [List.cons_append, trim_blank_cons hc, ih hgap]

theorem trimRight_append_blanks {gap : List Char} (h : ∀ c ∈ gap, isBlank c = true)
    (cs : List Char) : trimRight (cs ++ gap) = trimRight cs := by
  have hreverse : ∀ c ∈ gap.reverse, isBlank c = true := fun c hc => h c (List.mem_reverse.mp hc)
  rw [trimRight, List.reverse_append, List.dropWhile_append_of_pos hreverse, ← trimRight]

theorem trim_append_blanks {gap : List Char} (h : ∀ c ∈ gap, isBlank c = true) (cs : List Char) :
    trim (cs ++ gap) = trim cs := by
  rw [trim, trim, trimLeft, List.dropWhile_append]
  split
  · rename_i hempty
    have hgap : gap.dropWhile isBlank = [] := by simpa using h
    rw [hgap, trimLeft, List.isEmpty_iff.mp hempty]
  · exact trimRight_append_blanks h _

theorem trimRight_isPrefix (cs : List Char) : trimRight cs <+: cs := List.rdropWhile_prefix _ _

theorem trimRight_idem (cs : List Char) : trimRight (trimRight cs) = trimRight cs :=
  List.rdropWhile_idempotent _ cs

theorem trim_idem (cs : List Char) : trim (trim cs) = trim cs := by
  rw [trim_eq_self_iff, trimLeft_eq_self_iff]
  constructor
  · intro c hc
    obtain ⟨gap, hgap⟩ := trimRight_isPrefix (trimLeft cs)
    -- the first character that is left is the first one after the blanks in front
    have hhead : (trimLeft cs).head? = some c := by
      rw [trim] at hc
      rw [← hgap, List.head?_append, hc, Option.some_or]
    exact trimLeft_eq_self_iff.mp (List.dropWhile_idempotent _ _) c hhead
  · exact trimRight_idem _

theorem trim_isInfix (cs : List Char) : trim cs <:+: cs :=
  (trimRight_isPrefix _).isInfix.trans (List.dropWhile_suffix _).isInfix

theorem rdropWhile_append_cons {p : Char → Bool} {c : Char} (hc : p c = false) (a v : List Char) :
    (a ++ c :: v).rdropWhile p = a ++ c :: v.rdropWhile p := by
  induction v using List.reverseRecOn with
  | nil =>
    rw [List.rdropWhile_nil]
    exact List.rdropWhile_concat_neg p a c (by simp [hc])
  | append_singleton v d ih =>
    have hassoc : a ++ c :: (v ++ [d]) = (a ++ c :: v) ++ [d] := by simp
    cases hd : p d with
    | true =>
      rw [hassoc, List.rdropWhile_concat_pos p _ d hd, ih, List.rdropWhile_concat_pos p v d hd]
    | false =>
      rw [hassoc, List.rdropWhile_concat_neg p _ d (by simp [hd]),
        List.rdropWhile_concat_neg p v d (by simp [hd])]
      simp

/-- Nothing is taken off in front of a sign that is not blank. -/
theorem trim_append_cons_right {a : List Char} {c : Char} (ha : trim a = a)
    (hc : isBlank c = false) (v : List Char) : trim (a ++ c :: v) = a ++ c :: trimRight v := by
  have hleft : trimLeft (a ++ c :: v) = a ++ c :: v := by
    rw [trimLeft_eq_self_iff]
    intro d hd
    cases a with
    | nil =>
      obtain rfl : c = d := by simpa using hd
      exact hc
    | cons e a => exact trimLeft_eq_self_iff.mp (trim_eq_self_iff.mp ha).1 d (by simpa using hd)
  rw [trim, hleft]
  exact rdropWhile_append_cons hc a v

theorem trimLeft_append_cons {gap : List Char} {c : Char} (hgap : ∀ d ∈ gap, isBlank d = true)
    (hc : isBlank c = false) (cs : List Char) : trimLeft (gap ++ c :: cs) = c :: cs := by
  rw [trimLeft, List.dropWhile_append_of_pos hgap]
  exact trimLeft_cons_of_not_blank cs hc

theorem exists_trimLeft (cs : List Char) :
    ∃ gap, cs = gap ++ trimLeft cs ∧ ∀ c ∈ gap, isBlank c = true :=
  ⟨cs.takeWhile isBlank, List.takeWhile_append_dropWhile.symm, fun _ => List.mem_takeWhile_imp⟩

theorem exists_trimRight (cs : List Char) :
    ∃ gap, cs = trimRight cs ++ gap ∧ ∀ c ∈ gap, isBlank c = true := by
  refine ⟨(cs.reverse.takeWhile isBlank).reverse, ?_, ?_⟩
  · rw [trimRight, ← List.reverse_append, List.takeWhile_append_dropWhile, List.reverse_reverse]
  · intro c hc
    exact List.mem_takeWhile_imp (List.mem_reverse.mp hc)

theorem trim_trimRight (cs : List Char) : trim (trimRight cs) = trim cs := by
  obtain ⟨gap, hgap, hblank⟩ := exists_trimRight cs
  conv_rhs => rw [hgap]
  exact (trim_append_blanks hblank _).symm

/-! ### Dividing at line feeds -/

theorem splitAt_eq_splitOn (sep : Char) (cs : List Char) : splitAt sep cs = cs.splitOn sep := by
  induction cs with
  | nil => rfl
  | cons c cs ih =>
    rw [splitAt, ih, List.splitOn_cons_eq_if_modifyHead]
    by_cases h : c = sep
    · simp [h]
    · cases hrest : cs.splitOn sep with
      | nil => exact absurd hrest (List.splitOn_ne_nil _ _)
      | cons piece pieces => simp [h]

theorem unlines_lines (cs : List Char) : unlines (lines cs) = cs := by
  rw [unlines, lines, splitAt_eq_splitOn]
  exact List.intercalate_splitOn '\n'

theorem lines_unlines {ls : List (List Char)} (hne : ls ≠ []) (h : ∀ l ∈ ls, '\n' ∉ l) :
    lines (unlines ls) = ls := by
  rw [lines, splitAt_eq_splitOn]
  exact List.splitOn_intercalate '\n' h hne

theorem splitAt_of_not_mem {sep : Char} {cs : List Char} (h : sep ∉ cs) :
    splitAt sep cs = [cs] := by
  have hsplit : ([sep].intercalate [cs]).splitOn sep = [cs] :=
    List.splitOn_intercalate sep (by simpa using h) (by simp)
  rwa [List.intercalate_singleton, ← splitAt_eq_splitOn] at hsplit

theorem lines_of_not_mem {cs : List Char} (h : '\n' ∉ cs) : lines cs = [cs] :=
  splitAt_of_not_mem h

theorem not_mem_of_mem_splitAt {sep : Char} {cs l : List Char} (h : l ∈ splitAt sep cs) :
    sep ∉ l := by
  induction cs generalizing l with
  | nil =>
    obtain rfl : l = [] := by simpa [splitAt] using h
    simp
  | cons c cs ih =>
    rw [splitAt] at h
    by_cases hc : c = sep
    · rw [if_pos hc] at h
      rcases List.mem_cons.mp h with rfl | h
      · simp
      · exact ih h
    · rw [if_neg hc] at h
      cases hrest : splitAt sep cs with
      | nil => exact absurd hrest (splitAt_ne_nil sep cs)
      | cons piece pieces =>
        simp only [hrest] at h ih
        rcases List.mem_cons.mp h with rfl | h
        · have hpiece := ih List.mem_cons_self
          simp [Ne.symm hc, hpiece]
        · exact ih (List.mem_cons_of_mem _ h)

/-! ### Line numbers -/

theorem countChar_append (c : Char) (cs cs' : List Char) :
    countChar c (cs ++ cs') = countChar c cs + countChar c cs' := List.countP_append

theorem lineAfter_append (cs cs' : List Char) :
    lineAfter (cs ++ cs') = countChar '\n' cs + lineAfter cs' := by
  rw [lineAfter, lineAfter, countChar_append, Nat.add_assoc]

theorem unlines_append {ls ls' : List (List Char)} (h : ls' ≠ []) :
    unlines (ls ++ ls') = ls.flatMap (· ++ ['\n']) ++ unlines ls' := by
  induction ls with
  | nil => rfl
  | cons l ls ih =>
    have hne : ls ++ ls' ≠ [] := by simp [h]
    obtain ⟨m, ms, hms⟩ := List.exists_cons_of_ne_nil hne
    rw [hms] at ih
    rw [List.cons_append, hms, unlines, List.intercalate_cons_cons, ← unlines, ih]
    simp

theorem unlines_prefix_append {ls : List (List Char)} (h : ls ≠ []) (ls' : List (List Char)) :
    unlines ls <+: unlines (ls ++ ls') := by
  induction ls with
  | nil => exact absurd rfl h
  | cons l ls ih =>
    cases ls with
    | nil =>
      cases ls' with
      | nil => simp
      | cons m ms => simp [unlines, List.intercalate_cons_cons]
    | cons m ms =>
      obtain ⟨after, hafter⟩ := ih (by simp)
      refine ⟨after, ?_⟩
      simp only [unlines, List.cons_append, List.intercalate_cons_cons,
        List.append_assoc] at hafter ⊢
      rw [hafter]

theorem infix_unlines {l : List Char} {ls : List (List Char)} (h : l ∈ ls) : l <:+: unlines ls := by
  obtain ⟨front, back, rfl⟩ := List.append_of_mem h
  rw [unlines_append (by simp)]
  have hprefix : l <+: unlines (l :: back) := by
    simpa [unlines] using unlines_prefix_append (List.cons_ne_nil l []) back
  exact hprefix.isInfix.trans (List.suffix_append _ _).isInfix

theorem countChar_flatMap_newline {ls : List (List Char)} (h : ∀ l ∈ ls, '\n' ∉ l) :
    countChar '\n' (ls.flatMap (· ++ ['\n'])) = ls.length := by
  induction ls with
  | nil => rfl
  | cons l ls ih =>
    have hl : countChar '\n' l = 0 := by
      rw [countChar, List.countP_eq_zero]
      intro c hc
      have hne : c ≠ '\n' := fun heq => h l List.mem_cons_self (heq ▸ hc)
      simp [hne]
    have hrest := ih fun m hm => h m (List.mem_cons_of_mem _ hm)
    rw [List.flatMap_cons, countChar_append, countChar_append, hl, hrest]
    simp [countChar]
    omega

/-! ### Dividing at every boundary -/

theorem breakLines_append_newline {l : List Char} (hl : ∀ c ∈ l, isLineBreak c = false)
    (cs : List Char) : breakLines (l ++ '\n' :: cs) = l :: breakLines cs := by
  induction l with
  | nil => rfl
  | cons c l ih =>
    have hc : isLineBreak c = false := hl c List.mem_cons_self
    have hrest := ih fun d hd => hl d (List.mem_cons_of_mem _ hd)
    rw [List.cons_append, breakLines, hrest]
    · simp [hc]
    · rintro rest rfl
      simp [isLineBreak] at hc

theorem breakLines_of_unbroken {l : List Char} (hne : l ≠ [])
    (hl : ∀ c ∈ l, isLineBreak c = false) : breakLines l = [l] := by
  induction l with
  | nil => exact absurd rfl hne
  | cons c l ih =>
    have hc : isLineBreak c = false := hl c List.mem_cons_self
    rw [breakLines]
    · cases l with
      | nil => simp [breakLines, hc]
      | cons d l =>
        have hrest := ih (by simp) fun e he => hl e (List.mem_cons_of_mem _ he)
        simp [hrest, hc]
    · rintro rest rfl
      simp [isLineBreak] at hc

theorem breakLines_unlines {ls : List (List Char)} (hne : ∀ l ∈ ls, l ≠ [])
    (hls : ∀ l ∈ ls, ∀ c ∈ l, isLineBreak c = false) : breakLines (unlines ls) = ls := by
  induction ls with
  | nil => rfl
  | cons l ls ih =>
    have hl := hls l List.mem_cons_self
    cases ls with
    | nil =>
      have hsingle : unlines [l] = l := by simp [unlines]
      rw [hsingle, breakLines_of_unbroken (hne l List.mem_cons_self) hl]
    | cons l' ls =>
      have hjoin : unlines (l :: l' :: ls) = l ++ '\n' :: unlines (l' :: ls) := by
        simp [unlines, List.intercalate_cons_cons]
      rw [hjoin, breakLines_append_newline hl,
        ih (fun m hm => hne m (List.mem_cons_of_mem _ hm))
          fun m hm => hls m (List.mem_cons_of_mem _ hm)]

end Marginalia.Text
