/-
  Marginalia/Proofs/Literal/TopLevel.lean
  =======================================
  **What the scanner cuts.**  The segments of a text are what stands between the
  commas that the scanner meets outside quotes and brackets: joined by commas they
  give the text back, and no other comma of the text is a cut
  (`joinsBetween_segments_iff`).  A cut is met in the state in which the scanner
  starts (`Scan.IsRegular.eq_start`), so every segment is scanned as if it stood
  alone, and neither it nor what is left of it after trimming is cut any further.
  Surrounding blanks make no difference (`topLevelPieces_trim`), and closed texts are
  found again after they are joined by commas with blanks.
-/
import Marginalia.Proofs.Literal.Pieces

namespace Marginalia.Literal

open Marginalia.Text

/-! ### States -/

/-- The scanner is outside quotes and brackets. -/
def Scan.IsTop (s : Scan) : Prop := s.quote = none ∧ s.depth = 0

instance (s : Scan) : Decidable s.IsTop := inferInstanceAs (Decidable (_ ∧ _))

theorem Scan.cutsAt_comma_iff {s : Scan} {c : Char} :
    s.cutsAt [','] c = true ↔ c = ',' ∧ s.IsTop := by
  constructor
  · intro h
    simp only [Scan.cutsAt, Bool.and_eq_true, Option.isNone_iff_eq_none, beq_iff_eq,
      List.cons.injEq, and_true] at h
    exact ⟨h.1.2.symm, h.1.1.1.1.1, h.2⟩
  · rintro ⟨rfl, hquote, hdepth⟩
    simp [Scan.cutsAt, hquote, hdepth, isQuote, isOpener, isCloser]

theorem Scan.IsTop.step_comma {s : Scan} (h : s.IsTop) : s.step ',' = s := by
  simp [Scan.step, h.1, isQuote, isOpener, isCloser]

/-- A backslash hides the next character inside quotes only. -/
def Scan.IsRegular (s : Scan) : Prop := s.quote = none → s.escaped = false

theorem Scan.isRegular_start : Scan.start.IsRegular := fun _ => rfl

theorem Scan.IsRegular.step {s : Scan} (h : s.IsRegular) (c : Char) : (s.step c).IsRegular := by
  unfold Scan.IsRegular at h ⊢
  rw [Scan.step.eq_def]
  cases hquote : s.quote with
  | none =>
    have hescaped := h hquote
    simp only
    split_ifs <;> intro _ <;> exact hescaped
  | some q =>
    simp only
    split_ifs with hescaped
    · intro _
      rfl
    · intro hnone
      cases hnone
    · intro _
      simpa using hescaped
    · intro hnone
      rw [hquote] at hnone
      cases hnone

theorem Scan.IsRegular.foldl {s : Scan} (h : s.IsRegular) (cs : List Char) :
    (cs.foldl Scan.step s).IsRegular := by
  induction cs generalizing s with
  | nil => exact h
  | cons c cs ih => exact ih (h.step c)

/-- Outside quotes and brackets there is only the state in which the scanner starts. -/
theorem Scan.IsRegular.eq_start {s : Scan} (h : s.IsRegular) (htop : s.IsTop) : s = .start := by
  obtain ⟨depth, quote, escaped⟩ := s
  obtain ⟨rfl, rfl⟩ := htop
  obtain rfl : escaped = false := h rfl
  rfl

/-! ### Texts without a cut -/

theorem uncut_append_iff {delimiter a b : List Char} {s : Scan} :
    Uncut delimiter s (a ++ b) ↔ Uncut delimiter s a ∧ Uncut delimiter (a.foldl Scan.step s) b := by
  induction a generalizing s with
  | nil => simp [Uncut]
  | cons c a ih =>
    rw [List.cons_append, Uncut, Uncut, ih, List.foldl_cons, and_assoc]

theorem uncut_of_not_mem (s : Scan) {cs : List Char} (h : ',' ∉ cs) : Uncut [','] s cs := by
  induction cs generalizing s with
  | nil => trivial
  | cons c cs ih =>
    obtain ⟨hc, hcs⟩ := List.ne_and_not_mem_of_not_mem_cons h
    refine ⟨?_, ih _ hcs⟩
    rw [Bool.eq_false_iff, Ne, Scan.cutsAt_comma_iff]
    exact fun hcut => hc hcut.1.symm

instance decidableUncut (delimiter : List Char) :
    (s : Scan) → (cs : List Char) → Decidable (Uncut delimiter s cs)
  | _, [] => .isTrue trivial
  | s, c :: cs =>
    have := decidableUncut delimiter (s.step c) cs
    inferInstanceAs (Decidable (_ ∧ _))

theorem isClosed_iff {delimiter cs : List Char} :
    IsClosed delimiter cs ↔ Uncut delimiter .start cs ∧ (cs.foldl Scan.step .start).IsTop := by
  constructor
  · rintro ⟨huncut, hends⟩
    rw [hends]
    exact ⟨huncut, rfl, rfl⟩
  · rintro ⟨huncut, htop⟩
    exact ⟨huncut, (Scan.isRegular_start.foldl cs).eq_start htop⟩

instance (delimiter cs : List Char) : Decidable (IsClosed delimiter cs) :=
  decidable_of_iff _ isClosed_iff.symm

theorem IsClosed.append {delimiter a b : List Char} (ha : IsClosed delimiter a)
    (hb : IsClosed delimiter b) : IsClosed delimiter (a ++ b) where
  uncut := by
    rw [uncut_append_iff, ha.ends]
    exact ⟨ha.uncut, hb.uncut⟩
  ends := by rw [List.foldl_append, ha.ends, hb.ends]

theorem isLoose_of_isBlank {c : Char} (h : isBlank c = true) : isLoose c = true := by
  rw [isLoose]
  have hne : ∀ d, isBlank d = false → c ≠ d := by
    rintro d hd rfl
    exact absurd h (by simp [hd])
  simp [isQuote, isOpener, isCloser, hne _ (by decide : isBlank ',' = false),
    hne _ (by decide : isBlank '\x27' = false), hne _ (by decide : isBlank '"' = false),
    hne _ (by decide : isBlank '\x60' = false), hne _ (by decide : isBlank '[' = false),
    hne _ (by decide : isBlank '{' = false), hne _ (by decide : isBlank '(' = false),
    hne _ (by decide : isBlank ']' = false), hne _ (by decide : isBlank '}' = false),
    hne _ (by decide : isBlank ')' = false)]

theorem isClosed_of_isBlank {gap : List Char} (h : ∀ c ∈ gap, isBlank c = true) :
    IsClosed [','] gap :=
  isClosed_of_isLoose fun c hc => isLoose_of_isBlank (h c hc)

/-- Trimming takes nothing off that the scanner would remember. -/
theorem uncut_trim {cs : List Char} (h : Uncut [','] .start cs) : Uncut [','] .start (trim cs) := by
  obtain ⟨gap, hgap, hblank⟩ := exists_trimLeft cs
  rw [hgap, uncut_append_iff, (isClosed_of_isBlank hblank).ends] at h
  obtain ⟨gap', hgap'⟩ := trimRight_isPrefix (trimLeft cs)
  rw [← hgap', uncut_append_iff] at h
  exact h.2.1

theorem topLevelPieces_of_uncut {p : List Char} (huncut : Uncut [','] .start p)
    (htrim : trim p = p) (hne : p ≠ []) : topLevelPieces [','] p = [p] := by
  have hsegments := segments_append_of_uncut huncut []
  rw [List.append_nil] at hsegments
  simp [topLevelPieces, hsegments, segments, htrim, hne]

/-! ### Segments -/

theorem segments_cons_of_cut {s : Scan} {c : Char} (h : s.cutsAt [','] c = true) (cs : List Char) :
    segments [','] s (c :: cs) = [] :: segments [','] s cs := by
  rw [segments, if_pos h]

theorem exists_segments_cons {s : Scan} {c : Char} (h : s.cutsAt [','] c = false)
    (cs : List Char) : ∃ first rest, segments [','] (s.step c) cs = first :: rest ∧
      segments [','] s (c :: cs) = (c :: first) :: rest := by
  cases hrest : segments [','] (s.step c) cs with
  | nil => exact absurd hrest (segments_ne_nil _ _ _)
  | cons first rest =>
    refine ⟨first, rest, rfl, ?_⟩
    rw [segments, h, hrest]
    rfl

theorem intercalate_cons_of_ne_nil {sep x : List Char} {xs : List (List Char)} (h : xs ≠ []) :
    sep.intercalate (x :: xs) = x ++ sep ++ sep.intercalate xs := by
  obtain ⟨y, ys, rfl⟩ := List.exists_cons_of_ne_nil h
  exact List.intercalate_cons_cons

theorem intercalate_cons_head (sep : List Char) (c : Char) (x : List Char)
    (xs : List (List Char)) :
    sep.intercalate ((c :: x) :: xs) = c :: sep.intercalate (x :: xs) := by
  cases xs with
  | nil => simp
  | cons y ys => simp [List.intercalate_cons_cons]

/-- Nothing is lost at the borders of the segments. -/
theorem intercalate_segments (s : Scan) (cs : List Char) :
    [','].intercalate (segments [','] s cs) = cs := by
  induction cs generalizing s with
  | nil => simp [segments]
  | cons c cs ih =>
    cases hcut : s.cutsAt [','] c with
    | true =>
      obtain ⟨rfl, -⟩ := Scan.cutsAt_comma_iff.mp hcut
      rw [segments_cons_of_cut hcut, intercalate_cons_of_ne_nil (segments_ne_nil _ _ _), ih]
      rfl
    | false =>
      obtain ⟨first, rest, hrest, hsegments⟩ := exists_segments_cons hcut cs
      rw [hsegments, intercalate_cons_head, ← hrest, ih]

/-- The scanner meets a comma outside quotes and brackets after `before`, and `after` follows it. -/
def CutsBetween (s : Scan) (cs before after : List Char) : Prop :=
  cs = before ++ ',' :: after ∧ (before.foldl Scan.step s).IsTop

/-- When the segments are joined by commas, one of these commas stands between the two texts. -/
def JoinsBetween (segs : List (List Char)) (before after : List Char) : Prop :=
  ∃ left right, left ≠ [] ∧ right ≠ [] ∧ segs = left ++ right ∧
    before = [','].intercalate left ∧ after = [','].intercalate right

theorem cutsBetween_cons {s : Scan} {c : Char} {cs before after : List Char} :
    CutsBetween s (c :: cs) before after ↔
      (s.cutsAt [','] c = true ∧ before = [] ∧ after = cs) ∨
        ∃ before', before = c :: before' ∧ CutsBetween (s.step c) cs before' after := by
  rw [Scan.cutsAt_comma_iff]
  constructor
  · rintro ⟨heq, htop⟩
    cases before with
    | nil =>
      obtain ⟨rfl, rfl⟩ := List.cons.inj heq
      exact .inl ⟨⟨rfl, htop⟩, rfl, rfl⟩
    | cons b before =>
      obtain ⟨rfl, rfl⟩ := List.cons.inj heq
      exact .inr ⟨before, rfl, rfl, htop⟩
  · rintro (⟨⟨rfl, htop⟩, rfl, rfl⟩ | ⟨before', rfl, rfl, htop⟩)
    · exact ⟨rfl, htop⟩
    · exact ⟨rfl, htop⟩

theorem joinsBetween_cons {first before after : List Char} {rest : List (List Char)} :
    JoinsBetween (first :: rest) before after ↔
      (rest ≠ [] ∧ before = first ∧ after = [','].intercalate rest) ∨
        ∃ before', before = first ++ ',' :: before' ∧ JoinsBetween rest before' after := by
  constructor
  · rintro ⟨left, right, hleft, hright, hsegs, rfl, rfl⟩
    obtain ⟨x, left, rfl⟩ := List.exists_cons_of_ne_nil hleft
    obtain ⟨rfl, rfl⟩ := List.cons.inj hsegs
    by_cases hone : left = []
    · subst hone
      exact .inl ⟨hright, by simp, rfl⟩
    · refine .inr ⟨[','].intercalate left, ?_, left, right, hone, hright, rfl, rfl, rfl⟩
      simp [intercalate_cons_of_ne_nil hone]
  · rintro (⟨hrest, rfl, rfl⟩ | ⟨before', rfl, left, right, hleft, hright, rfl, rfl, rfl⟩)
    · exact ⟨[before], rest, by simp, hrest, rfl, by simp, rfl⟩
    · refine ⟨first :: left, right, by simp, hright, rfl, ?_, rfl⟩
      simp [intercalate_cons_of_ne_nil hleft]

theorem joinsBetween_cons_head {c : Char} {first before after : List Char}
    {rest : List (List Char)} : JoinsBetween ((c :: first) :: rest) before after ↔
      ∃ before', before = c :: before' ∧ JoinsBetween (first :: rest) before' after := by
  simp only [joinsBetween_cons]
  constructor
  · rintro (⟨hrest, rfl, rfl⟩ | ⟨before', rfl, hjoins⟩)
    · exact ⟨first, rfl, .inl ⟨hrest, rfl, rfl⟩⟩
    · exact ⟨first ++ ',' :: before', rfl, .inr ⟨before', rfl, hjoins⟩⟩
  · rintro ⟨_, rfl, ⟨hrest, rfl, rfl⟩ | ⟨before', rfl, hjoins⟩⟩
    · exact .inl ⟨hrest, rfl, rfl⟩
    · exact .inr ⟨before', rfl, hjoins⟩

/-- The commas between segments are the commas that the scanner meets outside quotes and
brackets. -/
theorem joinsBetween_segments_iff {s : Scan} {cs before after : List Char} :
    JoinsBetween (segments [','] s cs) before after ↔ CutsBetween s cs before after := by
  induction cs generalizing s before with
  | nil =>
    rw [segments, joinsBetween_cons]
    simp [JoinsBetween, CutsBetween]
  | cons c cs ih =>
    -- a cut puts an empty segment in front, any other character goes to the first segment
    cases hcut : s.cutsAt [','] c with
    | true =>
      obtain ⟨rfl, htop⟩ := Scan.cutsAt_comma_iff.mp hcut
      rw [segments_cons_of_cut hcut, joinsBetween_cons, cutsBetween_cons, htop.step_comma,
        intercalate_segments]
      simp only [ih, hcut, segments_ne_nil, ne_eq, not_false_eq_true, true_and, List.nil_append]
    | false =>
      obtain ⟨first, rest, hrest, hsegments⟩ := exists_segments_cons hcut cs
      rw [hsegments, joinsBetween_cons_head, cutsBetween_cons, ← hrest, hcut]
      simp only [ih, Bool.false_eq_true, false_and, false_or]

/-- Blanks at the end belong to the last segment. -/
theorem exists_segments_append_blanks {gap : List Char} (h : ∀ c ∈ gap, isBlank c = true)
    (s : Scan) (cs : List Char) : ∃ front last, segments [','] s cs = front ++ [last] ∧
      segments [','] s (cs ++ gap) = front ++ [last ++ gap] := by
  induction cs generalizing s with
  | nil =>
    have hcomma : ',' ∉ gap := by
      intro hmem
      exact absurd (h _ hmem) (by decide)
    have hsegments := segments_append_of_uncut (uncut_of_not_mem s hcomma) []
    exact ⟨[], [], rfl, by simpa [segments] using hsegments⟩
  | cons c cs ih =>
    obtain ⟨front, last, hcs, hgap⟩ := ih (if s.cutsAt [','] c then s else s.step c)
    cases hcut : s.cutsAt [','] c with
    | true =>
      rw [hcut, if_pos rfl] at hcs hgap
      refine ⟨[] :: front, last, ?_, ?_⟩
      · rw [segments_cons_of_cut hcut, hcs, List.cons_append]
      · rw [List.cons_append, segments_cons_of_cut hcut, hgap, List.cons_append]
    | false =>
      rw [hcut, if_neg Bool.false_ne_true] at hcs hgap
      obtain ⟨first, rest, hrest, hsegments⟩ := exists_segments_cons hcut cs
      obtain ⟨first', rest', hrest', hsegments'⟩ := exists_segments_cons hcut (cs ++ gap)
      rw [hcs] at hrest
      rw [hgap] at hrest'
      rw [hsegments, List.cons_append, hsegments']
      cases front with
      | nil =>
        obtain ⟨rfl, rfl⟩ := List.cons.inj hrest
        obtain ⟨rfl, rfl⟩ := List.cons.inj hrest'
        exact ⟨[], c :: last, rfl, rfl⟩
      | cons x front =>
        obtain ⟨rfl, rfl⟩ := List.cons.inj hrest
        obtain ⟨rfl, rfl⟩ := List.cons.inj hrest'
        exact ⟨(c :: x) :: front, last, rfl, rfl⟩

/-- Every segment is without a cut: the first one where the scanner starts, and the others as if
they stood alone. -/
theorem uncut_segments {s : Scan} (h : s.IsRegular) (cs : List Char) :
    ∃ first rest, segments [','] s cs = first :: rest ∧ Uncut [','] s first ∧
      ∀ p ∈ rest, Uncut [','] .start p := by
  induction cs generalizing s with
  | nil => exact ⟨[], [], rfl, trivial, by simp⟩
  | cons c cs ih =>
    cases hcut : s.cutsAt [','] c with
    | true =>
      obtain ⟨-, htop⟩ := Scan.cutsAt_comma_iff.mp hcut
      -- the scanner goes on in the state in which it began
      obtain rfl := h.eq_start htop
      obtain ⟨first, rest, hrest, hfirst, hlater⟩ := ih h
      refine ⟨[], first :: rest, ?_, trivial, List.forall_mem_cons.mpr ⟨hfirst, hlater⟩⟩
      rw [segments_cons_of_cut hcut, hrest]
    | false =>
      obtain ⟨first, rest, hrest, hsegments⟩ := exists_segments_cons hcut cs
      obtain ⟨first', rest', hrest', hfirst, hlater⟩ := ih (h.step c)
      obtain ⟨rfl, rfl⟩ := List.cons.inj (hrest.symm.trans hrest')
      exact ⟨c :: first, rest, hsegments, ⟨hcut, hfirst⟩, hlater⟩

theorem uncut_of_mem_segments {cs p : List Char} (h : p ∈ segments [','] .start cs) :
    Uncut [','] .start p := by
  obtain ⟨first, rest, hsegments, hfirst, hlater⟩ := uncut_segments Scan.isRegular_start cs
  rw [hsegments] at h
  rcases List.mem_cons.mp h with rfl | h
  · exact hfirst
  · exact hlater p h

/-- A piece is not cut any further. -/
theorem topLevelPieces_of_mem {cs p : List Char} (h : p ∈ topLevelPieces [','] cs) :
    topLevelPieces [','] p = [p] := by
  obtain ⟨hp, hne⟩ := List.mem_filter.mp h
  obtain ⟨segment, hsegment, rfl⟩ := List.mem_map.mp hp
  exact topLevelPieces_of_uncut (uncut_trim (uncut_of_mem_segments hsegment)) (trim_idem segment)
    (by simpa using hne)

theorem topLevelPieces_append_blanks {gap : List Char} (h : ∀ c ∈ gap, isBlank c = true)
    (cs : List Char) : topLevelPieces [','] (cs ++ gap) = topLevelPieces [','] cs := by
  obtain ⟨front, last, hcs, hgap⟩ := exists_segments_append_blanks h .start cs
  simp [topLevelPieces, hcs, hgap, trim_append_blanks h]

theorem topLevelPieces_blanks_append {gap : List Char} (h : ∀ c ∈ gap, isBlank c = true)
    (cs : List Char) : topLevelPieces [','] (gap ++ cs) = topLevelPieces [','] cs := by
  rw [topLevelPieces, topLevelPieces, segments_append_of_isClosed (isClosed_of_isBlank h)]
  cases segments [','] .start cs with
  | nil => rfl
  | cons first rest => simp [trim_blanks_append h]

/-- Blanks around a text make no difference to its pieces. -/
theorem topLevelPieces_trim (cs : List Char) :
    topLevelPieces [','] (trim cs) = topLevelPieces [','] cs := by
  obtain ⟨gap, hgap, hblank⟩ := exists_trimLeft cs
  obtain ⟨gap', hgap', hblank'⟩ := exists_trimRight (trimLeft cs)
  calc topLevelPieces [','] (trim cs)
      = topLevelPieces [','] (trim cs ++ gap') := (topLevelPieces_append_blanks hblank' _).symm
    _ = topLevelPieces [','] (trimLeft cs) := by rw [trim, ← hgap']
    _ = topLevelPieces [','] (gap ++ trimLeft cs) := (topLevelPieces_blanks_append hblank _).symm
    _ = topLevelPieces [','] cs := by rw [← hgap]

/-! ### Joined texts -/

theorem intercalate_comma_blank (p : List Char) (ps : List (List Char)) :
    [',', ' '].intercalate (p :: ps) = [','].intercalate (p :: ps.map (' ' :: ·)) := by
  induction ps generalizing p with
  | nil => simp
  | cons q ps ih =>
    rw [List.map_cons, List.intercalate_cons_cons, List.intercalate_cons_cons, ih,
      intercalate_cons_head]
    simp

/-- Closed texts that are joined by commas with blanks are found again, trimmed and without the
empty ones. -/
theorem topLevelPieces_intercalate_blank {ps : List (List Char)}
    (h : ∀ p ∈ ps, IsClosed [','] p) : topLevelPieces [','] ([',', ' '].intercalate ps) =
      (ps.map trim).filter (!·.isEmpty) := by
  cases ps with
  | nil => decide
  | cons p ps =>
    obtain ⟨hp, hps⟩ := List.forall_mem_cons.mp h
    have hblank : IsClosed [','] [' '] := by decide
    have hclosed : ∀ q ∈ p :: ps.map (' ' :: ·), IsClosed [','] q := by
      refine List.forall_mem_cons.mpr ⟨hp, List.forall_mem_map.mpr ?_⟩
      intro q hq
      exact hblank.append (hps q hq)
    have htrim : (ps.map (' ' :: ·)).map trim = ps.map trim := by
      rw [List.map_map]
      exact List.map_congr_left fun q _ => trim_blank_cons (by decide)
    rw [intercalate_comma_blank, topLevelPieces, segments_intercalate (by simp) hclosed,
      List.map_cons, htrim, List.map_cons]

/-! ### The pieces of a text -/

/-- The segments make up the text when they are joined by commas, and these commas are those that
the scanner meets outside quotes and brackets. -/
structure IsDivision (segs : List (List Char)) (cs : List Char) : Prop where
  joined : [','].intercalate segs = cs
  commas : ∀ before after, JoinsBetween segs before after ↔ CutsBetween .start cs before after

theorem isDivision_segments (cs : List Char) : IsDivision (segments [','] .start cs) cs where
  joined := intercalate_segments .start cs
  commas _ _ := joinsBetween_segments_iff

/-- **Splitting at commas is exact.**  The pieces are the trimmed segments of the text that are not
empty, every piece is a piece of itself, and closed texts come back from their list. -/
theorem topLevelPieces_exact :
    (∀ cs, ∃ segs, IsDivision segs cs ∧
      topLevelPieces [','] cs = (segs.map trim).filter (!·.isEmpty)) ∧
    (∀ cs, ∀ p ∈ topLevelPieces [','] cs, topLevelPieces [','] p = [p]) ∧
    ∀ ps : List (List Char), (∀ p ∈ ps, p ≠ [] ∧ trim p = p ∧ IsClosed [','] p) →
      topLevelPieces [','] ([',', ' '].intercalate ps) = ps := by
  refine ⟨fun cs => ⟨_, isDivision_segments cs, rfl⟩, fun _ _ => topLevelPieces_of_mem, ?_⟩
  intro ps h
  have htrim : ps.map trim = ps :=
    (List.map_congr_left fun p hp => (h p hp).2.1).trans (List.map_id _)
  rw [topLevelPieces_intercalate_blank fun p hp => (h p hp).2.2, htrim, List.filter_eq_self]
  intro p hp
  simp [(h p hp).1]

theorem topLevelPieces_exact_nested :
    let ps := ["f(a, b)".toList, "'x, \\' y'".toList, "[1, \x7bk: 2\x7d]".toList]
    topLevelPieces [','] " a ,'b, (c ".toList = ["a".toList, "'b, (c".toList] ∧
      topLevelPieces [','] "'b, (c".toList = ["'b, (c".toList] ∧
      (∀ p ∈ ps, p ≠ [] ∧ trim p = p ∧ IsClosed [','] p) ∧
      topLevelPieces [','] ([',', ' '].intercalate ps) = ps := by
  intro ps
  obtain ⟨-, hpiece, hjoined⟩ := topLevelPieces_exact
  have hps : ∀ p ∈ ps, p ≠ [] ∧ trim p = p ∧ IsClosed [','] p := by decide
  have hopen : topLevelPieces [','] " a ,'b, (c ".toList = ["a".toList, "'b, (c".toList] := by
    decide
  have hmem : "'b, (c".toList ∈ topLevelPieces [','] " a ,'b, (c ".toList := by
    rw [hopen]
    exact List.mem_cons_of_mem _ List.mem_cons_self
  exact ⟨hopen, hpiece _ _ hmem, hps, hjoined ps hps⟩

end Marginalia.Literal
