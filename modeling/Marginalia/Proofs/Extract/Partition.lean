/-
  Marginalia/Proofs/Extract/Partition.lean
  ========================================
  **Comments divide the lines.**  What the search takes at a line is one whole comment
  (`IsComment`): a block comment up to the line that closes it or to the end of the
  text, or a run of line comments that goes as far as it can.  It goes on behind the
  comment, so the comments that are found stand one below the other.  No line is lost
  on the way: a line that stands in a comment is either one of those that are taken
  at once, or it stands in a comment of the lines that are left
  (`InComment.of_append`), and a comment that holds the mark is kept.  `Partitions`
  says so of the comments that are found; each step of the search keeps it
  (`Partitions.skip`, `Partitions.of_blockSpan?`), and so does the search
  (`partitions_commentsFrom`).
-/
import Marginalia.Extract.Comment
import Marginalia.Proofs.Text.Lines
import Marginalia.Proofs.Text.Search

namespace Marginalia.Extract

open Marginalia.Text

/-! ### Lines of comments -/

/-- The line begins, after blanks, with the sign of a block comment. -/
def BeginsBlock (line : List Char) : Prop := ['/', '*'] <+: trimLeft line

/-- The line begins, after blanks, with a sign of line comments. -/
def BeginsLine (line : List Char) : Prop :=
  ['#'] <+: trimLeft line ∨ ['/', '/'] <+: trimLeft line

/-- The line has the end of a block comment. -/
def EndsBlock (line : List Char) : Prop := ['*', '/'] <:+: line

theorem opensBlock_iff {line : List Char} : opensBlock line = true ↔ BeginsBlock line :=
  startsWith_iff

theorem isLineComment_iff {line : List Char} : isLineComment line = true ↔ BeginsLine line := by
  simp only [isLineComment, Bool.or_eq_true, startsWith_iff, BeginsLine]

theorem closesBlock_iff {line : List Char} : closesBlock line = true ↔ EndsBlock line :=
  occursIn_iff

instance (line : List Char) : Decidable (BeginsBlock line) := decidable_of_iff _ opensBlock_iff

instance (line : List Char) : Decidable (BeginsLine line) := decidable_of_iff _ isLineComment_iff

instance (line : List Char) : Decidable (EndsBlock line) := decidable_of_iff _ closesBlock_iff

theorem BeginsLine.not_beginsBlock {line : List Char} (h : BeginsLine line) :
    ¬BeginsBlock line := by
  rintro ⟨block, hblock⟩
  unfold BeginsLine at h
  rw [← hblock] at h
  rcases h with h | h <;> simp at h

/-- The lines are one whole comment when the others follow: a block comment on one line, one with
its end on a later line, one without an end, or a run of line comments. -/
inductive IsComment : List (List Char) → List (List Char) → Prop
  | oneLine {line : List Char} {rest : List (List Char)} : BeginsBlock line →
      EndsBlock ((trimLeft line).drop 2) → IsComment [line] rest
  | closed {line last : List Char} {inner rest : List (List Char)} : BeginsBlock line →
      ¬EndsBlock ((trimLeft line).drop 2) → (∀ l ∈ inner, ¬EndsBlock l) → EndsBlock last →
      IsComment (line :: (inner ++ [last])) rest
  | unclosed {line : List Char} {inner : List (List Char)} : BeginsBlock line →
      ¬EndsBlock ((trimLeft line).drop 2) → (∀ l ∈ inner, ¬EndsBlock l) →
      IsComment (line :: inner) []
  | run {line : List Char} {inner rest : List (List Char)} : BeginsLine line →
      (∀ l ∈ inner, BeginsLine l) → (∀ l ∈ rest.head?, ¬BeginsLine l) →
      IsComment (line :: inner) rest

theorem IsComment.ne_nil {block rest : List (List Char)} (h : IsComment block rest) :
    block ≠ [] := by
  cases h <;> simp

/-! ### One step of the search -/

theorem blockSpan?_eq_none_iff {line : List Char} {following : List (List Char)} :
    blockSpan? line following = none ↔ ¬BeginsBlock line ∧ ¬BeginsLine line := by
  rw [← opensBlock_iff, ← isLineComment_iff, blockSpan?]
  split
  · rename_i hblock
    simp only [hblock, not_true, false_and, iff_false]
    split
    · simp
    · split <;> simp
  · rename_i hblock
    split <;> simp_all

theorem take_drop_takeWhile {α : Type} (p : α → Bool) (l : List α) :
    l.take (l.takeWhile p).length = l.takeWhile p ∧
      l.drop (l.takeWhile p).length = l.dropWhile p := by
  constructor
  · exact (List.prefix_iff_eq_take.mp (List.takeWhile_prefix p)).symm
  · have hdrop := @List.drop_left _ (l.takeWhile p) (l.dropWhile p)
    rwa [List.takeWhile_append_dropWhile] at hdrop

/-- What is taken at a line is one whole comment. -/
theorem isComment_of_blockSpan? {line : List Char} {following : List (List Char)} {n : Nat}
    (h : blockSpan? line following = some n) :
    n ≤ following.length ∧ IsComment (line :: following.take n) (following.drop n) := by
  rw [blockSpan?] at h
  split at h
  · rename_i hblock
    rw [opensBlock_iff] at hblock
    split at h
    · rename_i hend
      obtain rfl := Option.some.inj h
      exact ⟨Nat.zero_le _, .oneLine hblock (closesBlock_iff.mp hend)⟩
    · rename_i hopen
      rw [closesBlock_iff] at hopen
      split at h
      · rename_i i hfind
        obtain rfl := Option.some.inj h
        obtain ⟨hi, hend, hinner⟩ := List.findIdx?_eq_some_iff_getElem.mp hfind
        refine ⟨hi, ?_⟩
        rw [List.take_add_one, List.getElem?_eq_getElem hi]
        refine .closed hblock hopen ?_ (closesBlock_iff.mp hend)
        intro l hl
        obtain ⟨j, hj, rfl⟩ := List.mem_take_iff_getElem.mp hl
        rw [← closesBlock_iff]
        exact hinner j (by omega)
      · rename_i hfind
        obtain rfl := Option.some.inj h
        refine ⟨Nat.le_refl _, ?_⟩
        rw [List.take_length, List.drop_length]
        refine .unclosed hblock hopen ?_
        intro l hl
        rw [← closesBlock_iff, Bool.not_eq_true]
        exact List.findIdx?_eq_none_iff.mp hfind l hl
  · split at h
    · rename_i hline
      obtain rfl := Option.some.inj h
      obtain ⟨htake, hdrop⟩ := take_drop_takeWhile isLineComment following
      refine ⟨(List.takeWhile_prefix _).length_le, ?_⟩
      rw [htake, hdrop]
      refine .run (isLineComment_iff.mp hline) ?_ ?_
      · intro l hl
        exact isLineComment_iff.mp (List.mem_takeWhile_imp hl)
      · intro l hl
        rw [← isLineComment_iff, Bool.not_eq_true]
        have hhead := List.head?_dropWhile_not isLineComment following
        rw [Option.mem_def.mp hl] at hhead
        exact hhead
    · cases h

/-! ### Lines that stand in a comment -/

/-- The line at index `i` stands in a comment: it begins one, or an earlier line begins a block
comment and no line from there up to the one before it has an end. -/
def InComment (ls : List (List Char)) (i : Nat) : Prop :=
  (∃ line, ls[i]? = some line ∧ (BeginsBlock line ∨ BeginsLine line)) ∨
    ∃ j < i, (∃ line, ls[j]? = some line ∧ BeginsBlock line) ∧
      ∀ k, j ≤ k → k < i → ∀ line, ls[k]? = some line → ¬EndsBlock line

theorem endsBlock_of_drop {line : List Char} {n : Nat} (h : EndsBlock ((trimLeft line).drop n)) :
    EndsBlock line :=
  h.trans ((List.drop_suffix _ _).isInfix.trans (List.dropWhile_suffix _).isInfix)

/-- A block comment that begins in a whole comment has its end there, unless nothing follows. -/
theorem IsComment.exists_endsBlock {block rest : List (List Char)} (h : IsComment block rest)
    (hrest : rest ≠ []) {j : Nat} {line : List Char} (hj : block[j]? = some line)
    (hline : BeginsBlock line) :
    ∃ k l, j ≤ k ∧ block[k]? = some l ∧ EndsBlock l := by
  cases h with
  | @oneLine first _ _ hend =>
    obtain ⟨rfl, -⟩ : j = 0 ∧ first = line := by
      cases j with
      | zero => exact ⟨rfl, by simpa using hj⟩
      | succ j => simp at hj
    exact ⟨0, first, Nat.le_refl 0, rfl, endsBlock_of_drop hend⟩
  | @closed first last inner _ _ _ _ hend =>
    have hlt := (List.getElem?_eq_some_iff.mp hj).1
    simp only [List.length_cons, List.length_append, List.length_nil] at hlt
    exact ⟨inner.length + 1, last, by omega, by simp, hend⟩
  | unclosed => exact absurd rfl hrest
  | @run first inner _ hfirst hinner _ =>
    have hmem := List.mem_of_getElem? hj
    have hbegins : BeginsLine line := by
      rcases List.mem_cons.mp hmem with rfl | hmem
      · exact hfirst
      · exact hinner line hmem
    exact absurd hline hbegins.not_beginsBlock

/-- A line behind a whole comment that stands in a comment does so without that comment. -/
theorem InComment.of_append {block rest : List (List Char)} (hblock : IsComment block rest)
    {i : Nat} (hi : i < rest.length) (h : InComment (block ++ rest) (block.length + i)) :
    InComment rest i := by
  rcases h with ⟨line, hline, hbegins⟩ | ⟨j, hj, ⟨line, hline, hbegins⟩, hopen⟩
  · rw [List.getElem?_append_right (Nat.le_add_right _ _), Nat.add_sub_cancel_left] at hline
    exact .inl ⟨line, hline, hbegins⟩
  · -- the block comment begins in the whole one, which then has its end, or behind it
    by_cases hlt : j < block.length
    · rw [List.getElem?_append_left hlt] at hline
      have hrest : rest ≠ [] := by
        rintro rfl
        exact absurd hi (Nat.not_lt_zero _)
      obtain ⟨k, l, hjk, hl, hend⟩ := hblock.exists_endsBlock hrest hline hbegins
      have hk := (List.getElem?_eq_some_iff.mp hl).1
      have hl' : (block ++ rest)[k]? = some l := by
        rwa [List.getElem?_append_left hk]
      exact absurd hend (hopen k hjk (by omega) l hl')
    · rw [List.getElem?_append_right (by omega)] at hline
      refine .inr ⟨j - block.length, by omega, ⟨line, hline, hbegins⟩, ?_⟩
      intro k hjk hki l hl
      refine hopen (block.length + k) (by omega) (by omega) l ?_
      rwa [List.getElem?_append_right (Nat.le_add_right _ _), Nat.add_sub_cancel_left]

theorem InComment.of_cons {line : List Char} {rest : List (List Char)}
    (hline : ¬BeginsBlock line) {i : Nat} (h : InComment (line :: rest) (i + 1)) :
    InComment rest i := by
  rcases h with ⟨l, hl, hbegins⟩ | ⟨j, hj, ⟨l, hl, hbegins⟩, hopen⟩
  · exact .inl ⟨l, hl, hbegins⟩
  · cases j with
    | zero =>
      obtain rfl : line = l := by simpa using hl
      exact absurd hbegins hline
    | succ j =>
      refine .inr ⟨j, by omega, ⟨l, hl, hbegins⟩, ?_⟩
      intro k hjk hki l hl
      exact hopen (k + 1) (by omega) (by omega) l hl

/-! ### What a run keeps -/

/-- The number of lines of a comment. -/
def Comment.height (b : Comment) : Nat := (lines b.raw).length

/-- The line with this number is one of the comment. -/
def Comment.Covers (b : Comment) (number : Nat) : Prop :=
  b.line ≤ number ∧ number < b.line + b.height

/-- The comment has no line at or below the beginning of the other one. -/
def Comment.IsAbove (a b : Comment) : Prop := a.line + a.height ≤ b.line

/-- The text of the comment are the lines from its number on, the first of all having the given
number, and they are one whole comment. -/
def Comment.IsWhole (b : Comment) (number : Nat) (ls : List (List Char)) : Prop :=
  ∃ front back, ls = front ++ lines b.raw ++ back ∧ b.line = number + front.length ∧
    IsComment (lines b.raw) back

/-- The comments are whole, stand one below the other, and miss no line that holds the mark and
stands in a comment. -/
structure Partitions (number : Nat) (ls : List (List Char)) (bs : List Comment) : Prop where
  whole : ∀ b ∈ bs, b.IsWhole number ls
  apart : bs.Pairwise Comment.IsAbove
  covered : ∀ i line, ls[i]? = some line → fieldMark <:+: line → InComment ls i →
    ∃ b ∈ bs, b.Covers (number + i)

theorem Comment.IsWhole.of_append {b : Comment} {number : Nat} {front ls : List (List Char)}
    (h : b.IsWhole (number + front.length) ls) : b.IsWhole number (front ++ ls) := by
  obtain ⟨front', back, rfl, hline, hcomment⟩ := h
  refine ⟨front ++ front', back, by simp, ?_, hcomment⟩
  rw [hline, List.length_append, Nat.add_assoc]

theorem Partitions.nil (number : Nat) : Partitions number [] [] where
  whole _ hb := absurd hb List.not_mem_nil
  apart := .nil
  covered _ _ hline := by simp at hline

section
variable {number : Nat} {rest : List (List Char)} {bs : List Comment}

theorem Partitions.skip {line : List Char} (h : Partitions (number + 1) rest bs)
    (hline : ¬BeginsBlock line ∧ ¬BeginsLine line) : Partitions number (line :: rest) bs where
  whole b hb := @Comment.IsWhole.of_append b number [line] rest (h.whole b hb)
  apart := h.apart
  covered i l hl hmark hin := by
    cases i with
    | zero =>
      rcases hin with ⟨l', hl', hbegins⟩ | ⟨j, hj, _⟩
      · obtain rfl : line = l' := by simpa using hl'
        exact absurd hbegins (not_or.mpr hline)
      · exact absurd hj (Nat.not_lt_zero j)
    | succ i =>
      obtain ⟨b, hb, hcovers⟩ := h.covered i l hl hmark (hin.of_cons hline.1)
      rw [Nat.add_assoc, Nat.add_comm 1 i] at hcovers
      exact ⟨b, hb, hcovers⟩

variable {block : List (List Char)}

theorem Partitions.covered_behind (h : Partitions (number + block.length) rest bs)
    (hblock : IsComment block rest) {i : Nat} {line : List Char} (hi : block.length ≤ i)
    (hline : (block ++ rest)[i]? = some line) (hmark : fieldMark <:+: line)
    (hin : InComment (block ++ rest) i) : ∃ b ∈ bs, b.Covers (number + i) := by
  obtain ⟨i, rfl⟩ := Nat.exists_eq_add_of_le hi
  rw [List.getElem?_append_right hi, Nat.add_sub_cancel_left] at hline
  have hlt := (List.getElem?_eq_some_iff.mp hline).1
  rw [← Nat.add_assoc]
  exact h.covered i line hline hmark (hin.of_append hblock hlt)

theorem Partitions.pass (h : Partitions (number + block.length) rest bs)
    (hblock : IsComment block rest) (hmark : ∀ l ∈ block, ¬fieldMark <:+: l) :
    Partitions number (block ++ rest) bs where
  whole b hb := (h.whole b hb).of_append
  apart := h.apart
  covered i line hline hheld hin := by
    by_cases hi : i < block.length
    · rw [List.getElem?_append_left hi] at hline
      exact absurd hheld (hmark line (List.mem_of_getElem? hline))
    · exact h.covered_behind hblock (by omega) hline hheld hin

theorem Partitions.keep (h : Partitions (number + block.length) rest bs)
    (hblock : IsComment block rest) (hbreaks : ∀ l ∈ block, '\n' ∉ l)
    (entity : Option (List Char)) :
    Partitions number (block ++ rest) (⟨unlines block, number, entity⟩ :: bs) := by
  have hlines : lines (unlines block) = block := lines_unlines hblock.ne_nil hbreaks
  constructor
  · refine List.forall_mem_cons.mpr ⟨⟨[], rest, ?_, rfl, ?_⟩, fun b hb => (h.whole b hb).of_append⟩
    · rw [hlines, List.nil_append]
    · rwa [hlines]
  · refine List.pairwise_cons.mpr ⟨fun b hb => ?_, h.apart⟩
    obtain ⟨front, -, -, hline, -⟩ := h.whole b hb
    simp only [Comment.IsAbove, Comment.height, hlines]
    omega
  · intro i line hline hheld hin
    by_cases hi : i < block.length
    · refine ⟨_, List.mem_cons_self, Nat.le_add_right _ _, ?_⟩
      simp only [Comment.height, hlines]
      omega
    · obtain ⟨b, hb, hcovers⟩ := h.covered_behind hblock (by omega) hline hheld hin
      exact ⟨b, List.mem_cons_of_mem _ hb, hcovers⟩

end

/-- The search behind the comment that is taken at a line is enough. -/
theorem Partitions.of_blockSpan? {number n : Nat} {line : List Char}
    {following : List (List Char)} {bs : List Comment}
    (hspan : blockSpan? line following = some n) (hbreaks : ∀ l ∈ line :: following, '\n' ∉ l)
    (h : Partitions (number + 1 + n) (following.drop n) bs) (entity : Option (List Char)) :
    Partitions number (line :: following)
      (if occursIn fieldMark (unlines (line :: following.take n)) then
        ⟨unlines (line :: following.take n), number, entity⟩ :: bs else bs) := by
  obtain ⟨hn, hcomment⟩ := isComment_of_blockSpan? hspan
  have hlength : number + (line :: following.take n).length = number + 1 + n := by
    rw [List.length_cons, List.length_take_of_le hn]
    omega
  have hsplit : line :: following = (line :: following.take n) ++ following.drop n := by simp
  rw [← hlength] at h
  rw [hsplit] at hbreaks ⊢
  split
  · exact h.keep hcomment (List.forall_mem_append.mp hbreaks).1 entity
  · rename_i hmark
    refine h.pass hcomment fun l hl hheld => ?_
    exact hmark (occursIn_iff.mpr (hheld.trans (infix_unlines hl)))

theorem partitions_commentsFrom (number : Nat) {ls : List (List Char)}
    (h : ∀ l ∈ ls, '\n' ∉ l) : Partitions number ls (commentsFrom number ls) := by
  -- whether a comment that is taken is kept makes no difference to what follows it
  fun_induction commentsFrom number ls with
  | case1 => exact .nil _
  | case2 number line following hspan ih =>
    exact (ih (List.forall_mem_cons.mp h).2).skip (blockSpan?_eq_none_iff.mp hspan)
  | case3 number line following n hspan raw rest blocks hmark ih =>
    have hrest := ih fun l hl => h l (List.mem_cons_of_mem _ (List.mem_of_mem_drop hl))
    have hstep := hrest.of_blockSpan? hspan h (nextEntity? rest)
    rwa [if_pos hmark] at hstep
  | case4 number line following n hspan raw rest blocks hmark ih =>
    have hrest := ih fun l hl => h l (List.mem_cons_of_mem _ (List.mem_of_mem_drop hl))
    have hstep := hrest.of_blockSpan? hspan h (nextEntity? rest)
    rwa [if_neg hmark] at hstep

/-! ### The comments of a text -/

theorem partitions_commentsIn (text : List Char) : Partitions 1 (lines text) (commentsIn text) :=
  partitions_commentsFrom 1 fun _ hl => not_mem_of_mem_splitAt hl

/-- A line of one comment is a line of no other one. -/
theorem Comment.Covers.eq {bs : List Comment} (hapart : bs.Pairwise Comment.IsAbove) {a b : Comment}
    (ha : a ∈ bs) (hb : b ∈ bs) {number : Nat} (hacovers : a.Covers number)
    (hbcovers : b.Covers number) : a = b := by
  induction bs with
  | nil => cases ha
  | cons c bs ih =>
    obtain ⟨hc, hbs⟩ := List.pairwise_cons.mp hapart
    obtain ⟨hale, halt⟩ := hacovers
    obtain ⟨hble, hblt⟩ := hbcovers
    rcases List.mem_cons.mp ha with rfl | ha' <;> rcases List.mem_cons.mp hb with rfl | hb'
    · rfl
    · have habove : a.line + a.height ≤ b.line := hc b hb'
      omega
    · have habove : b.line + b.height ≤ a.line := hc a ha'
      omega
    · exact ih hbs ha' hb'

/-- **Comments divide the lines of a text.**  The comments that are found stand one below the other,
each has the lines of the text from its number on and is one whole comment, and every line that
holds the mark and stands in a comment, which includes every line that begins one, is a line of
exactly one of them. -/
theorem commentsIn_partition (text : List Char) :
    (commentsIn text).Pairwise Comment.IsAbove ∧
    (∀ b ∈ commentsIn text, b.IsWhole 1 (lines text)) ∧
    ∀ i line, (lines text)[i]? = some line → fieldMark <:+: line → InComment (lines text) i →
      ∃! b, b ∈ commentsIn text ∧ b.Covers (i + 1) := by
  have hparts := partitions_commentsIn text
  refine ⟨hparts.apart, hparts.whole, ?_⟩
  intro i line hline hmark hin
  obtain ⟨b, hb, hcovers⟩ := hparts.covered i line hline hmark hin
  rw [Nat.add_comm] at hcovers
  refine ⟨b, ⟨hb, hcovers⟩, ?_⟩
  rintro a ⟨ha, hacovers⟩
  exact hacovers.eq hparts.apart ha hb hcovers

theorem commentsIn_partition_unclosed :
    let text := "/* @mm:id=a */\n// @mm:desc=x\nlet a\n  /* open\n @mm:tags=t\n# */ @mm:phase=1".toList
    (commentsIn text).map (fun b => (b.line, b.height)) = [(1, 1), (2, 1), (4, 3)] ∧
      (∃ b ∈ commentsIn text, b.line = 4 ∧ b.IsWhole 1 (lines text)) ∧
      (∃! b, b ∈ commentsIn text ∧ b.Covers 2) ∧ ∃! b, b ∈ commentsIn text ∧ b.Covers 5 := by
  intro text
  obtain ⟨-, hwhole, hcovered⟩ := commentsIn_partition text
  refine ⟨by decide +kernel, ?_, ?_, ?_⟩
  · have hmem : ⟨"  /* open\n @mm:tags=t\n# */ @mm:phase=1".toList, 4, none⟩ ∈ commentsIn text := by
      decide +kernel
    exact ⟨_, hmem, rfl, hwhole _ hmem⟩
  · exact hcovered 1 _ rfl (by decide) (.inl ⟨_, rfl, by decide⟩)
  · refine hcovered 4 _ rfl (by decide) (.inr ⟨3, by decide, ⟨_, rfl, by decide⟩, ?_⟩)
    -- the only line from the beginning of the comment to the line itself is the first one
    intro k hk hlt l hl
    obtain rfl : k = 3 := by omega
    obtain rfl := Option.some.inj hl
    decide

end Marginalia.Extract
