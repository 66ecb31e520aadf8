/-
  Marginalia/Proofs/Literal/Brace.lean
  ====================================
  **The first balanced brace.**  A text is read as characters outside strings and
  whole strings (`Lexes`), and the brace that is found is the first one behind such a
  text that has as many closing as opening braces with it (`closingBrace_first`).
  One lemma for each direction: the brace that the scan finds stands behind a text
  that can be read (`exists_of_closingOffset?`), and the scan stops at such a brace
  or before it (`exists_closingOffset?_le`).  Since nothing behind the brace matters,
  the literal is found again in any other place.
-/
import Marginalia.Literal.Brace
import Mathlib.Data.List.Infix

namespace Marginalia.Literal

/-! ### Reading strings -/

/-- What may stand between two quotes: characters other than the quote and the backslash, and
backslashes each with the character that it hides. -/
inductive IsBody (quote : Char) : List Char → Prop
  | nil : IsBody quote []
  | plain {c : Char} {body : List Char} : c ≠ quote → c ≠ '\\' → IsBody quote body →
      IsBody quote (c :: body)
  | hidden {c : Char} {body : List Char} : IsBody quote body → IsBody quote ('\\' :: c :: body)

/-- The text can be read from its beginning to its end, and `code` are its characters outside
strings: it does not end inside a string. -/
inductive Lexes : List Char → List Char → Prop
  | nil : Lexes [] []
  | plain {c : Char} {text code : List Char} : isQuote c = false → Lexes text code →
      Lexes (c :: text) (c :: code)
  | string {quote : Char} {body text code : List Char} : isQuote quote = true →
      IsBody quote body → Lexes text code → Lexes (quote :: body ++ quote :: text) code

theorem ne_backslash_of_isQuote {c : Char} (h : isQuote c = true) : c ≠ '\\' := by
  rintro rfl
  exact absurd h (by decide)

theorem IsBody.eq_of_append {quote : Char} (hquote : quote ≠ '\\') {body body' rest rest' : List Char}
    (h : IsBody quote body) (h' : IsBody quote body')
    (heq : body ++ quote :: rest = body' ++ quote :: rest') : body = body' ∧ rest = rest' := by
  induction h generalizing body' with
  | nil =>
    cases h' with
    | nil => exact ⟨rfl, (List.cons.inj heq).2⟩
    | plain hne _ _ => exact absurd (List.cons.inj heq).1.symm hne
    | hidden _ => exact absurd (List.cons.inj heq).1 hquote
  | plain hne hc _ ih =>
    cases h' with
    | nil => exact absurd (List.cons.inj heq).1 hne
    | plain _ _ h' =>
      obtain ⟨rfl, htail⟩ := List.cons.inj heq
      obtain ⟨rfl, rfl⟩ := ih h' htail
      exact ⟨rfl, rfl⟩
    | hidden _ => exact absurd (List.cons.inj heq).1 hc
  | hidden _ ih =>
    cases h' with
    | nil => exact absurd (List.cons.inj heq).1.symm hquote
    | plain _ hc _ => exact absurd (List.cons.inj heq).1.symm hc
    | hidden h' =>
      obtain ⟨rfl, htail⟩ := List.cons.inj (List.cons.inj heq).2
      obtain ⟨rfl, rfl⟩ := ih h' htail
      exact ⟨rfl, rfl⟩

/-- A text is read in one way only. -/
theorem Lexes.unique {text code code' : List Char} (h : Lexes text code) (h' : Lexes text code') :
    code = code' := by
  induction h generalizing code' with
  | nil =>
    cases h'
    rfl
  | plain hc _ ih =>
    cases h' with
    | plain _ h' => rw [ih h']
    | string hquote _ _ => exact absurd hquote (by simp [hc])
  | @string quote body text code hquote hbody _ ih =>
    generalize htext : quote :: body ++ quote :: text = text' at h'
    cases h' with
    | nil => cases htext
    | plain hc _ =>
      obtain ⟨rfl, -⟩ := List.cons.inj htext
      exact absurd hquote (by simp [hc])
    | string _ hbody' h' =>
      obtain ⟨rfl, htext⟩ := List.cons.inj htext
      obtain ⟨-, rfl⟩ := hbody.eq_of_append (ne_backslash_of_isQuote hquote) hbody' htext
      exact ih h'

/-- The rest of a string up to its closing quote, and what follows it. -/
def LexesIn : Option Char → List Char → List Char → Prop
  | none, text, code => Lexes text code
  | some quote, text, code =>
    ∃ body rest, text = body ++ quote :: rest ∧ IsBody quote body ∧ Lexes rest code

theorem LexesIn.opening {quote : Char} {text code : List Char} (hquote : isQuote quote = true)
    (h : LexesIn (some quote) text code) : LexesIn none (quote :: text) code := by
  obtain ⟨body, rest, rfl, hbody, hrest⟩ := h
  exact .string hquote hbody hrest

theorem LexesIn.inside {quote c : Char} {text code : List Char} (hc : c ≠ '\\')
    (h : LexesIn (if c = quote then none else some quote) text code) :
    LexesIn (some quote) (c :: text) code := by
  split at h
  · rename_i heq
    subst heq
    exact ⟨[], text, rfl, .nil, h⟩
  · rename_i hne
    obtain ⟨body, rest, rfl, hbody, hrest⟩ := h
    exact ⟨c :: body, rest, rfl, .plain hne hc hbody, hrest⟩

theorem LexesIn.hidden {quote c : Char} {text code : List Char}
    (h : LexesIn (some quote) text code) : LexesIn (some quote) ('\\' :: c :: text) code := by
  obtain ⟨body, rest, rfl, hbody, hrest⟩ := h
  exact ⟨'\\' :: c :: body, rest, rfl, .hidden hbody, hrest⟩

/-! ### The scan -/

/-- The scan leaves a string at its closing quote. -/
theorem closingOffset?_string {quote : Char} {body : List Char} (hquote : isQuote quote = true)
    (h : IsBody quote body) (depth : Nat) (rest : List Char) :
    closingOffset? depth (some quote) (body ++ quote :: rest) =
      (closingOffset? depth none rest).map (· + (body.length + 1)) := by
  induction h with
  | nil =>
    rw [List.nil_append, closingOffset?.eq_def]
    simp [ne_backslash_of_isQuote hquote]
  | @plain c body hne hc _ ih =>
    rw [List.cons_append, closingOffset?.eq_def]
    simp only [hc, hne, if_false, ih, Option.map_map]
    congr 1
  | @hidden c body _ ih =>
    rw [List.cons_append, List.cons_append, closingOffset?.eq_def]
    simp only [if_true, ih, Option.map_map]
    congr 1

/-- What is found is a closing brace behind a text that can be read, and it closes the braces that
are open. -/
theorem exists_of_closingOffset? {depth : Nat} {quote : Option Char} {cs : List Char} {n : Nat}
    (hdepth : 1 ≤ depth) (h : closingOffset? depth quote cs = some n) :
    ∃ text code rest, cs = text ++ '}' :: rest ∧ text.length = n ∧ LexesIn quote text code ∧
      depth + code.count '{' = code.count '}' + 1 := by
  -- the cases in which the scan goes on differ in how one more character is read
  fun_induction closingOffset? depth quote cs generalizing n with
  | case1 => cases h
  | case2 => cases h
  | case3 depth q d rest ih =>
    obtain ⟨m, hm, rfl⟩ := Option.map_eq_some_iff.mp h
    obtain ⟨text, code, rest', rfl, rfl, hlexes, hcount⟩ := ih hdepth hm
    exact ⟨'\\' :: d :: text, code, rest', rfl, rfl, hlexes.hidden, hcount⟩
  | case4 depth c cs q hc ih =>
    obtain ⟨m, hm, rfl⟩ := Option.map_eq_some_iff.mp h
    obtain ⟨text, code, rest', rfl, rfl, hlexes, hcount⟩ := ih hdepth hm
    exact ⟨c :: text, code, rest', rfl, rfl, hlexes.inside hc, hcount⟩
  | case5 depth c cs hquote ih =>
    obtain ⟨m, hm, rfl⟩ := Option.map_eq_some_iff.mp h
    obtain ⟨text, code, rest', rfl, rfl, hlexes, hcount⟩ := ih hdepth hm
    exact ⟨c :: text, code, rest', rfl, rfl, hlexes.opening hquote, hcount⟩
  | case6 depth cs hquote ih =>
    obtain ⟨m, hm, rfl⟩ := Option.map_eq_some_iff.mp h
    obtain ⟨text, code, rest', rfl, rfl, hlexes, hcount⟩ := ih (by omega) hm
    refine ⟨'{' :: text, '{' :: code, rest', rfl, rfl, .plain (by decide) hlexes, ?_⟩
    rw [List.count_cons_self, List.count_cons_of_ne (by decide)]
    omega
  | case7 depth cs hle hquote hopen =>
    obtain rfl := Option.some.inj h
    refine ⟨[], [], cs, rfl, rfl, .nil, ?_⟩
    simp
    omega
  | case8 depth cs hlt hquote hopen ih =>
    obtain ⟨m, hm, rfl⟩ := Option.map_eq_some_iff.mp h
    obtain ⟨text, code, rest', rfl, rfl, hlexes, hcount⟩ := ih (by omega) hm
    refine ⟨'}' :: text, '}' :: code, rest', rfl, rfl, .plain (by decide) hlexes, ?_⟩
    rw [List.count_cons_self, List.count_cons_of_ne (by decide)]
    omega
  | case9 depth c cs hquote hopen hclose ih =>
    obtain ⟨m, hm, rfl⟩ := Option.map_eq_some_iff.mp h
    obtain ⟨text, code, rest', rfl, rfl, hlexes, hcount⟩ := ih hdepth hm
    have hplain : isQuote c = false := by simpa using hquote
    refine ⟨c :: text, c :: code, rest', rfl, rfl, .plain hplain hlexes, ?_⟩
    rwa [List.count_cons_of_ne hopen, List.count_cons_of_ne hclose]

/-- The scan does not pass a closing brace behind a text that can be read if it closes the braces
that are open. -/
theorem exists_closingOffset?_le {text code : List Char} (h : Lexes text code) {depth : Nat}
    (hdepth : 1 ≤ depth) (hcount : depth + code.count '{' = code.count '}' + 1)
    (rest : List Char) :
    ∃ n ≤ text.length, closingOffset? depth none (text ++ '}' :: rest) = some n := by
  induction h generalizing depth with
  | nil =>
    have hone : depth ≤ 1 := by simpa using hcount.le
    refine ⟨0, Nat.le_refl 0, ?_⟩
    simp [closingOffset?, isQuote, hone]
  | @plain c text code hc _ ih =>
    rw [List.cons_append, closingOffset?.eq_def]
    simp only [hc, Bool.false_eq_true, if_false]
    by_cases hopen : c = '{'
    · subst hopen
      rw [List.count_cons_self, List.count_cons_of_ne (by decide)] at hcount
      obtain ⟨n, hn, hoffset⟩ := @ih (depth + 1) (by omega) (by omega)
      refine ⟨n + 1, by simpa using hn, ?_⟩
      simp [hoffset]
    · by_cases hclose : c = '}'
      · subst hclose
        rw [List.count_cons_self, List.count_cons_of_ne (by decide)] at hcount
        -- the scan may stop here already: the text may be closed more than once
        by_cases hone : depth ≤ 1
        · exact ⟨0, Nat.zero_le _, by simp [hone]⟩
        · obtain ⟨n, hn, hoffset⟩ := @ih (depth - 1) (by omega) (by omega)
          refine ⟨n + 1, by simpa using hn, ?_⟩
          simp [hone, hoffset]
      · rw [List.count_cons_of_ne hopen, List.count_cons_of_ne hclose] at hcount
        obtain ⟨n, hn, hoffset⟩ := ih hdepth hcount
        refine ⟨n + 1, by simpa using hn, ?_⟩
        simp [hopen, hclose, hoffset]
  | @string quote body text code hquote hbody _ ih =>
    obtain ⟨n, hn, hoffset⟩ := ih hdepth hcount
    refine ⟨n + (body.length + 1) + 1, by simp; omega, ?_⟩
    rw [List.append_assoc, List.cons_append, List.cons_append, closingOffset?.eq_def]
    simp [hquote, closingOffset?_string hquote hbody, hoffset]

/-! ### The brace of a text -/

/-- The text begins with characters that can be read and then, at `n`, a closing brace, and with it
as many braces outside strings are closed as are opened. -/
def ClosesAt (cs : List Char) (n : Nat) : Prop :=
  ∃ text rest code, cs = text ++ '}' :: rest ∧ text.length = n ∧ Lexes text code ∧
    (code ++ ['}']).count '{' = (code ++ ['}']).count '}'

theorem count_closed_iff {code : List Char} :
    (code ++ ['}']).count '{' = (code ++ ['}']).count '}' ↔
      code.count '{' = code.count '}' + 1 := by
  simp [List.count_append]

/-- Whether braces balance at a place depends on the text up to this place only. -/
theorem ClosesAt.congr {cs cs' : List Char} {n : Nat} (h : ClosesAt cs n)
    (htake : cs'.take (n + 1) = cs.take (n + 1)) : ClosesAt cs' n := by
  obtain ⟨text, rest, code, rfl, rfl, hlexes, hcount⟩ := h
  have hfront : (text ++ '}' :: rest).take (text.length + 1) = text ++ ['}'] := by
    simp [List.take_append]
  refine ⟨text, cs'.drop (text.length + 1), code, ?_, rfl, hlexes, hcount⟩
  rw [← List.take_append_drop (text.length + 1) cs', htake, hfront]
  simp

theorem closesAt_of_matchingBrace? {cs : List Char} {n : Nat} (h : matchingBrace? cs = some n) :
    cs.head? = some '{' ∧ ClosesAt cs n := by
  unfold matchingBrace? at h
  split at h
  · rename_i cs
    rw [closingOffset?] at h
    simp only [isQuote] at h
    obtain ⟨m, hm, rfl⟩ := Option.map_eq_some_iff.mp h
    obtain ⟨text, code, rest, rfl, rfl, hlexes, hcount⟩ :=
      exists_of_closingOffset? (Nat.le_refl 1) hm
    refine ⟨rfl, '{' :: text, rest, '{' :: code, rfl, rfl, .plain (by decide) hlexes, ?_⟩
    rw [count_closed_iff, List.count_cons_self, List.count_cons_of_ne (by decide)]
    omega
  · cases h

theorem exists_matchingBrace?_le {cs : List Char} {n : Nat} (hopen : cs.head? = some '{')
    (h : ClosesAt cs n) : ∃ m ≤ n, matchingBrace? cs = some m := by
  obtain ⟨text, rest, code, rfl, rfl, hlexes, hcount⟩ := h
  -- the opening brace is outside strings, so the text goes on behind it
  cases hlexes with
  | nil => cases hopen
  | @plain c text code _ hlexes =>
    obtain rfl : c = '{' := by simpa using hopen
    rw [count_closed_iff, List.count_cons_self, List.count_cons_of_ne (by decide)] at hcount
    obtain ⟨m, hm, hoffset⟩ :=
      exists_closingOffset?_le hlexes (Nat.le_refl 1) (by omega) rest
    refine ⟨m + 1, by simpa using hm, ?_⟩
    rw [List.cons_append, matchingBrace?, closingOffset?]
    simp [isQuote, hoffset]
  | @string quote body text code hquote _ _ =>
    obtain rfl : quote = '{' := by simpa using hopen
    cases hquote

theorem matchingBrace?_eq_some_iff {cs : List Char} {n : Nat} : matchingBrace? cs = some n ↔
    cs.head? = some '{' ∧ ClosesAt cs n ∧ ∀ m < n, ¬ClosesAt cs m := by
  constructor
  · intro h
    obtain ⟨hopen, hcloses⟩ := closesAt_of_matchingBrace? h
    refine ⟨hopen, hcloses, fun m hm hearlier => ?_⟩
    -- at an earlier balance the scan would have stopped
    obtain ⟨m', hm', heq⟩ := exists_matchingBrace?_le hopen hearlier
    obtain rfl := Option.some.inj (h.symm.trans heq)
    omega
  · rintro ⟨hopen, hcloses, hleast⟩
    obtain ⟨m, hm, hmatch⟩ := exists_matchingBrace?_le hopen hcloses
    rcases Nat.eq_or_lt_of_le hm with rfl | hlt
    · exact hmatch
    · exact absurd (closesAt_of_matchingBrace? hmatch).2 (hleast m hlt)

theorem matchingBrace?_eq_none_iff {cs : List Char} :
    matchingBrace? cs = none ↔ ¬∃ n, cs.head? = some '{' ∧ ClosesAt cs n := by
  constructor
  · rintro h ⟨n, hopen, hcloses⟩
    obtain ⟨m, -, hmatch⟩ := exists_matchingBrace?_le hopen hcloses
    rw [h] at hmatch
    cases hmatch
  · intro h
    cases hmatch : matchingBrace? cs with
    | none => rfl
    | some n => exact absurd ⟨n, closesAt_of_matchingBrace? hmatch⟩ h

theorem exists_of_balanced? {cs literal : List Char} (h : balanced? cs = some literal) :
    ∃ n, matchingBrace? cs = some n ∧ literal = cs.take (n + 1) ∧ literal.length = n + 1 := by
  obtain ⟨n, hn, rfl⟩ := Option.map_eq_some_iff.mp h
  obtain ⟨-, _, _, _, rfl, rfl, -⟩ := closesAt_of_matchingBrace? hn
  exact ⟨_, hn, rfl, by simp⟩

/-- A literal is matched in the same way wherever it stands. -/
theorem matchingBrace?_literal {cs literal : List Char} (h : balanced? cs = some literal)
    (after : List Char) : matchingBrace? (literal ++ after) = some (literal.length - 1) := by
  obtain ⟨n, hn, hliteral, hlength⟩ := exists_of_balanced? h
  obtain ⟨hopen, hcloses, hleast⟩ := matchingBrace?_eq_some_iff.mp hn
  have htake : ∀ m ≤ n, (literal ++ after).take (m + 1) = cs.take (m + 1) := by
    intro m hm
    rw [List.take_append_of_le_length (by omega), hliteral, List.take_take,
      Nat.min_eq_left (by omega)]
  rw [hlength, Nat.add_sub_cancel, matchingBrace?_eq_some_iff]
  refine ⟨?_, hcloses.congr (htake n (Nat.le_refl n)), ?_⟩
  · rw [hliteral, List.head?_append, List.head?_take, if_neg (by omega), hopen, Option.some_or]
  · intro m hm hearlier
    exact hleast m hm (hearlier.congr (htake m (by omega)).symm)

/-- The `}` at `last` stands outside strings, when the text is read from `first` on, and the braces
outside strings from `first` to `last` balance. -/
def Balances (content : List Char) (first last : Nat) : Prop :=
  first ≤ last ∧ ClosesAt (content.drop first) (last - first)

/-- **The first balanced brace and nothing else.**  The closing brace of an opening one is the first
at which the braces outside strings balance, there is none if they never do, and the literal between
them is found again in whatever text it stands. -/
theorem closingBrace_first (content : List Char) (start : Nat) :
    (∀ e, closingBrace content start = some e ↔
      content[start]? = some '{' ∧ Balances content start e ∧
        ∀ i < e, ¬Balances content start i) ∧
    (closingBrace content start = none ↔
      ¬∃ e, content[start]? = some '{' ∧ Balances content start e) ∧
    ∀ literal, literalAt content start = some literal → ∀ before after,
      closingBrace (before ++ literal ++ after) before.length =
        some (before.length + literal.length - 1) := by
  have hhead : (content.drop start).head? = content[start]? := List.head?_drop
  refine ⟨?_, ?_, ?_⟩
  · intro e
    rw [closingBrace, Option.map_eq_some_iff]
    constructor
    · rintro ⟨n, hn, rfl⟩
      obtain ⟨hopen, hcloses, hleast⟩ := matchingBrace?_eq_some_iff.mp hn
      refine ⟨hhead.symm.trans hopen, ⟨by omega, by simpa using hcloses⟩, ?_⟩
      rintro i hi ⟨hle, hearlier⟩
      exact hleast (i - start) (by omega) hearlier
    · rintro ⟨hopen, ⟨hle, hcloses⟩, hleast⟩
      refine ⟨e - start, matchingBrace?_eq_some_iff.mpr ⟨hhead.trans hopen, hcloses, ?_⟩, by omega⟩
      intro m hm hearlier
      exact hleast (start + m) (by omega) ⟨by omega, by simpa using hearlier⟩
  · rw [closingBrace, Option.map_eq_none_iff, matchingBrace?_eq_none_iff, hhead]
    apply not_congr
    constructor
    · rintro ⟨n, hopen, hcloses⟩
      exact ⟨start + n, hopen, by omega, by simpa using hcloses⟩
    · rintro ⟨e, hopen, -, hcloses⟩
      exact ⟨e - start, hopen, hcloses⟩
  · intro literal hliteral before after
    obtain ⟨n, -, -, hlength⟩ := exists_of_balanced? hliteral
    rw [closingBrace, List.append_assoc, List.drop_left, matchingBrace?_literal hliteral,
      Option.map_some, Nat.add_sub_assoc (by omega)]

theorem closingBrace_first_quoted :
    let content := "let x = \x7ba: '\\'\x7d', b: \x7bc: \"\x7b\"\x7d\x7d \x7d".toList
    let literal := "\x7ba: '\\'\x7d', b: \x7bc: \"\x7b\"\x7d\x7d".toList
    let before := "(\x7d".toList
    literalAt content 8 = some literal ∧
      closingBrace (before ++ literal ++ "\x7d".toList) before.length =
        some (before.length + literal.length - 1) := by
  intro content literal before
  have hliteral : literalAt content 8 = some literal := by decide +kernel
  exact ⟨hliteral, (closingBrace_first content 8).2.2 literal hliteral before "\x7d".toList⟩

end Marginalia.Literal
