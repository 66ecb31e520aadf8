/-
  Marginalia/Proofs/Json/RoundTrip.lean
  =====================================
  **Reading gives back what was written.**  The written form of a value has the
  tokens of the value (`tokens_write`), whatever characters its strings hold, and
  these are read as the value (`ofTokens_tokensOf`).  It holds of the values that
  have no number but whole ones of at most `maxDigits` digits, no key twice in one
  object, and no more containers one inside the other than there is room for
  (`IsExact`).

  Lexing is a fold, so what it makes of a text is said from any mode on: `lexed`
  gives the tokens still to come.  Reading is a fold over tokens, so what it makes of
  a value is said from any stack on that leaves room for it (`Takes`).

  What characters may stand in a written form is said of the pieces that it is put
  together from (`isPrinted_write`).
-/
import Marginalia.Json.Printer
import Marginalia.Json.Reader
import Marginalia.Proofs.Except
import Marginalia.Proofs.Table
import Marginalia.Proofs.Text.Decimal
import Mathlib.Data.List.TakeWhile
import Mathlib.Tactic.IntervalCases

namespace Marginalia.Json

/-- Values that are read back from their text where there is room for `room` open containers. -/
inductive IsExact : Nat → Json → Prop where
  | null {room : Nat} : IsExact room .null
  | bool {room : Nat} (b : Bool) : IsExact room (.bool b)
  | int {room : Nat} {n : Int} (h : Text.IsShort n) : IsExact room (.int n)
  | str {room : Nat} (s : String) : IsExact room (.str s)
  | arr {room : Nat} {items : List Json} (h : ∀ v ∈ items, IsExact room v) :
      IsExact (room + 1) (.arr items)
  | obj {room : Nat} {fields : List (String × Json)} (hkeys : (Table.keys fields).Nodup)
      (h : ∀ p ∈ fields, IsExact room p.2) : IsExact (room + 1) (.obj fields)

mutual

/-- The tokens of a value. -/
def tokensOf : Json → List Token
  | .str s => [.str s]
  | .arr [] => [.openArr, .closeArr]
  | .arr (v :: vs) => .openArr :: (tokensOf v ++ itemTokens vs ++ [.closeArr])
  | .obj [] => [.openObj, .closeObj]
  | .obj ((k, v) :: fs) =>
    .openObj :: .str k :: .colon :: (tokensOf v ++ memberTokens fs ++ [.closeObj])
  | v => [.scalar v]

/-- The tokens of the items after the first one. -/
def itemTokens : List Json → List Token
  | [] => []
  | v :: vs => .comma :: (tokensOf v ++ itemTokens vs)

/-- The tokens of the members after the first one. -/
def memberTokens : List (String × Json) → List Token
  | [] => []
  | (k, v) :: fs => .comma :: .str k :: .colon :: (tokensOf v ++ memberTokens fs)

end

/-! ### The lexer from a mode on -/

/-- The tokens of a text that is lexed from a mode on. -/
def lexed (m : Mode) (cs : List Char) : List Token := (cs.foldl Lexer.next ⟨m, []⟩).finish

theorem begin_append (ts ts' : List Token) (c : Char) :
    Lexer.begin (ts ++ ts') c = ⟨(Lexer.begin ts c).mode, (Lexer.begin ts c).tokens ++ ts'⟩ := by
  -- what is added behind is added in every branch
  let behind (l : Lexer) : Lexer := ⟨l.mode, l.tokens ++ ts'⟩
  change Lexer.begin (ts ++ ts') c = behind (Lexer.begin ts c)
  simp only [Lexer.begin, apply_ite behind]
  rfl

theorem next_append (m : Mode) (ts : List Token) (c : Char) :
    Lexer.next ⟨m, ts⟩ c =
      ⟨(Lexer.next ⟨m, []⟩ c).mode, (Lexer.next ⟨m, []⟩ c).tokens ++ ts⟩ := by
  cases m with
  | between => exact begin_append [] ts c
  | number run =>
    simp only [Lexer.next]
    repeat' split
    · rfl
    · rfl
    · rw [List.append_nil]
      exact begin_append _ ts c
  | word run =>
    simp only [Lexer.next]
    split
    · rfl
    · exact begin_append [_] ts c
  | string out high =>
    simp only [Lexer.next]
    repeat' split
    all_goals rfl
  | escape out high =>
    simp only [Lexer.next]
    repeat' split
    all_goals rfl
  | unit out high owed value =>
    simp only [Lexer.next]
    repeat' split
    all_goals rfl

/-- Tokens found before do not change those to come. -/
theorem finish_foldl_next (cs : List Char) (m : Mode) (ts : List Token) :
    (cs.foldl Lexer.next ⟨m, ts⟩).finish = ts.reverse ++ lexed m cs := by
  induction cs generalizing m ts with
  | nil => cases m <;> simp [lexed, Lexer.finish]
  | cons c cs ih =>
    rw [lexed, List.foldl_cons, List.foldl_cons, next_append, ih, List.reverse_append,
      List.append_assoc]
    congr 1
    exact (ih _ _).symm

theorem lexed_cons (m : Mode) (c : Char) (cs : List Char) :
    lexed m (c :: cs) =
      (Lexer.next ⟨m, []⟩ c).tokens.reverse ++ lexed (Lexer.next ⟨m, []⟩ c).mode cs :=
  finish_foldl_next cs _ _

/-! ### Punctuation and blanks -/

theorem lexed_open_arr (cs : List Char) :
    lexed .between ('[' :: cs) = .openArr :: lexed .between cs := lexed_cons _ _ _

theorem lexed_close_arr (cs : List Char) :
    lexed .between (']' :: cs) = .closeArr :: lexed .between cs := lexed_cons _ _ _

theorem lexed_open_obj (cs : List Char) :
    lexed .between ('{' :: cs) = .openObj :: lexed .between cs := lexed_cons _ _ _

theorem lexed_close_obj (cs : List Char) :
    lexed .between ('}' :: cs) = .closeObj :: lexed .between cs := lexed_cons _ _ _

theorem lexed_comma (cs : List Char) :
    lexed .between (',' :: cs) = .comma :: lexed .between cs := lexed_cons _ _ _

theorem lexed_colon (cs : List Char) :
    lexed .between (':' :: ' ' :: cs) = .colon :: lexed .between cs :=
  (lexed_cons _ _ _).trans (congrArg _ (lexed_cons _ _ _))

theorem lexed_newline (depth : Nat) (cs : List Char) :
    lexed .between (Layout.indented.newline depth ++ cs) = lexed .between cs := by
  have hspaces : ∀ n, lexed .between (List.replicate n ' ' ++ cs) = lexed .between cs := by
    intro n
    induction n with
    | zero => rfl
    | succ n ih =>
      rw [List.replicate_succ, List.cons_append, lexed_cons]
      exact ih
  exact (lexed_cons _ _ _).trans (hspaces _)

/-! ### Strings -/

theorem hexValue?_hexChar {d : Nat} (h : d < 16) : hexValue? (Text.hexChar d) = some d := by
  have hall : ∀ d < 16, hexValue? (Text.hexChar d) = some d := by decide
  exact hall d h

theorem lexed_unit {d : Nat} (h : d < 16) (out : List Char) (owed value : Nat) (cs : List Char)
    (howed : 1 < owed) :
    lexed (.unit out none owed value) (Text.hexChar d :: cs) =
      lexed (.unit out none (owed - 1) (value * 16 + d)) cs := by
  have howed' : ¬ owed ≤ 1 := by omega
  rw [lexed_cons]
  simp [Lexer.next, hexValue?_hexChar h, howed']

/-- A control character is read from its four digits. -/
theorem lexed_escapeUnit {n : Nat} (h : n < 0x20) (out cs : List Char) :
    lexed (.string out none) (escapeUnit n ++ cs) =
      lexed (.string (Char.ofNat n :: out) none) cs := by
  have hdigits : escapeUnit n = ['\\', 'u', Text.hexChar 0, Text.hexChar 0,
      Text.hexChar (n / 16), Text.hexChar (n % 16)] := by
    have h1 : n / 16 / 16 = 0 := by omega
    have h2 : n / 16 % 16 = n / 16 := by omega
    simp [escapeUnit, Text.hexDigits, h1, h2]
  have hlast : lexed (.unit out none 1 (n / 16)) (Text.hexChar (n % 16) :: cs) =
      lexed (.string (Char.ofNat n :: out) none) cs := by
    have hvalue : n / 16 * 16 + n % 16 = n := by omega
    have hlow : ¬ 0xDC00 ≤ n := by omega
    have hhigh : ¬ 0xD800 ≤ n := by omega
    rw [lexed_cons]
    simp [Lexer.next, hexValue?_hexChar (Nat.mod_lt n (by decide)), hvalue, endUnit, isLowHalf, hlow,
      hhigh, settle]
  have hbackslash : lexed (.string out none) (escapeUnit n ++ cs) =
      lexed (.unit out none 4 0) (Text.hexChar 0 :: Text.hexChar 0 :: Text.hexChar (n / 16) ::
        Text.hexChar (n % 16) :: cs) := by
    rw [hdigits]
    exact (lexed_cons _ _ _).trans (lexed_cons _ _ _)
  rw [hbackslash, lexed_unit (by decide) _ _ _ _ (by decide),
    lexed_unit (by decide) _ _ _ _ (by decide),
    lexed_unit (show n / 16 < 16 by omega) _ _ _ _ (by decide)]
  simpa using hlast

/-- A character is written by a letter after a backslash, by its number, or as it is. -/
theorem escapeChar_cases (c : Char) :
    (∃ e, escapeChar false c = ['\\', e] ∧ escaped? e = some c ∧ e ≠ 'u') ∨
    (c.toNat < 0x20 ∧ escapeChar false c = escapeUnit c.toNat) ∨
    (c ≠ '"' ∧ c ≠ '\\' ∧ ¬ c.toNat < 0x20 ∧ escapeChar false c = [c]) := by
  by_cases hletter : c ∈ ['"', '\\', '\n', '\r', '\t', Char.ofNat 8, Char.ofNat 12]
  · left
    simp only [List.mem_cons, List.not_mem_nil, or_false] at hletter
    rcases hletter with rfl | rfl | rfl | rfl | rfl | rfl | rfl
    all_goals exact ⟨_, rfl, rfl, by decide⟩
  · right
    have hne {n : Nat} (hn : c ≠ Char.ofNat n) : c.toNat ≠ n := by
      rintro rfl
      exact hn (Char.ofNat_toNat c).symm
    simp only [List.mem_cons, List.not_mem_nil, or_false, not_or] at hletter
    obtain ⟨hquote, hbackslash, hlf, hcr, htab, h8, h12⟩ := hletter
    by_cases hcontrol : c.toNat < 0x20
    · left
      simp [escapeChar, hquote, hbackslash, hlf, hcr, htab, hne h8, hne h12, hcontrol]
    · right
      simp [escapeChar, hquote, hbackslash, hlf, hcr, htab, hne h8, hne h12, hcontrol]

theorem lexed_escapeChar (c : Char) (out cs : List Char) :
    lexed (.string out none) (escapeChar false c ++ cs) = lexed (.string (c :: out) none) cs := by
  rcases escapeChar_cases c with ⟨e, heq, he, hu⟩ | ⟨hcontrol, heq⟩ | ⟨hquote, hbackslash, h, heq⟩
  · rw [heq]
    refine (lexed_cons _ _ _).trans ?_
    refine (lexed_cons _ _ _).trans ?_
    simp [Lexer.next, he, hu, settle]
  · rw [heq, lexed_escapeUnit hcontrol, Char.ofNat_toNat]
  · rw [heq]
    refine (lexed_cons _ _ _).trans ?_
    simp [Lexer.next, hquote, hbackslash, h, settle]

theorem lexed_writeString (s : String) (cs : List Char) :
    lexed .between (writeString false s ++ cs) = .str s :: lexed .between cs := by
  have hbody : ∀ (l out : List Char),
      lexed (.string out none) (l.flatMap (escapeChar false) ++ '"' :: cs) =
        .str (String.ofList (out.reverse ++ l)) :: lexed .between cs := by
    intro l
    induction l with
    | nil =>
      intro out
      refine (lexed_cons _ _ _).trans ?_
      simp [Lexer.next, settle]
    | cons c l ih =>
      intro out
      rw [List.flatMap_cons, List.append_assoc, lexed_escapeChar, ih]
      simp
  have hstart : lexed .between (writeString false s ++ cs) =
      lexed (.string [] none) (s.toList.flatMap (escapeChar false) ++ '"' :: cs) := by
    rw [writeString, List.cons_append, List.cons_append, List.append_assoc]
    exact lexed_cons _ _ _
  rw [hstart, hbody s.toList []]
  simp

/-! ### Numbers and words -/

/-- The text goes on with what stands after a value. -/
def Breaks (cs : List Char) : Prop := ∀ c ∈ cs.head?, c = ',' ∨ c = '\n'

theorem lexed_number_break {run cs : List Char} (h : Breaks cs) :
    lexed (.number run) cs = numberTokens run.reverse ++ lexed .between cs := by
  cases cs with
  | nil => exact (List.append_nil _).symm
  | cons c cs =>
    have hbegin : Lexer.next ⟨.number run, []⟩ c =
        Lexer.begin ((numberTokens run.reverse).reverse ++ []) c := by
      rcases h c rfl with rfl | rfl <;> rfl
    rw [lexed_cons, lexed_cons, hbegin, List.append_nil]
    have happend := begin_append [] (numberTokens run.reverse).reverse c
    rw [List.nil_append] at happend
    rw [happend]
    simp [Lexer.next]

theorem lexed_word_break {run cs : List Char} (h : Breaks cs) :
    lexed (.word run) cs = wordToken (String.ofList run.reverse) :: lexed .between cs := by
  cases cs with
  | nil => rfl
  | cons c cs =>
    have hbegin : Lexer.next ⟨.word run, []⟩ c =
        Lexer.begin ([] ++ [wordToken (String.ofList run.reverse)]) c := by
      rcases h c rfl with rfl | rfl <;> rfl
    rw [lexed_cons, lexed_cons, hbegin, begin_append]
    simp [Lexer.next]

theorem isAsciiDigit_of_isDecimal {c : Char} (h : Text.IsDecimal c) : isAsciiDigit c = true :=
  h.of_forall (P := fun c => isAsciiDigit c = true) (by decide)

theorem lexed_number_digits {ds : List Char} (h : ∀ c ∈ ds, Text.IsDecimal c)
    (run cs : List Char) :
    lexed (.number run) (ds ++ cs) = lexed (.number (ds.reverse ++ run)) cs := by
  induction ds generalizing run with
  | nil => rfl
  | cons c ds ih =>
    have hc := isAsciiDigit_of_isDecimal (h c List.mem_cons_self)
    rw [List.cons_append, lexed_cons]
    simp only [Lexer.next, isNumberChar, hc, Bool.true_or, if_true, List.reverse_nil,
      List.nil_append]
    rw [ih (fun d hd => h d (List.mem_cons_of_mem _ hd))]
    simp

theorem lexed_number_start {c : Char} (h : c = '-' ∨ Text.IsDecimal c) (cs : List Char) :
    lexed .between (c :: cs) = lexed (.number [c]) cs := by
  have hnext : Lexer.next ⟨.between, []⟩ c = ⟨.number [c], []⟩ := by
    rcases h with rfl | h
    · rfl
    · apply h.of_forall (P := fun c => Lexer.next ⟨.between, []⟩ c = ⟨.number [c], []⟩)
      intro d hd
      interval_cases d <;> rfl
  rw [lexed_cons, hnext]
  rfl

theorem wholePart_decimal (n : Nat) : wholePart (Text.decimal n) = (Text.decimal n, []) := by
  have hdigits : ∀ c ∈ Text.decimal n, isAsciiDigit c = true := fun c hc =>
    isAsciiDigit_of_isDecimal (Text.isDecimal_of_mem_decimal hc)
  unfold wholePart
  split
  · rename_i cs h
    obtain rfl := Text.eq_zero_of_decimal_eq_cons h
    have hzero : Text.decimal 0 = ['0'] := by rw [Text.decimal]; rfl
    rw [hzero] at h ⊢
    rw [← (List.cons.inj h).2]
  · rw [List.takeWhile_eq_self_iff.mpr hdigits, List.dropWhile_eq_nil_iff.mpr hdigits]

theorem decimal_ne_minus (n : Nat) (cs : List Char) : Text.decimal n ≠ '-' :: cs := by
  intro h
  have hminus : Text.IsDecimal '-' := Text.isDecimal_of_mem_decimal (h ▸ List.mem_cons_self)
  exact hminus.of_forall (P := fun c => c ≠ '-') (by decide) rfl

theorem numberTokens_decimalInt {n : Int} (h : Text.IsShort n) :
    numberTokens (Text.decimalInt n) = [.scalar (.int n)] := by
  have hcount : ¬ Text.maxDigits < (Text.decimal n.natAbs).length := Nat.not_lt.mpr h
  have hvalue : asciiValue (Text.decimal n.natAbs) = n.natAbs := Text.ofDigits_decimal _
  unfold numberTokens
  split
  rename_i negative body hsign
  obtain ⟨rfl, hn⟩ : body = Text.decimal n.natAbs ∧ Text.signed negative n.natAbs = n := by
    cases n with
    | ofNat n =>
      split at hsign
      · exact absurd ‹_› (decimal_ne_minus n _)
      · cases hsign
        exact ⟨rfl, rfl⟩
    | negSucc n =>
      cases hsign
      exact ⟨rfl, rfl⟩
  simp [wholePart_decimal, Text.decimal_ne_nil, fractionPart, exponentPart, hcount, hvalue, hn]

theorem lexed_decimalInt {n : Int} (h : Text.IsShort n)
    {cs : List Char} (hcs : Breaks cs) :
    lexed .between (Text.decimalInt n ++ cs) = .scalar (.int n) :: lexed .between cs := by
  obtain ⟨c, ds, hc, hds, heq⟩ : ∃ c ds, (c = '-' ∨ Text.IsDecimal c) ∧
      (∀ d ∈ ds, Text.IsDecimal d) ∧ Text.decimalInt n = c :: ds := by
    cases n with
    | ofNat n =>
      have hdigits : ∀ c ∈ Text.decimal n, Text.IsDecimal c := fun c =>
        Text.isDecimal_of_mem_decimal
      cases hn : Text.decimal n with
      | nil => exact absurd hn (Text.decimal_ne_nil n)
      | cons c ds =>
        rw [hn] at hdigits
        exact ⟨c, ds, .inr (hdigits c List.mem_cons_self),
          fun d hd => hdigits d (List.mem_cons_of_mem _ hd), hn⟩
    | negSucc n =>
      exact ⟨'-', Text.decimal (n + 1), .inl rfl, fun d => Text.isDecimal_of_mem_decimal, rfl⟩
  have hrun : (ds.reverse ++ [c]).reverse = Text.decimalInt n := by simp [heq]
  rw [heq, List.cons_append, lexed_number_start hc, lexed_number_digits hds,
    lexed_number_break hcs, hrun, numberTokens_decimalInt h]
  rfl

/-! ### Values -/

theorem breaks_newline (depth : Nat) (cs : List Char) :
    Breaks (Layout.indented.newline depth ++ cs) := by
  intro c hc
  exact .inr (Option.some.inj hc).symm

theorem breaks_writeItems (depth : Nat) (vs : List Json) {cs : List Char} (h : Breaks cs) :
    Breaks (writeItems .indented depth vs ++ cs) := by
  cases vs with
  | nil => rwa [writeItems]
  | cons v vs =>
    intro c hc
    exact .inl (Option.some.inj hc).symm

theorem breaks_writeFields (depth : Nat) (fs : List (String × Json)) {cs : List Char}
    (h : Breaks cs) : Breaks (writeFields .indented depth fs ++ cs) := by
  cases fs with
  | nil => rwa [writeFields]
  | cons p fs =>
    intro c hc
    exact .inl (Option.some.inj hc).symm

theorem lexed_writeItems {vs : List Json} {depth : Nat}
    (ih : ∀ v ∈ vs, ∀ cs, Breaks cs →
      lexed .between (write .indented depth v ++ cs) = tokensOf v ++ lexed .between cs)
    {cs : List Char} (hcs : Breaks cs) :
    lexed .between (writeItems .indented depth vs ++ cs) =
      itemTokens vs ++ lexed .between cs := by
  induction vs with
  | nil => rfl
  | cons v vs ihvs =>
    have hrest := ihvs fun w hw => ih w (List.mem_cons_of_mem _ hw)
    have hv := ih v List.mem_cons_self _ (breaks_writeItems depth vs hcs)
    have hsplit : writeItems .indented depth (v :: vs) ++ cs =
        ',' :: (Layout.indented.newline depth ++
          (write .indented depth v ++ (writeItems .indented depth vs ++ cs))) := by
      simp [writeItems, Layout.indented]
    rw [hsplit, lexed_comma, lexed_newline, hv, hrest, itemTokens]
    simp

theorem lexed_writeFields {fs : List (String × Json)} {depth : Nat}
    (ih : ∀ p ∈ fs, ∀ cs, Breaks cs →
      lexed .between (write .indented depth p.2 ++ cs) = tokensOf p.2 ++ lexed .between cs)
    {cs : List Char} (hcs : Breaks cs) :
    lexed .between (writeFields .indented depth fs ++ cs) =
      memberTokens fs ++ lexed .between cs := by
  induction fs with
  | nil => rfl
  | cons p fs ihfs =>
    obtain ⟨k, v⟩ := p
    have hrest := ihfs fun q hq => ih q (List.mem_cons_of_mem _ hq)
    have hv := ih (k, v) List.mem_cons_self _ (breaks_writeFields depth fs hcs)
    have hsplit : writeFields .indented depth ((k, v) :: fs) ++ cs =
        ',' :: (Layout.indented.newline depth ++ (writeString false k ++ (':' :: ' ' ::
          (write .indented depth v ++ (writeFields .indented depth fs ++ cs))))) := by
      simp [writeFields, Layout.indented]
    rw [hsplit, lexed_comma, lexed_newline, lexed_writeString, lexed_colon, hv, hrest,
      memberTokens]
    simp

/-- The written form of a value has its tokens. -/
theorem lexed_write {room : Nat} {v : Json} (h : IsExact room v) (depth : Nat) {cs : List Char}
    (hcs : Breaks cs) :
    lexed .between (write .indented depth v ++ cs) = tokensOf v ++ lexed .between cs := by
  induction h generalizing depth cs with
  | null => exact lexed_word_break hcs
  | bool b => cases b <;> exact lexed_word_break hcs
  | int h => exact lexed_decimalInt h hcs
  | str s => exact lexed_writeString s cs
  | @arr room items h ih =>
    cases items with
    | nil => exact (lexed_open_arr _).trans (congrArg _ (lexed_close_arr _))
    | cons v vs =>
      have hend := breaks_newline depth (']' :: cs)
      have hv := ih v List.mem_cons_self (depth + 1) (breaks_writeItems (depth + 1) vs hend)
      have hvs := lexed_writeItems
        (fun w hw _ => ih w (List.mem_cons_of_mem _ hw) (depth + 1)) hend
      have hsplit : write .indented depth (.arr (v :: vs)) ++ cs =
          '[' :: (Layout.indented.newline (depth + 1) ++ (write .indented (depth + 1) v ++
            (writeItems .indented (depth + 1) vs ++
              (Layout.indented.newline depth ++ ']' :: cs)))) := by
        simp [write]
      rw [hsplit, lexed_open_arr, lexed_newline, hv, hvs, lexed_newline, lexed_close_arr, tokensOf]
      simp
  | @obj room fields _ h ih =>
    cases fields with
    | nil => exact (lexed_open_obj _).trans (congrArg _ (lexed_close_obj _))
    | cons p fs =>
      obtain ⟨k, v⟩ := p
      have hend := breaks_newline depth ('}' :: cs)
      have hv := ih (k, v) List.mem_cons_self (depth + 1) (breaks_writeFields (depth + 1) fs hend)
      have hfs := lexed_writeFields
        (fun q hq _ => ih q (List.mem_cons_of_mem _ hq) (depth + 1)) hend
      have hsplit : write .indented depth (.obj ((k, v) :: fs)) ++ cs =
          '{' :: (Layout.indented.newline (depth + 1) ++ (writeString false k ++ (':' :: ' ' ::
            (write .indented (depth + 1) v ++ (writeFields .indented (depth + 1) fs ++
              (Layout.indented.newline depth ++ '}' :: cs)))))) := by
        simp [write, Layout.indented]
      rw [hsplit, lexed_open_obj, lexed_newline, lexed_writeString, lexed_colon, hv, hfs,
        lexed_newline, lexed_close_obj, tokensOf]
      simp

theorem tokens_write {room : Nat} {v : Json} (h : IsExact room v) (depth : Nat) {cs : List Char}
    (hcs : Breaks cs) :
    tokens (write .indented depth v ++ cs) = tokensOf v ++ tokens cs :=
  lexed_write h depth hcs

/-! ### The reader -/

variable {limit : Nat}

/-- A value does not begin with the end of an array. -/
theorem next_itemOrEnd (v : Json) (stack : List Frame) :
    ∃ t ts, tokensOf v = t :: ts ∧
      Reader.next limit ⟨stack, .itemOrEnd⟩ t = Reader.next limit ⟨stack, .value⟩ t := by
  cases v with
  | arr items =>
    cases items with
    | nil => exact ⟨_, _, rfl, rfl⟩
    | cons v vs => exact ⟨_, _, rfl, rfl⟩
  | obj fields =>
    cases fields with
    | nil => exact ⟨_, _, rfl, rfl⟩
    | cons p fs => exact ⟨_, _, rfl, rfl⟩
  | _ => exact ⟨_, _, rfl, rfl⟩

theorem foldlM_itemOrEnd (v : Json) (stack : List Frame) (ts : List Token) :
    (tokensOf v ++ ts).foldlM (Reader.next limit) ⟨stack, .itemOrEnd⟩ =
      (tokensOf v ++ ts).foldlM (Reader.next limit) ⟨stack, .value⟩ := by
  obtain ⟨t, rest, htokens, hnext⟩ := next_itemOrEnd v stack
  rw [htokens, List.cons_append, List.foldlM_cons, List.foldlM_cons, hnext]

/-- A container begins where there is room for it. -/
theorem foldlM_opening {stack : List Frame} {before after : Expect} {t : Token} {frame : Frame}
    (hnext : Reader.next limit ⟨stack, before⟩ t = Reader.opening limit stack frame after)
    (h : stack.length < limit) (ts : List Token) :
    (t :: ts).foldlM (Reader.next limit) ⟨stack, before⟩ =
      ts.foldlM (Reader.next limit) ⟨frame :: stack, after⟩ := by
  rw [List.foldlM_cons, hnext, Reader.opening, if_pos h, ok_bind]

/-- A reader that expects a value takes the tokens of one, if that much room is left. -/
def Takes (limit room : Nat) (v : Json) : Prop := ∀ (stack : List Frame) (ts : List Token),
  stack.length + room ≤ limit →
    (tokensOf v ++ ts).foldlM (Reader.next limit) ⟨stack, .value⟩ =
      ts.foldlM (Reader.next limit) ⟨stack, .after v⟩

theorem foldlM_itemTokens {room : Nat} {vs : List Json} (ih : ∀ v ∈ vs, Takes limit room v)
    (v : Json) (done : List Json) {stack : List Frame} (hroom : stack.length + 1 + room ≤ limit)
    (ts : List Token) :
    (itemTokens vs ++ .closeArr :: ts).foldlM (Reader.next limit)
        ⟨.items done :: stack, .after v⟩ =
      ts.foldlM (Reader.next limit) ⟨stack, .after (.arr (done.reverse ++ v :: vs))⟩ := by
  induction vs generalizing v done with
  | nil =>
    have hend : (done.reverse ++ [v]) = (v :: done).reverse := by simp
    rw [hend]
    rfl
  | cons w vs ihvs =>
    have hrest := ihvs (fun x hx => ih x (List.mem_cons_of_mem _ hx)) w (v :: done)
    rw [itemTokens, List.cons_append, List.append_assoc]
    refine (ih w List.mem_cons_self (.items (v :: done) :: stack) _ hroom).trans ?_
    rw [hrest]
    simp

theorem set_of_nodup {k : String} {v : Json} {done fs : List (String × Json)}
    (h : (Table.keys (done ++ (k, v) :: fs)).Nodup) : Table.set k v done = done ++ [(k, v)] := by
  apply Table.set_of_not_mem
  intro hmem
  rw [Table.keys, List.map_append] at h
  exact (List.nodup_append.mp h).2.2 k hmem k (by simp) rfl

theorem foldlM_memberTokens {room : Nat} {fs : List (String × Json)}
    (ih : ∀ p ∈ fs, Takes limit room p.2) (k : String) (v : Json) (done : List (String × Json))
    (hkeys : (Table.keys (done ++ (k, v) :: fs)).Nodup) {stack : List Frame}
    (hroom : stack.length + 1 + room ≤ limit) (ts : List Token) :
    (memberTokens fs ++ .closeObj :: ts).foldlM (Reader.next limit)
        ⟨.member done k :: stack, .after v⟩ =
      ts.foldlM (Reader.next limit) ⟨stack, .after (.obj (done ++ (k, v) :: fs))⟩ := by
  induction fs generalizing k v done with
  | nil =>
    rw [← set_of_nodup hkeys]
    rfl
  | cons q fs ihfs =>
    obtain ⟨k', v'⟩ := q
    have hsplit : done ++ (k, v) :: (k', v') :: fs = (done ++ [(k, v)]) ++ (k', v') :: fs := by
      simp
    have hrest := ihfs (fun p hp => ih p (List.mem_cons_of_mem _ hp)) k' v' (done ++ [(k, v)])
      (hsplit ▸ hkeys)
    rw [hsplit, ← hrest, ← set_of_nodup hkeys, memberTokens, List.cons_append, List.cons_append,
      List.cons_append, List.append_assoc]
    exact ih (k', v') List.mem_cons_self (.member (Table.set k v done) k' :: stack) _ hroom

theorem takes_of_isExact {room : Nat} {v : Json} (h : IsExact room v) : Takes limit room v := by
  induction h with
  | null => intro stack ts _; rfl
  | bool b => intro stack ts _; rfl
  | int h => intro stack ts _; rfl
  | str s => intro stack ts _; rfl
  | @arr room items h ih =>
    intro stack ts hroom
    have hopen : stack.length < limit := by omega
    have hinside : stack.length + 1 + room ≤ limit := by omega
    have hbegin := @foldlM_opening limit stack .value .itemOrEnd .openArr (.items []) rfl hopen
    cases items with
    | nil => exact hbegin (.closeArr :: ts)
    | cons v vs =>
      have hvs := foldlM_itemTokens (fun w hw => ih w (List.mem_cons_of_mem _ hw)) v [] hinside ts
      have hv := ih v List.mem_cons_self (.items [] :: stack) (itemTokens vs ++ .closeArr :: ts)
        hinside
      rw [tokensOf, List.cons_append, List.append_assoc, List.append_assoc]
      exact (hbegin _).trans ((foldlM_itemOrEnd v _ _).trans (hv.trans hvs))
  | @obj room fields hkeys h ih =>
    intro stack ts hroom
    have hopen : stack.length < limit := by omega
    have hinside : stack.length + 1 + room ≤ limit := by omega
    have hbegin := @foldlM_opening limit stack .value .keyOrEnd .openObj (.members []) rfl hopen
    cases fields with
    | nil => exact hbegin (.closeObj :: ts)
    | cons p fs =>
      obtain ⟨k, v⟩ := p
      have hfs := foldlM_memberTokens (fun q hq => ih q (List.mem_cons_of_mem _ hq)) k v [] hkeys
        hinside ts
      have hv := ih (k, v) List.mem_cons_self (.member [] k :: stack)
        (memberTokens fs ++ .closeObj :: ts) hinside
      rw [tokensOf, List.cons_append, List.cons_append, List.cons_append, List.append_assoc,
        List.append_assoc]
      exact (hbegin _).trans (hv.trans hfs)

theorem ofTokens_tokensOf {room : Nat} {v : Json} (h : IsExact room v) (hroom : room ≤ limit) :
    ofTokens limit (tokensOf v) = .ok v := by
  have htakes := takes_of_isExact h [] [] ((Nat.zero_add room).trans_le hroom)
  rw [List.append_nil] at htakes
  rw [ofTokens, Reader.start, htakes]
  rfl

/-- A value on lines of its own is read as the value. -/
theorem readWithin_write {room : Nat} {v : Json} (h : IsExact room v) (hroom : room ≤ limit)
    (depth : Nat) : readWithin limit (write .indented depth v ++ ['\n']) = .ok v := by
  have hend : tokens ['\n'] = [] := rfl
  rw [readWithin, tokens_write h depth (by simp [Breaks]), hend, List.append_nil,
    ofTokens_tokensOf h hroom]

/-! ### Nesting without bound -/

/-- When more arrays begin than there is room for, it does not matter what comes after them. -/
theorem foldlM_replicate_openArr (more : Nat) {stack : List Frame} {expect : Expect}
    (hexpect : expect = .value ∨ expect = .itemOrEnd) (hstack : stack.length ≤ limit)
    (h : limit < stack.length + more) (ts : List Token) :
    (List.replicate more Token.openArr ++ ts).foldlM (Reader.next limit) ⟨stack, expect⟩ =
      .error .tooDeep := by
  induction more generalizing stack expect with
  | zero => omega
  | succ more ih =>
    have hnext : Reader.next limit ⟨stack, expect⟩ .openArr =
        Reader.opening limit stack (.items []) .itemOrEnd := by
      rcases hexpect with rfl | rfl <;> rfl
    rw [List.replicate_succ, List.cons_append]
    by_cases hroom : stack.length < limit
    · rw [foldlM_opening hnext hroom]
      refine ih (.inr rfl) hroom ?_
      rw [List.length_cons]
      omega
    · rw [List.foldlM_cons, hnext, Reader.opening, if_neg hroom]
      rfl

theorem lexed_replicate_open (n : Nat) (cs : List Char) :
    lexed .between (List.replicate n '[' ++ cs) =
      List.replicate n .openArr ++ lexed .between cs := by
  induction n with
  | zero => rfl
  | succ n ih =>
    rw [List.replicate_succ, List.cons_append, lexed_open_arr, ih]
    rfl

theorem readWithin_replicate_open (limit : Nat) (cs : List Char) :
    readWithin limit (List.replicate (limit + 1) '[' ++ cs) = .error .tooDeep := by
  have htokens : tokens (List.replicate (limit + 1) '[' ++ cs) =
      List.replicate (limit + 1) .openArr ++ lexed .between cs := lexed_replicate_open _ cs
  have hrun := @foldlM_replicate_openArr limit (limit + 1) [] .value (.inl rfl) (Nat.zero_le limit)
    (Nat.lt_add_left 0 (Nat.lt_succ_self limit)) (lexed .between cs)
  rw [readWithin, htokens, ofTokens, Reader.start, hrun]
  rfl

/-! ### Pieces of a text -/

/-- Texts that are put together from marks, words, line breaks, numbers and strings. -/
inductive IsPrinted : List Char → Prop where
  | nil : IsPrinted []
  | mark {c : Char} (h : c ∈ ['[', ']', '{', '}', ',', ':', ' ']) : IsPrinted [c]
  | word {w : String} (h : w ∈ ["null", "true", "false"]) : IsPrinted w.toList
  | newline (depth : Nat) : IsPrinted (Layout.indented.newline depth)
  | int (n : Int) : IsPrinted (Text.decimalInt n)
  | str (s : String) : IsPrinted (writeString false s)
  | append {a b : List Char} (ha : IsPrinted a) (hb : IsPrinted b) : IsPrinted (a ++ b)

theorem isPrinted_comma : IsPrinted Layout.indented.comma := .mark (by decide)

theorem isPrinted_colon : IsPrinted Layout.indented.colon :=
  .append (a := [':']) (.mark (by decide)) (.mark (by decide))

theorem isPrinted_writeItems {vs : List Json} {depth : Nat}
    (ih : ∀ v ∈ vs, IsPrinted (write .indented depth v)) :
    IsPrinted (writeItems .indented depth vs) := by
  induction vs with
  | nil => exact .nil
  | cons v vs ihvs =>
    have hrest := ihvs fun w hw => ih w (List.mem_cons_of_mem _ hw)
    rw [writeItems]
    exact ((isPrinted_comma.append (.newline depth)).append (ih v List.mem_cons_self)).append hrest

theorem isPrinted_writeFields {fs : List (String × Json)} {depth : Nat}
    (ih : ∀ p ∈ fs, IsPrinted (write .indented depth p.2)) :
    IsPrinted (writeFields .indented depth fs) := by
  induction fs with
  | nil => exact .nil
  | cons p fs ihfs =>
    have hrest := ihfs fun q hq => ih q (List.mem_cons_of_mem _ hq)
    have hkey := (isPrinted_comma.append (.newline depth)).append (.str p.1)
    rw [writeFields]
    exact ((hkey.append isPrinted_colon).append (ih p List.mem_cons_self)).append hrest

/-- The text of a value is put together from such pieces. -/
theorem isPrinted_write {room : Nat} {v : Json} (h : IsExact room v) (depth : Nat) :
    IsPrinted (write .indented depth v) := by
  induction h generalizing depth with
  | null => exact .word (w := "null") (by decide)
  | bool b =>
    cases b with
    | false => exact .word (w := "false") (by decide)
    | true => exact .word (w := "true") (by decide)
  | @int room n h => exact .int n
  | str s => exact .str s
  | @arr room items h ih =>
    cases items with
    | nil => exact .append (a := ['[']) (.mark (by decide)) (.mark (by decide))
    | cons v vs =>
      have hv := ih v List.mem_cons_self (depth + 1)
      have hvs := isPrinted_writeItems fun w hw => ih w (List.mem_cons_of_mem _ hw) (depth + 1)
      have hopen : IsPrinted ('[' :: Layout.indented.newline (depth + 1)) :=
        .append (a := ['[']) (.mark (by decide)) (.newline _)
      rw [write]
      exact ((hopen.append hv).append hvs).append (.newline depth) |>.append (.mark (by decide))
  | @obj room fields _ h ih =>
    cases fields with
    | nil => exact .append (a := ['{']) (.mark (by decide)) (.mark (by decide))
    | cons p fs =>
      obtain ⟨k, v⟩ := p
      have hv := ih (k, v) List.mem_cons_self (depth + 1)
      have hfs := isPrinted_writeFields fun q hq => ih q (List.mem_cons_of_mem _ hq) (depth + 1)
      have hopen : IsPrinted ('{' :: Layout.indented.newline (depth + 1)) :=
        .append (a := ['{']) (.mark (by decide)) (.newline _)
      have hkey := (hopen.append (.str k)).append isPrinted_colon
      rw [write]
      exact ((hkey.append hv).append hfs).append (.newline depth) |>.append (.mark (by decide))

/-! ### Line ends -/

theorem exists_hexChar_of_mem {width n : Nat} {c : Char} (h : c ∈ Text.hexDigits width n) :
    ∃ d < 16, c = Text.hexChar d := by
  induction width generalizing n with
  | zero => simp [Text.hexDigits] at h
  | succ width ih =>
    rcases List.mem_append.mp h with h | h
    · exact ih h
    · exact ⟨n % 16, Nat.mod_lt _ (by decide), List.mem_singleton.mp h⟩

/-- A string holds no control character as it is. -/
theorem not_mem_writeString {c : Char} (hc : c.toNat < 0x20) (s : String) :
    c ∉ writeString false s := by
  have hne : ∀ {d : Char}, 0x20 ≤ d.toNat → c ≠ d := by
    rintro d hd rfl
    omega
  have hquote : c ≠ '"' := hne (by decide)
  have hbackslash : c ≠ '\\' := hne (by decide)
  have hchar : ∀ d, c ∉ escapeChar false d := by
    intro d
    rcases escapeChar_cases d with ⟨e, heq, he, _⟩ | ⟨_, heq⟩ | ⟨_, _, h, heq⟩
    · have hescaped : c ≠ e := by
        rintro rfl
        have hnone : escaped? c = none := by
          simp [escaped?, hquote, hbackslash, hne (d := '/') (by decide),
            hne (d := 'n') (by decide), hne (d := 'r') (by decide), hne (d := 't') (by decide),
            hne (d := 'b') (by decide), hne (d := 'f') (by decide)]
        rw [hnone] at he
        cases he
      simp [heq, hbackslash, hescaped]
    · have hdigits : c ∉ Text.hexDigits 4 d.toNat := by
        intro hmem
        obtain ⟨n, hn, rfl⟩ := exists_hexChar_of_mem hmem
        have hall : ∀ n < 16, 0x20 ≤ (Text.hexChar n).toNat := by decide
        exact hne (hall n hn) rfl
      simp [heq, escapeUnit, hbackslash, hne (d := 'u') (by decide), hdigits]
    · have hsame : c ≠ d := hne (Nat.not_lt.mp h)
      simp [heq, hsame]
  simp [writeString, hquote, hchar]

theorem IsPrinted.not_mem {cs : List Char} (h : IsPrinted cs) : '\r' ∉ cs := by
  induction h with
  | nil => exact List.not_mem_nil
  | mark h =>
    intro hmem
    obtain rfl := List.mem_singleton.mp hmem
    exact absurd h (by decide)
  | word h =>
    simp only [List.mem_cons, List.not_mem_nil, or_false] at h
    rcases h with rfl | rfl | rfl <;> decide
  | newline depth => simp [Layout.newline, Layout.indented]
  | int n =>
    intro hmem
    exact Text.forall_mem_decimalInt (P := fun c => c ≠ '\r') (by decide) (by decide) n _ hmem rfl
  | str s => exact not_mem_writeString (by decide) s
  | append _ _ iha ihb => exact fun hmem => (List.mem_append.mp hmem).elim iha ihb

/-- What is written has no carriage return, so reading it as a text file changes nothing. -/
theorem not_mem_write {room : Nat} {v : Json} (h : IsExact room v) (depth : Nat) :
    '\r' ∉ write .indented depth v :=
  (isPrinted_write h depth).not_mem

theorem exists_write_obj (depth : Nat) (fields : List (String × Json)) :
    ∃ cs, write .indented depth (.obj fields) = cs ++ ['}'] := by
  cases fields with
  | nil => exact ⟨['{'], rfl⟩
  | cons p fs =>
    obtain ⟨k, v⟩ := p
    rw [write]
    exact ⟨_, rfl⟩

end Marginalia.Json
