/-
  Marginalia/Json/Token.lean
  ==========================
  **Tokens of JSON text.**  A lexer that takes one character at a time, so that
  tokens of a text are a fold over its characters.  What cannot start or finish a
  token becomes the token `bad`; a whole number with too many digits becomes
  `huge`, so that the reader can tell which of two faults comes first.

  Strings are made of characters, and half of a surrogate pair is none.  Where an
  escape gives one half without the other, the replacement character stands for it;
  `IsPaired` says of a text that this happens nowhere.
-/
import Marginalia.Json.Basic
import Marginalia.Text.Digit

namespace Marginalia.Json

/-- A token of JSON text. -/
inductive Token where
  | openArr
  | closeArr
  | openObj
  | closeObj
  | comma
  | colon
  /-- A number or one of the literal words. -/
  | scalar (v : Json)
  | str (s : String)
  /-- A whole number with more digits than are converted. -/
  | huge (digits : Nat)
  | bad

/-! ### Numbers and words -/

/-- ASCII decimal digits, the only ones in JSON numbers. -/
def isAsciiDigit (c : Char) : Bool := '0' ≤ c && c ≤ '9'

/-- The value of a run of ASCII digits. -/
def asciiValue (ds : List Char) : Nat := Text.ofDigits (ds.map fun c => c.toNat - 0x30)

/-- The digits before the point: a zero alone, or digits that start with another one. -/
def wholePart : List Char → List Char × List Char
  | '0' :: cs => (['0'], cs)
  | cs => (cs.takeWhile isAsciiDigit, cs.dropWhile isAsciiDigit)

/-- The digits after a point, if at least one stands there. -/
def fractionPart : List Char → List Char × List Char
  | '.' :: cs =>
    let ds := cs.takeWhile isAsciiDigit
    if ds.isEmpty then ([], '.' :: cs) else (ds, cs.dropWhile isAsciiDigit)
  | cs => ([], cs)

/-- The exponent, if its mark is followed by at least one digit. -/
def exponentPart : List Char → Option Int × List Char
  | c :: cs =>
    if c = 'e' || c = 'E' then
      let (negative, body) := Text.readSign cs
      let ds := body.takeWhile isAsciiDigit
      if ds.isEmpty then (none, c :: cs)
      else (some (Text.signed negative (asciiValue ds)), body.dropWhile isAsciiDigit)
    else (none, c :: cs)
  | [] => (none, [])

/-- The tokens of a run of number characters: the number it starts with, and `bad` when
characters are left over. -/
def numberTokens (run : List Char) : List Token :=
  let (negative, body) := match run with
    | '-' :: cs => (true, cs)
    | cs => (false, cs)
  let (whole, rest) := wholePart body
  if whole.isEmpty then [.bad]
  else
    let (fraction, rest) := fractionPart rest
    let (exponent, rest) := exponentPart rest
    let number :=
      if fraction.isEmpty && exponent.isNone then
        if Text.maxDigits < whole.length then .huge whole.length
        else .scalar (.int (Text.signed negative (asciiValue whole)))
      else
        .scalar (.float (Binary64.ofDecimal negative (asciiValue (whole ++ fraction))
          (exponent.getD 0 - fraction.length)))
    if rest.isEmpty then [number] else [number, .bad]

/-- The token of a run of letters. -/
def wordToken (word : String) : Token :=
  if word = "null" then .scalar .null
  else if word = "true" then .scalar (.bool true)
  else if word = "false" then .scalar (.bool false)
  else if word = "NaN" then .scalar (.float .nan)
  else if word = "Infinity" then .scalar (.float (.infinite false))
  else if word = "-Infinity" then .scalar (.float (.infinite true))
  else .bad

/-! ### The lexer -/

/-- Where the lexer stands; collected characters come last one first. -/
inductive Mode where
  | between
  | number (run : List Char)
  | word (run : List Char)
  /-- Inside a string; `high` is the first half of a surrogate pair just read. -/
  | string (out : List Char) (high : Option Nat)
  /-- After a backslash. -/
  | escape (out : List Char) (high : Option Nat)
  /-- Inside a four-digit escape: digits owed and the value so far. -/
  | unit (out : List Char) (high : Option Nat) (owed value : Nat)

/-- The lexer: its mode, and the tokens so far, last one first. -/
structure Lexer where
  mode : Mode
  tokens : List Token

/-- A lexer at the start of a text. -/
def Lexer.start : Lexer := ⟨.between, []⟩

/-- The characters that numbers are made of. -/
def isNumberChar (c : Char) : Bool :=
  isAsciiDigit c || c = '+' || c = '-' || c = '.' || c = 'e' || c = 'E'

/-- A character between tokens. -/
def Lexer.begin (tokens : List Token) (c : Char) : Lexer :=
  if c = ' ' || c = '\n' || c = '\t' || c = '\r' then ⟨.between, tokens⟩
  else if c = '[' then ⟨.between, .openArr :: tokens⟩
  else if c = ']' then ⟨.between, .closeArr :: tokens⟩
  else if c = '{' then ⟨.between, .openObj :: tokens⟩
  else if c = '}' then ⟨.between, .closeObj :: tokens⟩
  else if c = ',' then ⟨.between, .comma :: tokens⟩
  else if c = ':' then ⟨.between, .colon :: tokens⟩
  else if c = '"' then ⟨.string [] none, tokens⟩
  else if c = '-' || isAsciiDigit c then ⟨.number [c], tokens⟩
  else if c.isAlpha then ⟨.word [c], tokens⟩
  else ⟨.between, .bad :: tokens⟩

/-- The second half of a surrogate pair. -/
def isLowHalf (n : Nat) : Bool := 0xDC00 ≤ n && n ≤ 0xDFFF

/-- The character that stands for half of a surrogate pair without its other half. -/
def replacement : Char := Char.ofNat 0xFFFD

/-- Collected characters, with an unfinished surrogate pair replaced. -/
def settle (out : List Char) (high : Option Nat) : List Char :=
  if high.isSome then replacement :: out else out

/-- A finished four-digit escape. -/
def endUnit (out : List Char) (high : Option Nat) (n : Nat) : Mode :=
  if isLowHalf n then
    match high with
    | some h => .string (Char.ofNat (0x10000 + (h - 0xD800) * 0x400 + (n - 0xDC00)) :: out) none
    | none => .string (replacement :: out) none
  else if 0xD800 ≤ n && n ≤ 0xDBFF then .string (settle out high) (some n)
  else .string (Char.ofNat n :: settle out high) none

/-- The value of a hexadecimal digit. -/
def hexValue? (c : Char) : Option Nat :=
  if isAsciiDigit c then some (c.toNat - 0x30)
  else if 'a' ≤ c && c ≤ 'f' then some (c.toNat - 0x57)
  else if 'A' ≤ c && c ≤ 'F' then some (c.toNat - 0x37)
  else none

/-- The character of a one-letter escape. -/
def escaped? (c : Char) : Option Char :=
  if c = '"' || c = '\\' || c = '/' then some c
  else if c = 'n' then some '\n'
  else if c = 'r' then some '\r'
  else if c = 't' then some '\t'
  else if c = 'b' then some (Char.ofNat 8)
  else if c = 'f' then some (Char.ofNat 12)
  else none

/-- One more character. -/
def Lexer.next (l : Lexer) (c : Char) : Lexer :=
  match l.mode with
  | .between => Lexer.begin l.tokens c
  | .number run =>
    if isNumberChar c then ⟨.number (c :: run), l.tokens⟩
    else if c = 'I' && run == ['-'] then ⟨.word ['I', '-'], l.tokens⟩
    else Lexer.begin ((numberTokens run.reverse).reverse ++ l.tokens) c
  | .word run =>
    if c.isAlpha then ⟨.word (c :: run), l.tokens⟩
    else Lexer.begin (wordToken (String.ofList run.reverse) :: l.tokens) c
  | .string out high =>
    if c = '"' then ⟨.between, .str (String.ofList (settle out high).reverse) :: l.tokens⟩
    else if c = '\\' then ⟨.escape out high, l.tokens⟩
    else if c.toNat < 0x20 then ⟨.between, .bad :: l.tokens⟩
    else ⟨.string (c :: settle out high) none, l.tokens⟩
  | .escape out high =>
    if c = 'u' then ⟨.unit out high 4 0, l.tokens⟩
    else
      match escaped? c with
      | some e => ⟨.string (e :: settle out high) none, l.tokens⟩
      | none => ⟨.between, .bad :: l.tokens⟩
  | .unit out high owed value =>
    match hexValue? c with
    | none => ⟨.between, .bad :: l.tokens⟩
    | some d =>
      let value := value * 16 + d
      if owed ≤ 1 then ⟨endUnit out high value, l.tokens⟩
      else ⟨.unit out high (owed - 1) value, l.tokens⟩

/-- The tokens at the end of the text, in order. -/
def Lexer.finish (l : Lexer) : List Token :=
  match l.mode with
  | .between => l.tokens.reverse
  | .number run => l.tokens.reverse ++ numberTokens run.reverse
  | .word run => l.tokens.reverse ++ [wordToken (String.ofList run.reverse)]
  | _ => l.tokens.reverse ++ [.bad]

/-- The tokens of a text. -/
def tokens (text : List Char) : List Token := (text.foldl Lexer.next Lexer.start).finish

/-! ### Surrogate pairs -/

/-- The character leaves half of a surrogate pair without its other half. -/
def Lexer.unpairs (l : Lexer) (c : Char) : Bool :=
  match l.mode with
  | .string _ high => high.isSome && c != '\\'
  | .escape _ high => high.isSome && c != 'u'
  | .unit _ high owed value =>
    match hexValue? c with
    | some d => owed ≤ 1 && isLowHalf (value * 16 + d) != high.isSome
    | none => false
  | _ => false

/-- From here on the escapes of a text give no half of a surrogate pair without the other. -/
def Lexer.staysPaired (l : Lexer) : List Char → Bool
  | [] => true
  | c :: cs => !l.unpairs c && (l.next c).staysPaired cs

/-- The escapes of a text give no half of a surrogate pair without the other, so that its strings
are read as they are written. -/
def IsPaired (text : List Char) : Prop := Lexer.start.staysPaired text = true

instance (text : List Char) : Decidable (IsPaired text) := inferInstanceAs (Decidable (_ = true))

/-- A pair, and one half of it alone. -/
example : IsPaired "\"\\ud83d\\ude00\"".toList ∧ ¬IsPaired "\"\\ud83d\"".toList := by decide

end Marginalia.Json
