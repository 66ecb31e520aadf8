/-
  Marginalia/Text/Digit.lean
  ==========================
  **Decimal digits and whole numbers.**  Every Unicode decimal digit counts as a
  digit (each script has its ten in a row), and a whole number may be written
  with at most `maxDigits` of them.  Main definitions: `digitValue?`, `decimal`
  (the digits of a number) and `readInt` (the number a text stands for).
-/
import Marginalia.Text.Blank

namespace Marginalia.Text

/-- The zeros of all decimal scripts; the other nine digits follow each of them. -/
def zeroDigits : List Nat :=
  [0x30, 0x660, 0x6F0, 0x7C0, 0x966, 0x9E6, 0xA66, 0xAE6,
   0xB66, 0xBE6, 0xC66, 0xCE6, 0xD66, 0xDE6, 0xE50, 0xED0,
   0xF20, 0x1040, 0x1090, 0x17E0, 0x1810, 0x1946, 0x19D0, 0x1A80,
   0x1A90, 0x1B50, 0x1BB0, 0x1C40, 0x1C50, 0xA620, 0xA8D0, 0xA900,
   0xA9D0, 0xA9F0, 0xAA50, 0xABF0, 0xFF10, 0x104A0, 0x10D30, 0x11066,
   0x110F0, 0x11136, 0x111D0, 0x112F0, 0x11450, 0x114D0, 0x11650, 0x116C0,
   0x11730, 0x118E0, 0x11950, 0x11C50, 0x11D50, 0x11DA0, 0x16A60, 0x16AC0,
   0x16B50, 0x1D7CE, 0x1D7D8, 0x1D7E2, 0x1D7EC, 0x1D7F6, 0x1E140, 0x1E2F0,
   0x1E950, 0x1FBF0]

/-- The value of a decimal digit of any script. -/
def digitValue? (c : Char) : Option Nat :=
  (zeroDigits.find? fun z => z ≤ c.toNat && c.toNat < z + 10).map (c.toNat - ·)

/-- Decimal digits of any script. -/
def isDigit (c : Char) : Bool := (digitValue? c).isSome

/-- The number whose decimal digits are given, most significant first. -/
def ofDigits (ds : List Nat) : Nat := ds.foldl (fun n d => 10 * n + d) 0

/-- The ASCII digit of a value below ten. -/
def digitChar (d : Nat) : Char := Char.ofNat (0x30 + d)

/-- The decimal digits of a number, without leading zeros. -/
def decimal (n : Nat) : List Char :=
  if n < 10 then [digitChar n] else decimal (n / 10) ++ [digitChar (n % 10)]
termination_by n
decreasing_by omega

/-- A whole number in decimal, with a minus sign when negative. -/
def decimalInt : Int → List Char
  | .ofNat n => decimal n
  | .negSucc n => '-' :: decimal (n + 1)

/-- `decimalInt` as a string. -/
def showInt (n : Int) : String := String.ofList (decimalInt n)

/-- `decimal` as a string. -/
def showNat (n : Nat) : String := String.ofList (decimal n)

/-- Digits from the right, with a comma after every third one that has a digit before it. -/
def groupFrom : Nat → List Char → List Char
  | _, [] => []
  | k, c :: cs => if k = 3 then ',' :: c :: groupFrom 1 cs else c :: groupFrom (k + 1) cs

/-- A whole number in decimal, its digits in groups of three divided by commas. -/
def groupedInt (n : Int) : String :=
  let digits := (groupFrom 0 (decimal n.natAbs).reverse).reverse
  String.ofList (if n < 0 then '-' :: digits else digits)

/-- More digits than this are not converted to a number. -/
def maxDigits : Nat := 4300

/-- Why a text stands for no whole number. -/
inductive IntFault where
  /-- The text is not a number. -/
  | malformed
  /-- The number has this many digits, more than `maxDigits`. -/
  | tooLong (digits : Nat)
  deriving DecidableEq, Repr

/-- The sign in front of a number, and what follows it. -/
def readSign : List Char → Bool × List Char
  | '-' :: cs => (true, cs)
  | '+' :: cs => (false, cs)
  | cs => (false, cs)

/-- A run of digits with single underscores between them: the digit values and what follows, or
nothing when an underscore has no digit on one side. -/
def readDigitRun (afterDigit : Bool) : List Char → Option (List Nat × List Char)
  | [] => some ([], [])
  | c :: cs =>
    match digitValue? c with
    | some d => (readDigitRun true cs).map fun (ds, rest) => (d :: ds, rest)
    | none =>
      if c = '_' then
        if afterDigit && (cs.head?.any isDigit) then readDigitRun false cs else none
      else some ([], c :: cs)

/-- Applies a sign. -/
def signed (negative : Bool) (n : Nat) : Int := if negative then -(n : Int) else n

/-- Blanks that may stand around a number: all but the four information separators. -/
def isSpace (c : Char) : Bool := isBlank c && !(0x1C ≤ c.toNat && c.toNat ≤ 0x1F)

/-- Text without such blanks at either end. -/
def trimSpaces (cs : List Char) : List Char :=
  (((cs.dropWhile isSpace).reverse).dropWhile isSpace).reverse

/-- The whole number a text stands for: spaces around it, a sign, digits of any script and single
underscores between digits are allowed. -/
def readInt (text : List Char) : Except IntFault Int :=
  let (negative, body) := readSign (trimSpaces text)
  match readDigitRun false body with
  | none => .error .malformed
  | some (ds, rest) =>
    if ds.isEmpty then .error .malformed
    else if maxDigits < ds.length then .error (.tooLong ds.length)
    else if rest.isEmpty then .ok (signed negative (ofDigits ds))
    else .error .malformed

/-- The number formed by the sign and digits that a text begins with, after blanks; nothing when
there are none. -/
def leadingInt? (text : List Char) : Except IntFault (Option Int) :=
  let (negative, body) := readSign (trimLeft text)
  let ds := (body.takeWhile isDigit).filterMap digitValue?
  if ds.isEmpty then .ok none
  else if maxDigits < ds.length then .error (.tooLong ds.length)
  else .ok (some (signed negative (ofDigits ds)))

end Marginalia.Text
