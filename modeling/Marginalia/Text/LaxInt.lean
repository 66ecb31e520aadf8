/-
  Marginalia/Text/LaxInt.lean
  ===========================
  **Whole numbers in settings and fields.**  Outside stored documents a whole
  number may be written with blanks around it, one sign, leading zeros,
  underscores between digits and a fraction of zeros; digits are ASCII digits.
-/
import Marginalia.Text.Digit
import Marginalia.Text.Search

namespace Marginalia.Text

/-- ASCII digits. -/
def isPlainDigit (c : Char) : Bool := '0' ≤ c && c ≤ '9'

/-- The value of a number in its shortest form: digits without leading zeros, at most `maxDigits`
of them, and perhaps a minus sign in front. -/
def plainInt? (cs : List Char) : Option Int :=
  let (negative, ds) := match cs with
    | '-' :: rest => (true, rest)
    | _ => (false, cs)
  let shortest := ds == ['0'] || (!ds.isEmpty && ds.head? != some '0')
  if shortest && ds.all isPlainDigit && ds.length ≤ maxDigits then
    some (signed negative (ofDigits (ds.map fun c => c.toNat - 0x30)))
  else none

/-- The number of digits that a text begins with after a minus sign, if the first is not zero. -/
def leadingDigits (cs : List Char) : Nat :=
  let ds := if cs.head? == some '-' then cs.drop 1 else cs
  if ds.head? == some '0' then 0 else (ds.takeWhile isPlainDigit).length

/-- Drops zeros and underscores after a first zero; the last of them stays before a point and at
the end. -/
def dropLeadingZeros (last : Char) : List Char → List Char
  | [] => [last]
  | c :: cs =>
    if c = '0' || c = '_' then dropLeadingZeros c cs
    else if c = '.' then last :: c :: cs
    else c :: cs

/-- Text that begins with a digit, without its leading zeros. -/
def significant? : List Char → Option (List Char)
  | [] => none
  | c :: cs =>
    if c = '0' then some (dropLeadingZeros c cs)
    else if isPlainDigit c then some (c :: cs)
    else none

/-- Drops a point and the zeros after it, if there are some and nothing else follows. -/
def dropZeroFraction (cs : List Char) : List Char :=
  match cut? ['.'] cs with
  | some (whole, fraction) =>
    if !fraction.isEmpty && fraction.all (· == '0') then whole else cs
  | none => cs

/-- Drops underscores that stand alone between other characters. -/
def dropUnderscores (cs : List Char) : List Char :=
  if cs.head? == some '_' || cs.getLast? == some '_' || occursIn ['_', '_'] cs then cs
  else cs.filter (· != '_')

/-- A number without what may stand in it besides its shortest form. -/
def cleaned? (text : List Char) : Option (List Char) :=
  let (negative, body) := readSign (trimSpaces text)
  (significant? body).map fun cs =>
    let cs := dropUnderscores (dropZeroFraction cs)
    if negative then '-' :: cs else cs

/-- The whole number that a text stands for.  Only a text that begins with its digits can be too
long for a number. -/
def laxInt (text : List Char) : Except IntFault Int :=
  if maxDigits < leadingDigits text then .error (.tooLong (leadingDigits text))
  else
    match plainInt? text <|> (cleaned? text).bind plainInt? with
    | some n => .ok n
    | none => .error .malformed

/-- What is wrong with a text that is not such a number. -/
def IntFault.laxMessage : IntFault → String
  | .malformed => "Input should be a valid integer, unable to parse string as an integer"
  | .tooLong _ => "Unable to parse input string as an integer, exceeded maximum size"

end Marginalia.Text
