/-
  Marginalia/Number/Binary64.lean
  ===============================
  **Binary floating point in exact arithmetic.**  A finite number is an integer
  mantissa below `2 ^ 53` times a power of two; a quotient of integers is rounded
  to the nearest such number, a tie to the even mantissa.  On top of it: reading a
  decimal, products, truncation, the shortest decimal that reads back, and a
  decimal with a fixed number of places.
-/
import Marginalia.Text.Digit

namespace Marginalia

/-- A number of the 64-bit binary format. -/
inductive Binary64 where
  | finite (negative : Bool) (mantissa : Nat) (exponent : Int)
  | infinite (negative : Bool)
  | nan
  deriving DecidableEq, Repr

namespace Binary64

/-- The least exponent of the format. -/
def minExponent : Int := -1074

/-- The greatest exponent of the format. -/
def maxExponent : Int := 971

/-! ### Rounding -/

/-- The quotient rounded to the nearest integer, a tie to the even one. -/
def roundDiv (num den : Nat) : Nat :=
  let q := num / den
  let r := num % den
  if 2 * r < den then q else if den < 2 * r then q + 1 else if q % 2 = 0 then q else q + 1

/-- `num / den` with the denominator multiplied by `2 ^ e`, kept in integers. -/
def scale (num den : Nat) (e : Int) : Nat × Nat :=
  if 0 ≤ e then (num, den * Nat.pow 2 e.toNat) else (num * Nat.pow 2 (-e).toNat, den)

/-- The exponent at which a positive quotient has a 53-bit integer part. -/
def exponentFor (num den : Nat) : Int :=
  let e : Int := (num.log2 : Int) - (den.log2 : Int) - 53
  let (n, d) := scale num den e
  max (if d * Nat.pow 2 53 ≤ n then e + 1 else e) minExponent

/-- The number of the format nearest to a quotient of integers. -/
def ofRatio (negative : Bool) (num den : Nat) : Binary64 :=
  if num = 0 then .finite negative 0 0
  else
    let e := exponentFor num den
    let (n, d) := scale num den e
    let m := roundDiv n d
    let (m, e) := if m = Nat.pow 2 53 then (Nat.pow 2 52, e + 1) else (m, e)
    if maxExponent < e then .infinite negative else .finite negative m e

/-- The number of the format nearest to `digits · 10 ^ exponent`. -/
def ofDecimal (negative : Bool) (digits : Nat) (exponent : Int) : Binary64 :=
  if digits = 0 then .finite negative 0 0
  else if 400 < exponent then .infinite negative
  else if exponent + (Nat.log2 digits : Int) < -1200 then .finite negative 0 0
  else if 0 ≤ exponent then ofRatio negative (digits * Nat.pow 10 exponent.toNat) 1
  else ofRatio negative digits (Nat.pow 10 (-exponent).toNat)

/-- The quotient of two integers, rounded. -/
def ofQuotient (num : Int) (den : Nat) : Binary64 := ofRatio (num < 0) num.natAbs den

/-- A number times a natural number, rounded. -/
def mulNat (x : Binary64) (k : Nat) : Binary64 :=
  match x with
  | .finite s m e => let (n, d) := scale (m * k) 1 (-e); ofRatio s n d
  | x => x

/-- The number is zero, of either sign. -/
def isZero : Binary64 → Bool
  | .finite _ m _ => m == 0
  | _ => false

/-- The absolute value of a finite number as a quotient. -/
def magnitude (m : Nat) (e : Int) : Nat × Nat := scale m 1 (-e)

/-- The integer part of a finite number. -/
def truncate? : Binary64 → Option Int
  | .finite s m e => let (n, d) := magnitude m e; some (Text.signed s (n / d))
  | _ => none

/-- A finite number without a fractional part. -/
def whole? : Binary64 → Option Int
  | .finite s m e =>
    let (n, d) := magnitude m e
    if n % d = 0 then some (Text.signed s (n / d)) else none
  | _ => none

/-! ### Decimals with fixed places -/

/-- Decimal digits, filled up with zeros on the left to a width. -/
def padded (width n : Nat) : List Char :=
  let ds := Text.decimal n
  List.replicate (width - ds.length) '0' ++ ds

/-- The decimal with the given number of places, a tie to the even digit. -/
def fixed (places : Nat) : Binary64 → List Char
  | .finite s m e =>
    let (n, d) := magnitude m e
    let scaled := roundDiv (n * Nat.pow 10 places) d
    let ds := padded (places + 1) scaled
    let (whole, fraction) := ds.splitAt (ds.length - places)
    let text := whole ++ (if places = 0 then [] else '.' :: fraction)
    if s then '-' :: text else text
  | .infinite s => if s then "-inf".toList else "inf".toList
  | .nan => "nan".toList

/-! ### The shortest decimal -/

/-- The integer `k` for which `10 ^ (k - 1) ≤ n / d < 10 ^ k`, found from an estimate. -/
def decimalPoint (n d : Nat) : Int :=
  let estimate : Int := (Text.decimal n).length - (Text.decimal d).length
  let below (k : Int) : Bool :=
    if 0 ≤ k then n < d * Nat.pow 10 k.toNat else n * Nat.pow 10 (-k).toNat < d
  if below estimate then estimate else estimate + 1

/-- A decimal `digits · 10 ^ exponent` as a quotient. -/
def decimalRatio (digits : Nat) (exponent : Int) : Nat × Nat :=
  if 0 ≤ exponent then (digits * Nat.pow 10 exponent.toNat, 1)
  else (digits, Nat.pow 10 (-exponent).toNat)

/-- Reading the decimal gives this mantissa and exponent back. -/
def readsBack (m : Nat) (e : Int) (digits : Nat) (exponent : Int) : Bool :=
  let (n, d) := decimalRatio digits exponent
  ofRatio false n d == .finite false m e

/-- Of the two decimals with `count` digits next to a positive number, the one that reads back;
the nearer one if both do. -/
def shortestWith (m : Nat) (e : Int) (count : Nat) : Option (Nat × Int) :=
  let (n, d) := magnitude m e
  let exponent := decimalPoint n d - count
  let (num, den) :=
    if 0 ≤ exponent then (n, d * Nat.pow 10 exponent.toNat)
    else (n * Nat.pow 10 (-exponent).toNat, d)
  let lower := num / den
  let near := roundDiv num den
  let far := if near = lower then lower + 1 else lower
  if readsBack m e near exponent then some (near, exponent)
  else if readsBack m e far exponent then some (far, exponent)
  else none

/-- The shortest decimal that reads back: digits and exponent of ten. -/
def shortest (m : Nat) (e : Int) : Nat × Int :=
  ((List.range 17).findSome? fun k => shortestWith m e (k + 1)).getD (m, 0)

/-- Digits with trailing zeros moved into the exponent. -/
def dropZeros (fuel digits : Nat) (exponent : Int) : Nat × Int :=
  match fuel with
  | 0 => (digits, exponent)
  | fuel + 1 =>
    if digits ≠ 0 && digits % 10 = 0 then dropZeros fuel (digits / 10) (exponent + 1)
    else (digits, exponent)

/-- The shortest text that reads back: positional while the decimal point lies between four places
left of the first digit and sixteen places right of it, with a fraction always shown, and otherwise
with an exponent of at least two digits. -/
def finiteText (m : Nat) (e : Int) : List Char :=
  if m = 0 then "0.0".toList
  else
    let (digits, exponent) := let (x, k) := shortest m e; dropZeros 20 x k
    let ds := Text.decimal digits
    let point := (ds.length : Int) + exponent
    if -4 < point && point ≤ 16 then
      if point ≤ 0 then '0' :: '.' :: List.replicate (-point).toNat '0' ++ ds
      else if 0 ≤ exponent then ds ++ List.replicate exponent.toNat '0' ++ ['.', '0']
      else ds.take point.toNat ++ '.' :: ds.drop point.toNat
    else
      let power := point - 1
      let head := match ds with
        | [] => []
        | [c] => [c]
        | c :: cs => c :: '.' :: cs
      head ++ 'e' :: (if power < 0 then '-' else '+') :: padded 2 power.natAbs

end Binary64

end Marginalia
