/-
  Marginalia/Text/Case.lean
  =========================
  **Letter case.**  Keys, class names and file endings are compared with fixed
  lower-case ASCII words.  No letter outside ASCII has a lower-case form that
  could complete one of those words, so lowering ASCII letters decides every
  such comparison.  Level names are compared in upper case, where some letters
  outside ASCII do have ASCII capitals.
-/
namespace Marginalia.Text

/-- Lowers the ASCII letters. -/
def lower (cs : List Char) : List Char := cs.map Char.toLower

/-- `lower` on strings. -/
def lowerString (s : String) : String := String.ofList (lower s.toList)

/-- Letters outside ASCII whose capital form consists of ASCII letters: the sharp s, the dotless
i, the long s and the ligatures. -/
def capitalForms : List (Nat × String) :=
  [(0xDF, "SS"), (0x131, "I"), (0x17F, "S"), (0xFB00, "FF"), (0xFB01, "FI"), (0xFB02, "FL"),
   (0xFB03, "FFI"), (0xFB04, "FFL"), (0xFB05, "ST"), (0xFB06, "ST")]

/-- Capital form of a character, as far as it consists of ASCII letters. -/
def upperChar (c : Char) : List Char :=
  match capitalForms.find? fun p => p.1 == c.toNat with
  | some (_, capitals) => capitals.toList
  | none => [c.toUpper]

/-- Raises letters to ASCII capitals. -/
def upperString (s : String) : String := String.ofList (s.toList.flatMap upperChar)

/-- Equality of a character with a lower-case ASCII letter when case is ignored: the long s
counts as an s, the dotted capital and the dotless small i count as an i. -/
def matchesLetter (letter c : Char) : Bool :=
  c.toLower == letter
    || (letter == 's' && c.toNat == 0x17F)
    || (letter == 'i' && (c.toNat == 0x130 || c.toNat == 0x131))

/-- `cs` begins with `word`, case ignored; `word` is in lower case. -/
def startsWithIgnoringCase : List Char → List Char → Bool
  | [], _ => true
  | _ :: _, [] => false
  | w :: ws, c :: cs => matchesLetter w c && startsWithIgnoringCase ws cs

end Marginalia.Text
