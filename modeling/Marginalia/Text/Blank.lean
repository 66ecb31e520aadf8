/-
  Marginalia/Text/Blank.lean
  ==========================
  **Blank characters and trimming.**  Text is scanned as `List Char`; a blank
  character is one that separates words on a line or ends a line, in the wide
  sense of Unicode: the ASCII controls U+0009 to U+000D and U+001C to U+001F,
  the space, NEL, the no-break space and the space separators.  Zero-width
  characters and the byte order mark are not blank.
-/
namespace Marginalia.Text

/-- The characters that trimming removes and that patterns accept as white space. -/
def isBlank (c : Char) : Bool :=
  let n := c.toNat
  (0x09 ≤ n && n ≤ 0x0D) || (0x1C ≤ n && n ≤ 0x20) || n == 0x85 || n == 0xA0 || n == 0x1680
    || (0x2000 ≤ n && n ≤ 0x200A) || n == 0x2028 || n == 0x2029 || n == 0x202F || n == 0x205F
    || n == 0x3000

/-- Text without its leading blanks. -/
def trimLeft (cs : List Char) : List Char := cs.dropWhile isBlank

/-- Text without its trailing blanks. -/
def trimRight (cs : List Char) : List Char := (cs.reverse.dropWhile isBlank).reverse

/-- Text without blanks at either end. -/
def trim (cs : List Char) : List Char := trimRight (trimLeft cs)

/-- `trim` on strings. -/
def trimString (s : String) : String := String.ofList (trim s.toList)

/-- A blank text has only blank characters. -/
def isBlankText (cs : List Char) : Bool := cs.all isBlank

/-! ### Laws of trimming -/

theorem trimLeft_cons_of_not_blank {c : Char} (cs : List Char) (h : isBlank c = false) :
    trimLeft (c :: cs) = c :: cs := by
  simp [trimLeft, List.dropWhile, h]

end Marginalia.Text
