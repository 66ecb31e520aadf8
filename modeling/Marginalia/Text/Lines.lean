/-
  Marginalia/Text/Lines.lean
  ==========================
  **Lines.**  A source text is divided at line feeds only; the text of one
  comment is divided at every Unicode line boundary.  Files are read with their
  line ends brought to line feeds.
-/
import Marginalia.Text.Search

namespace Marginalia.Text

/-- The lines of a source text: the pieces between line feeds. -/
def lines (cs : List Char) : List (List Char) := splitAt '\n' cs

/-- Lines joined by line feeds. -/
def unlines (ls : List (List Char)) : List Char := ['\n'].intercalate ls

/-- The characters that end a line of a comment. -/
def isLineBreak (c : Char) : Bool :=
  let n := c.toNat
  (0x0A ≤ n && n ≤ 0x0D) || (0x1C ≤ n && n ≤ 0x1E) || n == 0x85 || n == 0x2028 || n == 0x2029

/-- The lines of a comment: what stands between line boundaries, with nothing after a final
boundary; a carriage return and line feed together are one boundary. -/
def breakLines : List Char → List (List Char)
  | [] => []
  | '\r' :: '\n' :: cs => [] :: breakLines cs
  | c :: cs =>
    if isLineBreak c then [] :: breakLines cs
    else
      match breakLines cs with
      | [] => [[c]]
      | l :: ls => (c :: l) :: ls

/-- Brings every line end (carriage return, line feed, or both) to one line feed. -/
def normalizeNewlines : List Char → List Char
  | [] => []
  | '\r' :: '\n' :: cs => '\n' :: normalizeNewlines cs
  | c :: cs => (if c = '\r' then '\n' else c) :: normalizeNewlines cs

/-- The number of the line on which the text after `before` begins, counted from one. -/
def lineAfter (before : List Char) : Nat := countChar '\n' before + 1

end Marginalia.Text
