/-
  Marginalia/Literal/TopLevel.lean
  ================================
  **Splitting at the top level.**  A scanner carries the depth of open brackets,
  the quote it is in, and whether the character before was an escaping backslash.
  The text is cut at delimiters met outside quotes at depth zero; the depth may
  be negative, and then nothing is cut until it comes back.
-/
import Marginalia.Literal.Quote

namespace Marginalia.Literal

open Marginalia.Text

/-- The state of the scanner between two characters. -/
structure Scan where
  depth : Int
  quote : Option Char
  escaped : Bool
  deriving DecidableEq, Repr

/-- Outside quotes and brackets. -/
def Scan.start : Scan := ⟨0, none, false⟩

/-- Opening brackets of all three kinds. -/
def isOpener (c : Char) : Bool := c = '[' || c = '{' || c = '('

/-- Closing brackets of all three kinds. -/
def isCloser (c : Char) : Bool := c = ']' || c = '}' || c = ')'

/-- The state after a character that is not a cut. -/
def Scan.step (s : Scan) (c : Char) : Scan :=
  match s.quote with
  | some q =>
    if s.escaped then { s with escaped := false }
    else if c = '\\' then { s with escaped := true }
    else if c = q then { s with quote := none }
    else s
  | none =>
    if isQuote c then { s with quote := some c }
    else if isOpener c then { s with depth := s.depth + 1 }
    else if isCloser c then { s with depth := s.depth - 1 }
    else s

/-- The character is a delimiter at the top level.  A delimiter is a text, so that one of any
length other than one character never occurs. -/
def Scan.cutsAt (s : Scan) (delimiter : List Char) (c : Char) : Bool :=
  s.quote.isNone && !isQuote c && !isOpener c && !isCloser c && delimiter == [c] && s.depth == 0

/-- The raw pieces between top-level delimiters. -/
def segments (delimiter : List Char) (s : Scan) : List Char → List (List Char)
  | [] => [[]]
  | c :: cs =>
    if s.cutsAt delimiter c then [] :: segments delimiter s cs
    else
      match segments delimiter (s.step c) cs with
      | [] => [[c]]
      | piece :: pieces => (c :: piece) :: pieces

/-- The trimmed, non-empty pieces between top-level delimiters. -/
def topLevelPieces (delimiter cs : List Char) : List (List Char) :=
  ((segments delimiter Scan.start cs).map trim).filter (!·.isEmpty)

/-- The items of a list, with or without brackets around it: unquoted, empty ones left out. -/
def listItems (cs : List Char) : List (List Char) :=
  ((topLevelPieces [','] (unwrap ['['] [']'] cs)).map unquoted).filter (!·.isEmpty)

/-! ### Laws -/

theorem segments_ne_nil (delimiter : List Char) (s : Scan) (cs : List Char) :
    segments delimiter s cs ≠ [] := by
  cases cs with
  | nil => simp [segments]
  | cons c cs =>
    simp only [segments]
    split
    · simp
    · split <;> simp

end Marginalia.Literal
