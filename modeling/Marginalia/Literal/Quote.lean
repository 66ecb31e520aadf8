/-
  Marginalia/Literal/Quote.lean
  =============================
  **Quotes and enclosing marks.**  Values in annotations may be written between
  single, double or back quotes; one layer of them is taken off.  Lists and
  objects may be written between brackets.
-/
import Marginalia.Text.Blank
import Marginalia.Text.Search

namespace Marginalia.Literal

open Marginalia.Text

/-- The three quote characters. -/
def isQuote (c : Char) : Bool := c = '\x27' || c = '"' || c = '\x60'

/-- Drops the first character if it is a quote. -/
def dropOpeningQuote : List Char → List Char
  | [] => []
  | c :: cs => if isQuote c then cs else c :: cs

/-- Drops the last character if it is a quote. -/
def dropClosingQuote (cs : List Char) : List Char :=
  match cs.getLast? with
  | some c => if isQuote c then cs.dropLast else cs
  | none => cs

/-- The text without surrounding blanks and one layer of quotes; the two quotes need not match. -/
def unquoted (cs : List Char) : List Char :=
  trim (dropClosingQuote (dropOpeningQuote (trim cs)))

/-- The text without surrounding blanks and, if it stands between the two marks, without its first
and last character. -/
def unwrap (opener closer cs : List Char) : List Char :=
  let t := trim cs
  if startsWith opener t && endsWith closer t then (t.drop 1).dropLast else t

end Marginalia.Literal
