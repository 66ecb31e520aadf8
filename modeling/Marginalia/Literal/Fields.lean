/-
  Marginalia/Literal/Fields.lean
  ==============================
  **Fields of an object literal.**  The pairs on one level of `{key: value, …}`:
  keys unquoted, values raw.
-/
import Marginalia.Literal.TopLevel
import Marginalia.Table

namespace Marginalia.Literal

open Marginalia.Text

/-- The offset of the colon between key and value: the first one, or the first one after the
closing quote of a quoted key. -/
def keyEnd? : List Char → Option Nat
  | [] => none
  | c :: cs =>
    if isQuote c then
      (find? [c] cs).bind fun i => (find? [':'] (cs.drop (i + 1))).map (· + i + 2)
    else find? [':'] (c :: cs)

/-- Key and value of one piece; a piece without a colon or with an empty key has none. -/
def splitPair? (pair : List Char) : Option (List Char × List Char) :=
  (keyEnd? pair).bind fun i =>
    let key := unquoted (pair.take i)
    if key.isEmpty then none else some (key, trim (pair.drop (i + 1)))

/-- The pairs of an object literal in the order in which they are written. -/
def objectPairs (literal : List Char) : List (List Char × List Char) :=
  (topLevelPieces [','] (trim (unwrap ['{'] ['}'] literal))).filterMap splitPair?

/-- The fields of an object literal: a repeated key has its first place and its last value. -/
def objectFields (literal : List Char) : Table (List Char) (List Char) :=
  Table.ofPairs (objectPairs literal)

end Marginalia.Literal
