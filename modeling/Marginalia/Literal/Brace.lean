/-
  Marginalia/Literal/Brace.lean
  =============================
  **Matching braces.**  The brace that closes an object literal is found by
  counting braces outside quoted strings; inside a string a backslash hides the
  next character.
-/
import Marginalia.Literal.Quote

namespace Marginalia.Literal

/-- The offset of the closing brace that brings the count of open braces back to zero; `quote` is
the quote of the string the scan is in. -/
def closingOffset? (depth : Nat) (quote : Option Char) : List Char → Option Nat
  | [] => none
  | c :: cs =>
    match quote with
    | some q =>
      if c = '\\' then
        match cs with
        | [] => none
        | _ :: rest => (closingOffset? depth (some q) rest).map (· + 2)
      else (closingOffset? depth (if c = q then none else some q) cs).map (· + 1)
    | none =>
      if isQuote c then (closingOffset? depth (some c) cs).map (· + 1)
      else if c = '{' then (closingOffset? (depth + 1) none cs).map (· + 1)
      else if c = '}' then
        if depth ≤ 1 then some 0 else (closingOffset? (depth - 1) none cs).map (· + 1)
      else (closingOffset? depth none cs).map (· + 1)

/-- The offset of the brace that closes the one at the start of the text. -/
def matchingBrace? : List Char → Option Nat
  | '{' :: cs => closingOffset? 0 none ('{' :: cs)
  | _ => none

/-- The index of the brace that closes the one at `start`. -/
def closingBrace (content : List Char) (start : Nat) : Option Nat :=
  (matchingBrace? (content.drop start)).map (start + ·)

/-- The object literal at the start of the text, both braces included. -/
def balanced? (text : List Char) : Option (List Char) :=
  (matchingBrace? text).map fun n => text.take (n + 1)

/-- The object literal at `start`. -/
def literalAt (content : List Char) (start : Nat) : Option (List Char) :=
  balanced? (content.drop start)

end Marginalia.Literal
