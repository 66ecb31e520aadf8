/-
  Marginalia/Text/Terminal.lean
  =============================
  **Terminal control sequences.**  Output that does not go to a terminal carries
  no control sequences.  A sequence is an escape character and an opening bracket,
  then any number of digits, semicolons and question marks, then an ASCII letter.
-/
namespace Marginalia.Text

/-- The characters between the bracket and the letter of a sequence. -/
def isSequenceParameter (c : Char) : Bool := c.isDigit || c = ';' || c = '?'

/-- The number of characters of a sequence that a text begins with. -/
def sequenceLength? : List Char → Option Nat
  | '\x1b' :: '[' :: cs =>
    let parameters := (cs.takeWhile isSequenceParameter).length
    match cs.drop parameters with
    | c :: _ => if c.isAlpha then some (parameters + 3) else none
    | [] => none
  | _ => none

/-- Drops control sequences; `skip` characters of one are still to be passed by. -/
def dropSequencesFrom (skip : Nat) : List Char → List Char
  | [] => []
  | c :: cs =>
    match skip with
    | k + 1 => dropSequencesFrom k cs
    | 0 =>
      match sequenceLength? (c :: cs) with
      | some n => dropSequencesFrom (n - 1) cs
      | none => c :: dropSequencesFrom 0 cs

/-- Text without control sequences. -/
def dropSequences (s : String) : String := String.ofList (dropSequencesFrom 0 s.toList)

end Marginalia.Text
