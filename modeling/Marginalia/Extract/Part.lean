/-
  Marginalia/Extract/Part.lean
  ============================
  **Script regions.**  In files that mix markup with program text only the
  contents of `<script>` elements are searched; a file without any is searched
  whole.
-/
import Marginalia.Text.Blank
import Marginalia.Text.Case
import Marginalia.Text.Lines

namespace Marginalia.Extract

open Marginalia.Text

/-- A part of a file and the number of lines before it. -/
structure Part where
  text : List Char
  offset : Nat
  deriving DecidableEq, Repr

/-- The endings of files that mix markup with program text. -/
def compositeEndings : List (List Char) := [".vue", ".svelte", ".html", ".htm"].map String.toList

/-- The file mixes markup with program text, judged by its name in any letter case. -/
def isComposite (path : List Char) : Bool := compositeEndings.any fun e => endsWith e (lower path)

/-- The text before the first occurrence of `word`, case ignored. -/
def before? (word : List Char) : List Char → Option (List Char)
  | [] => none
  | c :: cs =>
    if startsWithIgnoringCase word (c :: cs) then some []
    else (before? word cs).map (c :: ·)

/-- The opening tag and the contents of a script element at the start of the text. -/
def scriptAt? (cs : List Char) : Option (List Char × List Char) :=
  if startsWithIgnoringCase "<script".toList cs then
    let tag := cs.takeWhile (· != '>')
    match cs.drop tag.length with
    | [] => none
    | _ :: rest => (before? "</script>".toList rest).map fun body => (tag ++ ['>'], body)
  else none

/-- The contents of script elements from left to right.  `number` counts the line feeds passed,
`skip` the characters of an element still to be passed over. -/
def scriptsFrom (skip number : Nat) : List Char → List Part
  | [] => []
  | c :: cs =>
    let number' := if c = '\n' then number + 1 else number
    match skip with
    | k + 1 => scriptsFrom k number' cs
    | 0 =>
      match scriptAt? (c :: cs) with
      | some (tag, body) =>
        ⟨body, number + countChar '\n' tag⟩
          :: scriptsFrom (tag.length + body.length + "</script>".length - 1) number' cs
      | none => scriptsFrom 0 number' cs

/-- The parts of a file that are searched for annotations. -/
def scriptParts (content path : List Char) : List Part :=
  if isComposite path then
    let scripts := (scriptsFrom 0 0 content).filter fun r => !isBlankText r.text
    if scripts.isEmpty then [⟨content, 0⟩] else scripts
  else [⟨content, 0⟩]

end Marginalia.Extract
