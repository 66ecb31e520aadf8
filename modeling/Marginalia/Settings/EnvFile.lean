/-
  Marginalia/Settings/EnvFile.lean
  ================================
  **Environment files.**  A file of bindings `NAME=value`, one a line.  A value
  may stand in single or double quotes, where it may go over several lines and
  escapes are undone; without quotes it ends before a comment or at the end of the
  line.  A number sign begins a comment after a blank.  A line that is no binding
  is passed over.  `${NAME}` in a value stands for an earlier binding or a variable
  of the environment, `${NAME:-text}` for the text when there is none.
-/
import Marginalia.Table
import Marginalia.Text.Blank
import Marginalia.Text.Search

namespace Marginalia.EnvFile

open Marginalia.Text

/-- A name, and its value if one is given. -/
structure Binding where
  name : String
  value : Option String
  deriving DecidableEq, Repr

/-! ### Lines -/

/-- A blank within a line. -/
def isInlineBlank (c : Char) : Bool := isBlank c && c ≠ '\n'

/-- What follows on the lines after this one. -/
def dropLine (cs : List Char) : List Char := (cs.dropWhile (· != '\n')).drop 1

/-- Text without a comment in front. -/
def dropComment (cs : List Char) : List Char :=
  match cs.dropWhile isInlineBlank with
  | '#' :: rest => rest.dropWhile (· != '\n')
  | _ => cs

/-- What follows the end of a line, if nothing but blanks stands before it. -/
def endOfLine? (cs : List Char) : Option (List Char) :=
  match cs.dropWhile isInlineBlank with
  | [] => some []
  | '\n' :: rest => some rest
  | _ => none

/-! ### Names -/

/-- The word that may stand before a binding. -/
def exportWord : List Char := "export".toList

/-- Text without that word and the blanks after it. -/
def dropExport (cs : List Char) : List Char :=
  if startsWith exportWord cs then
    let rest := cs.drop exportWord.length
    if rest.head?.any isInlineBlank then rest.dropWhile isInlineBlank else cs
  else cs

/-- A name at the start of a text and what follows it; there is none before a comment. -/
def readName : List Char → Option (Option (List Char) × List Char)
  | '#' :: cs => some (none, '#' :: cs)
  | '\'' :: cs =>
    let name := cs.takeWhile (· != '\'')
    match cs.drop name.length with
    | _ :: rest => if name.isEmpty then none else some (some name, rest)
    | [] => none
  | cs =>
    let name := cs.takeWhile fun c => !(c = '=' || c = '#' || isBlank c)
    if name.isEmpty then none else some (some name, cs.drop name.length)

/-! ### Values -/

/-- Text up to the first quote that no backslash belongs to, and what follows that quote.  A
backslash belongs to the character after it. -/
def readQuoted (quote : Char) : List Char → Option (List Char × List Char)
  | [] => none
  | [c] => if c = quote then some ([], []) else none
  | c :: d :: cs =>
    if c = quote then some ([], d :: cs)
    else if c = '\\' then (readQuoted quote cs).map fun (inside, rest) => (c :: d :: inside, rest)
    else (readQuoted quote (d :: cs)).map fun (inside, rest) => (c :: inside, rest)

/-- Undoes escapes: a backslash with one of the characters that the function knows. -/
def unescape (meaning : Char → Option Char) : List Char → List Char
  | [] => []
  | [c] => [c]
  | c :: d :: cs =>
    if c = '\\' then
      match meaning d with
      | some e => e :: unescape meaning cs
      | none => c :: unescape meaning (d :: cs)
    else c :: unescape meaning (d :: cs)

/-- The escapes in single quotes. -/
def singleEscape (c : Char) : Option Char := if c = '\\' || c = '\'' then some c else none

/-- The escapes in double quotes. -/
def doubleEscape (c : Char) : Option Char :=
  Table.get? c [('\\', '\\'), ('\'', '\''), ('"', '"'), ('a', '\x07'), ('b', '\x08'),
    ('f', '\x0c'), ('n', '\n'), ('r', '\r'), ('t', '\t'), ('v', '\x0b')]

/-- Text before the first number sign that has a blank before it. -/
def beforeComment (afterBlank : Bool) : List Char → List Char
  | [] => []
  | c :: cs => if afterBlank && c = '#' then [] else c :: beforeComment (isBlank c) cs

/-- A value at the start of a text, if an equals sign stands there, and what follows. -/
def readValue : List Char → Option (Option (List Char) × List Char)
  | '=' :: cs =>
    match cs.dropWhile isInlineBlank with
    | '\'' :: rest =>
      (readQuoted '\'' rest).map fun (inside, rest) => (some (unescape singleEscape inside), rest)
    | '"' :: rest =>
      (readQuoted '"' rest).map fun (inside, rest) => (some (unescape doubleEscape inside), rest)
    | rest =>
      let line := rest.takeWhile (· != '\n')
      let afterBlank := decide (rest.length < cs.length)
      some (some (trimRight (beforeComment afterBlank line)), rest.drop line.length)
  | cs => some (none, cs)

/-! ### Bindings -/

/-- The binding at the start of a text, if it is one, and what follows. -/
def readBinding (cs : List Char) : Option Binding × List Char :=
  let cs := dropExport (trimLeft cs)
  match readName cs with
  | none => (none, dropLine cs)
  | some (name, cs) =>
    let cs := cs.dropWhile isInlineBlank
    match readValue cs with
    | none => (none, dropLine cs)
    | some (value, cs) =>
      let cs := dropComment cs
      match endOfLine? cs with
      | none => (none, dropLine cs)
      | some rest => (name.map fun n => ⟨String.ofList n, value.map String.ofList⟩, rest)

/-- All bindings of a text. -/
def bindings (cs : List Char) : List Binding :=
  let (binding, rest) := readBinding cs
  if rest.length < cs.length then binding.toList ++ bindings rest else binding.toList
termination_by cs.length

/-! ### Variables in values -/

/-- A reference to a variable: its name and the text that stands for it when it has no value. -/
structure Reference where
  name : String
  otherwise : String

/-- The reference after a dollar sign and an opening brace, and the number of characters up to and
including its closing brace. -/
def readReference (cs : List Char) : Option (Reference × Nat) :=
  let name := cs.takeWhile fun c => c ≠ '}' && c ≠ ':'
  match cs.drop name.length with
  | '}' :: _ => some (⟨String.ofList name, ""⟩, name.length + 1)
  | ':' :: '-' :: more =>
    let otherwise := more.takeWhile (· != '}')
    if otherwise.length < more.length then
      some (⟨String.ofList name, String.ofList otherwise⟩, name.length + otherwise.length + 3)
    else none
  | _ => none

/-- Puts values in place of references; `skip` characters of a reference are still to be passed
over. -/
def expandFrom (value : Reference → String) (skip : Nat) : List Char → List Char
  | [] => []
  | c :: cs =>
    match skip with
    | k + 1 => expandFrom value k cs
    | 0 =>
      if c = '$' && cs.head? == some '{' then
        match readReference (cs.drop 1) with
        | some (ref, n) => (value ref).toList ++ expandFrom value (n + 1) cs
        | none => c :: expandFrom value 0 cs
      else c :: expandFrom value 0 cs

/-- The value of a reference: a binding before it, else a variable of the environment. -/
def resolve (environment : Table String String) (done : Table String (Option String))
    (ref : Reference) : String :=
  match Table.get? ref.name done with
  | some value => value.getD ""
  | none => (Table.get? ref.name environment).getD ref.otherwise

/-- Text without a byte order mark in front. -/
def dropMark : List Char → List Char
  | [] => []
  | c :: cs => if c.toNat == 0xFEFF then cs else c :: cs

/-- The values of an environment file; a name bound twice keeps its first place and its last
value. -/
def values (environment : Table String String) (cs : List Char) : Table String (Option String) :=
  (bindings (dropMark cs)).foldl
    (fun done b =>
      Table.set b.name
        (b.value.map fun v =>
          String.ofList (expandFrom (resolve environment done) 0 v.toList)) done)
    []

end Marginalia.EnvFile
