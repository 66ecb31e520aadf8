/-
  Marginalia/Extract/Comment.lean
  ===============================
  **Annotations in comments.**  Comments are block comments that begin a line and
  runs of line comments.  One that holds a marked field is an annotation; its
  fields stand on lines of their own, and it belongs to the entity declared right
  after it.
-/
import Marginalia.Record.Field
import Marginalia.Text.Lines

namespace Marginalia.Extract

open Marginalia.Text

/-! ### Lines of a comment -/

/-- Drops the slash and stars that open a block comment. -/
def dropBlockStart : List Char → List Char
  | '/' :: '*' :: cs => cs.dropWhile (· == '*')
  | cs => cs

/-- Drops the stars and slash that close a block comment. -/
def dropBlockEnd (cs : List Char) : List Char :=
  match cs.reverse with
  | '/' :: '*' :: rest => (rest.dropWhile (· == '*')).reverse
  | _ => cs

/-- Drops what marks a line inside a comment: a star, number signs, or slashes. -/
def dropLineMark : List Char → List Char
  | '*' :: cs => cs
  | '#' :: cs => cs.dropWhile (· == '#')
  | '/' :: '/' :: cs => cs.dropWhile (· == '/')
  | cs => cs

/-- A line of a comment without its marks. -/
def cleanLine (line : List Char) : List Char :=
  trim (dropLineMark (trim (dropBlockEnd (dropBlockStart (trim line)))))

/-- The mark in front of every field. -/
def fieldMark : List Char := "@mm:".toList

/-- Characters of a key after its first letter. -/
def isKeyChar (c : Char) : Bool := c.isAlphanum || c = '_'

/-- A word that begins with a letter, and what follows it. -/
def keyWord? : List Char → Option (List Char × List Char)
  | c :: cs =>
    if c.isAlpha then some (c :: cs.takeWhile isKeyChar, cs.dropWhile isKeyChar) else none
  | [] => none

/-- A key: a word, or two of them with a point or colon between; and what follows it. -/
def key? (cs : List Char) : Option (List Char × List Char) :=
  (keyWord? cs).map fun (word, rest) =>
    match rest with
    | c :: rest' =>
      if c = '.' || c = ':' then
        match keyWord? rest' with
        | some (word', rest'') => (word ++ c :: word', rest'')
        | none => (word, rest)
      else (word, rest)
    | [] => (word, rest)

/-- Key and value of a clean line that is a field. -/
def field? (line : List Char) : Option (List Char × List Char) :=
  if startsWith fieldMark line then
    match key? (line.drop fieldMark.length) with
    | some (key, '=' :: value) => some (key, value)
    | _ => none
  else none

/-- The fields of a comment in order, values trimmed. -/
def commentFields (block : List Char) : List (List Char × List Char) :=
  (breakLines block).filterMap fun line => (field? (cleanLine line)).map fun (k, v) => (k, trim v)

/-- The record of a comment. -/
def parseComment (block : List Char) : Except IntFault Record :=
  Record.empty.writeFields (commentFields block)

/-! ### Declarations -/

/-- Characters of an identifier. -/
def isNameChar (c : Char) : Bool := c.isAlphanum || c = '_' || c = '$'

/-- Characters that an identifier may begin with. -/
def isNameStart (c : Char) : Bool := c.isAlpha || c = '_' || c = '$'

/-- The words that introduce a declared name. -/
def declarationWords : List (List Char) :=
  ["const", "let", "var", "function", "function*", "class", "interface", "type", "enum",
    "def"].map String.toList

/-- The identifier after at least one blank. -/
def nameAfterBlank? : List Char → Option (List Char)
  | c :: cs =>
    if isBlank c then
      match trimLeft cs with
      | d :: ds => if isNameStart d then some (d :: ds.takeWhile isNameChar) else none
      | [] => none
    else none
  | [] => none

/-- The name declared at the start of a text. -/
def declarationAt? (cs : List Char) : Option (List Char) :=
  declarationWords.findSome? fun word =>
    if startsWith word cs then nameAfterBlank? (cs.drop word.length) else none

/-- The first name declared in a line; a declaration does not start inside an identifier. -/
def firstDeclaredFrom? (insideName : Bool) : List Char → Option (List Char)
  | [] => none
  | c :: cs =>
    match if insideName then none else declarationAt? (c :: cs) with
    | some name => some name
    | none => firstDeclaredFrom? (isNameChar c) cs

/-- The first name declared in a line. -/
def firstDeclared? (line : List Char) : Option (List Char) := firstDeclaredFrom? false line

/-- The name declared on the first line that is neither blank nor a decorator. -/
def nextEntity? : List (List Char) → Option (List Char)
  | [] => none
  | line :: rest =>
    let t := trim line
    if t.isEmpty || startsWith ['@'] t then nextEntity? rest else firstDeclared? line

/-! ### Comment blocks -/

/-- A comment: its text, the number of its first line, and the entity after it. -/
structure Comment where
  raw : List Char
  line : Nat
  entity : Option (List Char)
  deriving DecidableEq, Repr

/-- The line begins a block comment. -/
def opensBlock (line : List Char) : Bool := startsWith ['/', '*'] (trimLeft line)

/-- The line is a line comment. -/
def isLineComment (line : List Char) : Bool :=
  let t := trimLeft line
  startsWith ['#'] t || startsWith ['/', '/'] t

/-- The line closes a block comment. -/
def closesBlock (line : List Char) : Bool := occursIn ['*', '/'] line

/-- How many of the following lines belong to the comment that a line begins, if it begins one: up
to the line that closes a block comment, or all of them if none does; and the run of line
comments. -/
def blockSpan? (line : List Char) (following : List (List Char)) : Option Nat :=
  if opensBlock line then
    if closesBlock ((trimLeft line).drop 2) then some 0
    else
      match following.findIdx? closesBlock with
      | some i => some (i + 1)
      | none => some following.length
  else if isLineComment line then some (following.takeWhile isLineComment).length
  else none

/-- The comments with a marked field among lines, the first of which has the given number. -/
def commentsFrom (number : Nat) : List (List Char) → List Comment
  | [] => []
  | line :: following =>
    match blockSpan? line following with
    | none => commentsFrom (number + 1) following
    | some n =>
      let raw := unlines (line :: following.take n)
      let rest := following.drop n
      let blocks := commentsFrom (number + 1 + n) rest
      if occursIn fieldMark raw then ⟨raw, number, nextEntity? rest⟩ :: blocks else blocks
termination_by ls => ls.length
decreasing_by
  all_goals simp only [List.length_cons, List.length_drop]; omega

/-- The comments with a marked field in a text. -/
def commentsIn (text : List Char) : List Comment := commentsFrom 1 (lines text)

/-- The annotation of a comment; one without a valid field is none. -/
def Comment.note? (offset : Int) (b : Comment) : Except IntFault (Option Note) :=
  (parseComment b.raw).map fun r =>
    if r.isEmpty then none
    else some ⟨r, .comment, b.line + offset, String.ofList b.raw, b.entity.map String.ofList⟩

/-- The annotations in the comments of a text whose first line follows `offset` others. -/
def commentPass (text : List Char) (offset : Int) : Except IntFault (List Note) :=
  ((commentsIn text).mapM (Comment.note? offset)).map (·.filterMap fun a => a)

end Marginalia.Extract
