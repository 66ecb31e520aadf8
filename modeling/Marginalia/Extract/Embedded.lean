/-
  Marginalia/Extract/Embedded.lean
  ================================
  **Annotations in objects.**  The program text may hold an object literal under
  the name `__mm`.  Its fields are the annotation, and it belongs to the entity
  declared last on the lines before it.
-/
import Marginalia.Extract.Comment
import Marginalia.Literal.Brace

namespace Marginalia.Extract

open Marginalia.Text

/-- The name under which objects are embedded. -/
def embeddedMark : List Char := "__mm".toList

/-- The number of characters before the brace when the text begins with an embedded object: its
name, an equals sign or colon, blanks around that. -/
def markerLength? (cs : List Char) : Option Nat :=
  if startsWith embeddedMark cs then
    match trimLeft (cs.drop embeddedMark.length) with
    | c :: rest =>
      if c = '=' || c = ':' then
        match trimLeft rest with
        | '{' :: rest' => some (cs.length - (rest'.length + 1))
        | _ => none
      else none
    | [] => none
  else none

/-- A place where an embedded object starts: the text before its name, and the text from its brace
on. -/
structure Site where
  before : List Char
  literal : List Char
  deriving DecidableEq, Repr

/-- The places in a text from left to right; one does not start inside the marker of another.
`seen` is the text already passed, last character first, and `skip` counts the characters of a
marker still to be passed over. -/
def sitesFrom (skip : Nat) (seen : List Char) : List Char → List Site
  | [] => []
  | c :: cs =>
    match skip with
    | k + 1 => sitesFrom k (c :: seen) cs
    | 0 =>
      match markerLength? (c :: cs) with
      | some n => ⟨seen.reverse, (c :: cs).drop n⟩ :: sitesFrom n (c :: seen) cs
      | none => sitesFrom 0 (c :: seen) cs

/-- The places where embedded objects start. -/
def sites (text : List Char) : List Site := sitesFrom 0 [] text

/-- How many lines before its own the entity of an object is looked for. -/
def entityWindow : Nat := 10

/-- The name declared last on the line of an object and the lines before it. -/
def lastEntity? (before : List Char) : Option (List Char) :=
  ((lines before).reverse.take (entityWindow + 1)).findSome? firstDeclared?

/-- The annotations and warnings of embedded objects.  Of several objects that begin on one line
only the first one that is closed counts; `taken` holds the lines of those. -/
def embeddedFrom (offset : Int) (taken : List Nat) :
    List Site → Except IntFault (List Note × List String)
  | [] => .ok ([], [])
  | site :: rest =>
    let number := lineAfter site.before
    if taken.contains number then embeddedFrom offset taken rest
    else
      match Literal.balanced? site.literal with
      | none => do
        let (found, warnings) ← embeddedFrom offset taken rest
        .ok (found, ("Unterminated __mm object at line " ++ showInt (number + offset)) :: warnings)
      | some literal => do
        let record ← Record.ofObject literal
        let (found, warnings) ← embeddedFrom offset (number :: taken) rest
        if record.isEmpty then .ok (found, warnings)
        else
          let note : Note :=
            ⟨record, .embedded, number + offset, String.ofList literal,
              (lastEntity? site.before).map String.ofList⟩
          .ok (note :: found, warnings)

/-- The annotations and warnings of the embedded objects of a text whose first line follows
`offset` others. -/
def embeddedPass (text : List Char) (offset : Int) :
    Except IntFault (List Note × List String) :=
  embeddedFrom offset [] (sites text)

end Marginalia.Extract
