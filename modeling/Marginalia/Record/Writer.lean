/-
  Marginalia/Record/Writer.lean
  =============================
  **Writing annotations.**  Fields are written one to a line in a fixed order, in
  a block comment or in line comments.  The fields come as a document, so that
  values which no record can hold are written as well.
-/
import Marginalia.Json.Shape
import Marginalia.Record.Document

namespace Marginalia.Writer

open Marginalia.Json

/-- The two comment styles. -/
inductive Style where
  | block
  | hash
  deriving DecidableEq, Repr

/-- The style of a name; every name but one means a block. -/
def Style.ofName (name : String) : Style := if name = "hash" then .hash else .block

/-- One field on a line. -/
def fieldLine (key text : String) : String := "@mm:" ++ key ++ "=" ++ text

/-- Targets in one line; those of an object with the kind in front. -/
def depsText (deps : Json) : Shaped String :=
  match deps with
  | .obj fields => do
    let lists ← DepKind.all.mapM fun c => do
      let targets ← elements ((Table.get? c.name fields).getD (.arr []))
      .ok (targets.map fun t => c.name ++ ":" ++ t.asText)
    .ok (String.intercalate "," lists.flatten)
  | v => do .ok (String.intercalate "," ((← elements v).map asText))

/-- The lines of a hint with parts. -/
def hintLines (fields : List (String × Json)) : Shaped (List String) := do
  let part (key : String) : List String :=
    match (Table.get? key fields).bind present with
    | some v => [fieldLine ("ai:" ++ key) v.asText]
    | none => []
  let examples ← match Table.get? "examples" fields with
    | some v =>
      if v.isGiven then (joined "," v).map fun t => [fieldLine "ai:examples" t] else .ok []
    | none => .ok []
  .ok (part "summary" ++ part "usage" ++ examples)

/-- The lines of one field. -/
def linesOf (key : String) (value : Json) : Shaped (List String) :=
  if key = "tags" then (joined "," value).map fun t => [fieldLine "tags" t]
  else if key = "deps" then
    (depsText value).map fun t => if t.isEmpty then [] else [fieldLine "deps" t]
  else
    match key, value with
    | "ai", .obj fields => hintLines fields
    | key, value => .ok [fieldLine key value.asText]

/-- The lines of a document of fields. -/
def documentLines (fields : List (String × Json)) : Shaped (List String) := do
  let lists ← Record.fieldNames.mapM fun key =>
    match (Table.get? key fields).bind present with
    | some v => linesOf key v
    | none => .ok []
  .ok lists.flatten

/-- Lines as a comment. -/
def comment (style : Style) (ls : List String) : String :=
  String.intercalate "\n" <|
    match style with
    | .hash => ls.map ("# " ++ ·)
    | .block => "/**" :: ls.map (" * " ++ ·) ++ [" */"]

/-- A document of fields as a comment. -/
def renderComment (style : Style) (fields : List (String × Json)) : Shaped String :=
  (documentLines fields).map (comment style)

end Marginalia.Writer
