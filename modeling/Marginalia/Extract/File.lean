/-
  Marginalia/Extract/File.lean
  ============================
  **Annotations of a file.**  An embedded object is folded into the first comment
  for the same entity that has no object yet; fields of the object win.  Objects
  without such a comment stand on their own after the comments.
-/
import Marginalia.Extract.Embedded
import Marginalia.Extract.Part

namespace Marginalia.Extract

open Marginalia.Text

/-- A comment and an object for the same entity. -/
def belongTogether (comment object : Note) : Bool :=
  comment.origin == .comment && comment.entity?.isSome && comment.entity == object.entity

/-- The object with the fields of the comment filled in. -/
def fold (comment object : Note) : Note :=
  { object with record := comment.record.overriddenBy object.record, origin := .embedded }

/-- Folds an object into the first comment it belongs to, or puts it at the end. -/
def absorb (object : Note) : List Note → List Note
  | [] => [object]
  | a :: rest => if belongTogether a object then fold a object :: rest else a :: absorb object rest

/-- Comments with objects folded in. -/
def merge (comments objects : List Note) : List Note :=
  objects.foldl (fun merged object => absorb object merged) comments

/-- What the two passes find in one region. -/
def searchPart (r : Part) :
    Except IntFault (List Note × List Note × List String) := do
  let comments ← commentPass r.text r.offset
  let (objects, warnings) ← embeddedPass r.text r.offset
  .ok (comments, objects, warnings)

/-- The annotations and warnings of a file. -/
def extract (content path : String) : Except IntFault Extraction := do
  let found ← (scriptParts content.toList path.toList).mapM searchPart
  .ok {
    path
    annotations := merge (found.flatMap (·.1)) (found.flatMap (·.2.1))
    warnings := found.flatMap (·.2.2) }

end Marginalia.Extract
