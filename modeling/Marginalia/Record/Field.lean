/-
  Marginalia/Record/Field.lean
  ============================
  **Reading fields.**  A field is a key with a raw value.  Unknown keys, unknown
  names of choices and phases that do not start with a number change nothing; the
  one fault that stops reading is a phase with too many digits.
-/
import Marginalia.Literal.Fields
import Marginalia.Record.Basic
import Marginalia.Text.Case
import Marginalia.Text.Digit

namespace Marginalia

open Marginalia.Text Marginalia.Literal

/-- The fields that can be written, the parts of a hint among them. -/
inductive FieldKey where
  | id
  | name
  | desc
  | version
  | visibility
  | status
  | phase
  | tags
  | deps
  | ai
  | aiSummary
  | aiUsage
  | aiExamples
  deriving DecidableEq, Repr

/-- The spellings of every key, in lower case. -/
def FieldKey.spellings : List (String × FieldKey) :=
  [("id", .id), ("name", .name), ("desc", .desc), ("description", .desc), ("version", .version),
   ("ver", .version), ("visibility", .visibility), ("status", .status), ("phase", .phase),
   ("tags", .tags), ("deps", .deps), ("ai", .ai), ("ai:summary", .aiSummary),
   ("ai.summary", .aiSummary), ("ai:usage", .aiUsage), ("ai.usage", .aiUsage),
   ("ai:examples", .aiExamples), ("ai.examples", .aiExamples)]

/-- The field that a key names, in any letter case. -/
def FieldKey.ofText? (key : List Char) : Option FieldKey :=
  Table.get? (String.ofList (lower key)) FieldKey.spellings

/-! ### Values -/

/-- The items of a list as strings. -/
def listOf (value : List Char) : List String := (listItems value).map String.ofList

/-- An unquoted value as a string. -/
def scalarOf (value : List Char) : String := String.ofList (unquoted value)

/-- The kind named by a text. -/
def depKind? (cs : List Char) : Option DepKind := DepKind.ofName? (String.ofList cs)

/-- Dependencies written as an object of lists; an unknown kind counts as runtime. -/
def depsOfObject (literal : List Char) : Buckets :=
  (objectFields literal).foldl
    (fun b (key, value) => b.extend ((depKind? (lower key)).getD .runtime) (listOf value)) {}

/-- One item of a dependency list: its kind, if it is written as `kind:target`, and the target. -/
def depItem (item : List Char) : Option DepKind × String :=
  match cut? [':'] item with
  | some (before, after) =>
    match if before.isEmpty then none else depKind? (trim before) with
    | some c => (some c, String.ofList (trim after))
    | none => (none, String.ofList item)
  | none => (none, String.ofList item)

/-- Dependencies written as a list; it is plain as long as no item names a kind. -/
def depsOfItems (items : List (List Char)) : Dependencies :=
  let entries := items.map depItem
  let buckets := entries.foldl (fun b (c, target) => b.extend (c.getD .runtime) [target]) {}
  if entries.any (·.1.isSome) then .classified buckets else .flat buckets.runtime

/-- Dependencies written as an object or as a list. -/
def depsOfText (value : List Char) : Dependencies :=
  let t := trim value
  if startsWith ['{'] t then .classified (depsOfObject t) else depsOfItems (listItems t)

/-! ### Hints -/

/-- The parts of a hint so far; a text has none. -/
def partsOf : Option (Hint String) → HintParts String
  | some (.parts p) => p
  | _ => {}

/-- One field of a hint written as an object. -/
def HintParts.apply (p : HintParts String) (key value : List Char) : HintParts String :=
  let k := lower key
  if k = "summary".toList then { p with summary := some (scalarOf value) }
  else if k = "usage".toList then { p with usage := some (scalarOf value) }
  else if k = "examples".toList then { p with examples := some (listOf value) }
  else p

/-- What follows `summary:`, if anything does. -/
def summaryAfterMark? (cs : List Char) : Option (List Char) :=
  let mark := "summary:".toList
  if startsWith mark cs && mark.length < cs.length then some (cs.drop mark.length) else none

/-- A hint written under its own key: an object or a marked summary gives parts, and any other
value is a text unless there are parts already. -/
def applyHint (current : Option (Hint String)) (value : List Char) : Hint String :=
  if startsWith ['{'] (trim value) then
    .parts ((objectFields (trim value)).foldl (fun p (k, v) => p.apply k v) (partsOf current))
  else
    match summaryAfterMark? (unquoted value) with
    | some s => .parts { partsOf current with summary := some (String.ofList (trim s)) }
    | none =>
      match current with
      | some (.parts p) => .parts p
      | _ => .text (scalarOf value)

/-! ### Applying a field -/

/-- The record after one field. -/
def Record.apply (r : Record) (key : FieldKey) (value : List Char) : Except IntFault Record :=
  match key with
  | .id => .ok { r with id := some (scalarOf value) }
  | .name => .ok { r with name := some (scalarOf value) }
  | .desc => .ok { r with desc := some (scalarOf value) }
  | .version => .ok { r with version := some (scalarOf value) }
  | .visibility => .ok { r with visibility := Visibility.ofName? (scalarOf value) <|> r.visibility }
  | .status => .ok { r with status := Status.ofName? (scalarOf value) <|> r.status }
  | .phase => (leadingInt? (unquoted value)).map fun n => { r with phase := n <|> r.phase }
  | .tags => .ok { r with tags := some (listOf value) }
  | .deps => .ok { r with deps := some (depsOfText value) }
  | .ai => .ok { r with ai := some (applyHint r.ai value) }
  | .aiSummary =>
    .ok { r with ai := some (.parts { partsOf r.ai with summary := some (scalarOf value) }) }
  | .aiUsage =>
    .ok { r with ai := some (.parts { partsOf r.ai with usage := some (scalarOf value) }) }
  | .aiExamples =>
    .ok { r with ai := some (.parts { partsOf r.ai with examples := some (listOf value) }) }

/-- The record after one key and raw value; unknown keys change nothing. -/
def Record.writeField (r : Record) (key value : List Char) : Except IntFault Record :=
  match FieldKey.ofText? key with
  | some k => r.apply k value
  | none => .ok r

/-- The record after fields in order. -/
def Record.writeFields (r : Record) (fields : List (List Char × List Char)) :
    Except IntFault Record :=
  fields.foldlM (fun r (k, v) => r.writeField k v) r

/-- The record of an object literal. -/
def Record.ofObject (literal : List Char) : Except IntFault Record :=
  Record.empty.writeFields (objectFields literal)

end Marginalia
