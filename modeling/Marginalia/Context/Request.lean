/-
  Marginalia/Context/Request.lean
  ===============================
  **Prompts in loose form.**  The options of a prompt may be any values, and so
  may the labels of a loaded database.  Faults come in the order of the work: the
  assistant, the selection, the fields, the format, the entries, the budget.
-/
import Marginalia.Context.Prompt
import Marginalia.Query.Request

namespace Marginalia.Context.Request

open Marginalia.Json
open Marginalia.Query (fieldNames)

/-- The greatest number of entries; null sets no limit. -/
def maxEntriesOf (options : Json.Options) : Shaped (Option Int) :=
  match Table.get? "maxEntries" options with
  | none => .ok ({} : Options Json).maxEntries
  | some .null => .ok none
  | some v => (toBound v).map some

/-- More tokens than any prompt has. -/
def boundlessBudget : Int := 0x10000000000000000

/-- The token budget.  Of a number with a fraction only the whole part matters, and nothing goes
beyond what is infinite or no number. -/
def budgetOf (options : Json.Options) : Shaped Int :=
  match Table.get? "tokenBudget" options with
  | none => .ok ({} : Options Json).tokenBudget
  | some (.float x) =>
    match x with
    | .infinite true => .ok (-1)
    | .finite s m e =>
      match Binary64.truncate? (.finite s m e) with
      | some n => .ok (if s && n = 0 && m ≠ 0 then -1 else n)
      | none => .ok boundlessBudget
    | _ => .ok boundlessBudget
  | some v => toBound v

/-! ### Checks -/

/-- Looking for these parts in the path of an entry meets only texts before it finds one. -/
def canSearch (fragments : List Json) (e : Entry Json) : Bool :=
  (fragments.takeWhile fun f => !f.text?.any (pathHolds e)).all fun f => f.text?.isSome

/-- The runtime targets of every selected entry and of all that they need. -/
def followedTargets (db : Stored) (start : List (Entry Json)) : List Json :=
  let ids := start.map (fun e => Json.str e.id) ++ needed db start
  ids.flatMap (db.dependenciesOf [.runtime])

/-- The selection can be made. -/
def checkSelection (db : Stored) (o : Options Json) (fragments : List Json) : Shaped Unit := do
  let _ ← toKeys o.ids
  let byPath := o.ids.isEmpty && o.scope.isEmpty
  if byPath && !(Table.values db.entries).all (canSearch fragments) then .error .wrongKind
  let _ ← toKeys (if o.includeDeps then followedTargets db (initialSelection db o) else [])
  .ok ()

/-- Every element of a list is a text. -/
def isTexts (key : String) (fields : List (String × Json)) : Bool :=
  match Table.get? key fields with
  | some (.arr items) => items.all fun v => v.text?.isSome
  | _ => true

/-- A member is a text if it is given. -/
def isTextIfGiven (key : String) (fields : List (String × Json)) : Bool :=
  match Table.get? key fields with
  | some v => !v.isGiven || v.text?.isSome
  | none => true

/-- An entry can be written in a format: what is joined into a line consists of texts. -/
def isWritable (format : Format) (fields : List (String × Json)) : Bool :=
  match format with
  | .markdown =>
    isTexts "tags" fields && isTexts "examples" (fieldsAt "ai" fields)
      && DepKind.all.all fun c => isTexts c.name (fieldsAt "deps" fields)
  | .json => true
  | .text => isTextIfGiven "desc" fields && isTexts "tags" fields

/-- The format that options name. -/
def formatOf (options : Json.Options) : Shaped Format :=
  match Table.get? "format" options with
  | some v => toChoice "ContextFormat" Format.ofName? v
  | none => .ok ({} : Options Json).format

/-- The fields that options name, if they name any. -/
def fieldsOf (options : Json.Options) : Shaped (Option (List Json)) :=
  match options.present? "fields" with
  | some v => (elements v).map some
  | none => .ok none

/-! ### Answers -/

/-- The options as far as the selection needs them. -/
def selectionOf (agent : Agent) (options : Json.Options) : Shaped (Options Json) := do
  .ok {
    agent
    scope := ← options.list "scope" []
    ids := ← options.list "ids" []
    filePaths := (← options.list "filePaths" []).filterMap Json.text?
    includeDeps := options.isOn "includeDeps" true
    maxEntries := ← maxEntriesOf options }

/-- The options of a prompt for an assistant, unless the prompt cannot be built. -/
def optionsOf (db : Stored) (agent : Agent) (options : Json.Options) : Shaped (Options Json) := do
  let o ← selectionOf agent options
  checkSelection db o (← options.list "filePaths" [])
  let (selected, _) := select db o
  let fields ← match ← fieldsOf options with
    | some names => (fieldNames names selected).map some
    | none => .ok none
  let format ← formatOf options
  let o := { o with fields, format }
  if !selected.all (fun e => isWritable format (contextEntry o.shownFields e)) then
    .error .wrongKind
  .ok { o with tokenBudget := ← budgetOf options }

/-- The prompt for an assistant and options given as values. -/
def answer (db : Stored) (agent : Json) (options : Json.Options) : Except Fault Built := do
  let agent ← Agent.ofJson agent
  .ok (build db (← (optionsOf db agent options).mapError Fault.shape))

end Marginalia.Context.Request
