/-
  Marginalia/Context/Prompt.lean
  ==============================
  **Prompts.**  Entries are written in one of three formats between the preamble
  and the instruction of a template; entries at the end are left out until the
  prompt keeps within its budget or only one is left.
-/
import Marginalia.Context.Select
import Marginalia.Query.Export

namespace Marginalia.Context

open Marginalia.Text

variable {α κ : Type}

/-- About four characters are a token. -/
def tokenEstimate (text : String) : Nat := (text.length + 3) / 4

/-! ### Entries -/

/-- The fields that every entry of a prompt has. -/
def fixedFields : List String := ["id", "filePath", "line"]

/-- An entry of a prompt: the anchor fields, and the fields asked for that it has. -/
def contextEntry [Label α] (fields : List String) (e : Entry α) : List (String × Json) :=
  pick fixedFields e.fields ++ pick (fields.filter fun n => !fixedFields.contains n) e.fields

/-- A text that is there and not empty. -/
def textAt? (key : String) (fields : List (String × Json)) : Option String :=
  match Table.get? key fields with
  | some v => if v.isGiven then some v.asText else none
  | none => none

/-- The texts of a list. -/
def textsAt (key : String) (fields : List (String × Json)) : List String :=
  match Table.get? key fields with
  | some (.arr items) => items.map Json.asText
  | _ => []

/-- The members of an object. -/
def fieldsAt (key : String) (fields : List (String × Json)) : List (String × Json) :=
  match Table.get? key fields with
  | some (.obj members) => members
  | _ => []

/-- A value as it reads in a line. -/
def valueAt (key : String) (fields : List (String × Json)) : String :=
  ((Table.get? key fields).getD .null).asText

/-- One optional line or part. -/
def ifSome (v : Option String) (f : String → String) : List String :=
  match v with
  | some s => [f s]
  | none => []

/-- A line for a list that is not empty. -/
def ifAny (l : List String) (f : List String → String) : List String :=
  if l.isEmpty then [] else [f l]

/-- The lines of a hint. -/
def hintLines (fields : List (String × Json)) : List String :=
  match Table.get? "ai" fields with
  | some (.str s) => if s.isEmpty then [] else ["**AI**: " ++ s]
  | some (.obj parts) =>
    ifSome (textAt? "summary" parts) ("**AI Summary**: " ++ ·)
      ++ ifSome (textAt? "usage" parts) ("**Usage**: " ++ ·)
      ++ ifAny (textsAt "examples" parts) fun l => "**Examples**: " ++ String.intercalate "; " l
  | _ => []

/-- The non-empty dependency kinds. -/
def depsParts (fields : List (String × Json)) : List String :=
  let deps := fieldsAt "deps" fields
  DepKind.all.flatMap fun c =>
    ifAny (textsAt c.name deps) fun l => c.name ++ ": [" ++ String.intercalate ", " l ++ "]"

/-- An entry in the markdown format. -/
def markdownEntry (fields : List (String × Json)) : String :=
  let title := "### " ++ valueAt "id" fields ++
    match textAt? "name" fields with
    | some name => " - " ++ name
    | none => ""
  let phase := ((Table.get? "phase" fields).bind Json.present).map Json.asText
  let facts :=
    ifAny (textsAt "tags" fields) (fun l => "tags: " ++ String.intercalate ", " l)
      ++ ifSome (textAt? "status" fields) ("status: " ++ ·)
      ++ ifSome (textAt? "visibility" fields) ("visibility: " ++ ·)
      ++ ifSome phase ("phase: " ++ ·)
      ++ ["file: " ++ valueAt "filePath" fields ++ ":" ++ valueAt "line" fields]
  String.intercalate "\n" <|
    [title]
      ++ ifSome (textAt? "desc" fields) ("> " ++ ·)
      ++ ["*" ++ String.intercalate " | " facts ++ "*"]
      ++ hintLines fields
      ++ ifAny (depsParts fields) fun l => "**Deps**: " ++ String.intercalate " | " l

/-- An entry in the text format. -/
def textEntry (fields : List (String × Json)) : String :=
  String.intercalate " " <|
    ["[" ++ valueAt "id" fields ++ "]"]
      ++ ifSome (textAt? "desc" fields) (fun s => s)
      ++ ifAny (textsAt "tags" fields) (fun l => "(" ++ String.intercalate ", " l ++ ")")
      ++ ["@ " ++ valueAt "filePath" fields ++ ":" ++ valueAt "line" fields]

/-! ### The prompt -/

/-- The lines of the entries. -/
def bodyLines (format : Format) (entries : List (List (String × Json))) : List String :=
  match format with
  | .markdown =>
    ["## MetaMode Context", ""] ++ entries.flatMap fun e => [markdownEntry e, ""]
  | .json =>
    ["## MetaMode Context (JSON)", "", "\x60\x60\x60json",
      Json.render .indented (.arr (entries.map Json.obj)), "\x60\x60\x60", ""]
  | .text => ["MetaMode Context:"] ++ entries.map textEntry ++ [""]

/-- The prompt of entries. -/
def promptText (t : Template) (format : Format) (entries : List (List (String × Json))) :
    String :=
  String.intercalate "\n" <|
    (if t.preamble.isEmpty then [] else [t.preamble, ""])
      ++ bodyLines format entries
      ++ (if t.instruction.isEmpty then [] else ["## Instructions", "", t.instruction, ""])

/-- The greatest number up to `n` whose cost is within the budget, but at least one if `n` is. -/
def fitCount (cost : Nat → Nat) (budget : Int) : Nat → Nat
  | 0 => 0
  | 1 => 1
  | n + 2 => if budget < (cost (n + 2) : Int) then fitCount cost budget (n + 1) else n + 2

/-- A prompt and how it came about. -/
structure Built where
  agent : Agent
  entries : List (List (String × Json))
  prompt : String
  tokenCount : Nat
  wasTrimmed : Bool
  totalSelected : Nat
  totalInDb : Int
  depsAdded : Nat

/-- The fields that a prompt shows of its entries. -/
def Options.shownFields (o : Options α) : List String := o.fields.getD o.agent.template.fields

/-- Builds a prompt. -/
def build [BEq α] [Label α] (db : Database α κ) (o : Options α) : Built :=
  let (selected, depsAdded) := select db o
  let entries := selected.map (contextEntry o.shownFields)
  let prompt (n : Nat) := promptText o.agent.template o.format (entries.take n)
  let n := fitCount (fun n => tokenEstimate (prompt n)) o.tokenBudget entries.length
  { agent := o.agent
    entries := entries.take n
    prompt := prompt n
    tokenCount := tokenEstimate (prompt n)
    wasTrimmed := n < entries.length
    totalSelected := selected.length
    totalInDb := db.stats.total
    depsAdded }

/-- A prompt as a value. -/
def Built.toJson (b : Built) : Json :=
  .obj [
    ("agentType", .str b.agent.name),
    ("entries", .arr (b.entries.map Json.obj)),
    ("prompt", .str b.prompt),
    ("tokenCount", .nat b.tokenCount),
    ("wasTrimmed", .bool b.wasTrimmed),
    ("stats", .obj [
      ("totalSelected", .nat b.totalSelected),
      ("totalInDb", .int b.totalInDb),
      ("depsAdded", .nat b.depsAdded)])]

end Marginalia.Context
