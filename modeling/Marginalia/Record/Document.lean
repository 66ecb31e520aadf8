/-
  Marginalia/Record/Document.lean
  ===============================
  **Records as documents.**  Only fields that are given appear; a plain dependency
  list is a list, dependencies with kinds are an object of the non-empty ones.
-/
import Marginalia.Label
import Marginalia.Record.Basic

namespace Marginalia

/-- Dependencies as a value. -/
def Dependencies.toJson : Dependencies → Json
  | .flat targets => Json.strings targets
  | .classified b => .obj (Table.mapValues Json.strings (Dependencies.classified b).asTable)

/-- A hint whose parts are values. -/
def Hint.toJson : Hint Json → Json
  | .text s => .str s
  | .parts p =>
    Json.objOf [("summary", p.summary), ("usage", p.usage), ("examples", p.examples.map Json.arr)]

/-- The hint that a value stands for: a string, or an object whose parts are kept as they are;
examples count only if they are a list. -/
def Hint.ofJson? : Json → Option (Hint Json)
  | .str s => some (.text s)
  | .obj fields =>
    let part (key : String) := (Table.get? key fields).bind Json.present
    let examples := match Table.get? "examples" fields with
      | some (.arr items) => some items
      | _ => none
    some (.parts ⟨part "summary", part "usage", examples⟩)
  | _ => none

/-- The hint in one label: its text, or the summary part. -/
def Hint.summary? {α : Type} [Label α] : Hint α → Option α
  | .text s => some (Label.ofText s)
  | .parts p => p.summary

/-- The fields of a record that are given. -/
def Record.toJson (r : Record) : Json :=
  Json.objOf [
    ("id", r.id.map .str),
    ("name", r.name.map .str),
    ("desc", r.desc.map .str),
    ("tags", r.tags.map Json.strings),
    ("deps", r.deps.map Dependencies.toJson),
    ("ai", r.ai.map fun h => (h.map Json.str).toJson),
    ("visibility", r.visibility.map fun v => .str v.name),
    ("version", r.version.map .str),
    ("phase", r.phase.map .int),
    ("status", r.status.map fun s => .str s.name)]

end Marginalia
