/-
  Marginalia/Query/Export.lean
  ============================
  **Exports.**  Entries in short form, and the dependency graph as JSON or in the
  DOT language.
-/
import Marginalia.Database.Document
import Marginalia.Json.Printer
import Marginalia.Query.Find

namespace Marginalia

variable {α κ : Type}

/-- The fields of an entry. -/
def Entry.fields [Label α] (e : Entry α) : List (String × Json) :=
  match (e.map Label.toJson).toJson with
  | .obj fields => fields
  | _ => []

/-- The members with these names that a document has, in the order of the names. -/
def pick (names : List String) (fields : List (String × Json)) : List (String × Json) :=
  Table.ofPairs (names.filterMap fun n => (Table.get? n fields).map (n, ·))

/-! ### Entries -/

/-- The fields that the short form has of its own. -/
def shortFields : List String := ["id", "desc", "tags", "ai"]

/-- The short form of an entry: id, description, tags and a hint in one line as far as there are
any, and the further fields asked for. -/
def Entry.short [Label α] (e : Entry α) (wanted : List String) : Json :=
  let label (x : Option α) := (x.filter Label.isGiven).map Label.toJson
  let own := [
    ("id", some (Json.str e.id)),
    ("desc", label e.desc),
    ("tags", (e.tags.filter (!·.isEmpty)).map Label.listJson),
    ("ai", label (e.ai.bind Hint.summary?))].filterMap fun (k, v) => v.map (k, ·)
  .obj (own ++ pick (wanted.filter fun n => !shortFields.contains n) e.fields)

/-- How entries are exported. -/
structure ExportOptions (α : Type) where
  /-- Only entries with one of these tags, if there are any. -/
  scope : List α := []
  fields : List String := []
  /-- At most this many entries, if positive. -/
  limit : Option Int := none
  compact : Bool := true

/-- The exported form of an entry. -/
def Entry.exported [Label α] (o : ExportOptions α) (e : Entry α) : Json :=
  if o.compact then e.short o.fields
  else if o.fields.isEmpty then .obj e.fields
  else .obj (pick o.fields e.fields)

/-- The entries that an export takes. -/
def Database.exportedEntries [BEq α] (db : Database α κ) (o : ExportOptions α) :
    List (Entry α) :=
  let all := Table.values db.entries
  let inScope := if o.scope.isEmpty then all else all.filter (·.taggedWithAny o.scope)
  match o.limit with
  | some n => if 0 < n then inScope.take n.toNat else inScope
  | none => inScope

/-- The exported entries. -/
def Database.exportEntries [BEq α] [Label α] (db : Database α κ) (o : ExportOptions α) :
    List Json :=
  (db.exportedEntries o).map (Entry.exported o)

/-! ### The graph -/

/-- What a character becomes when a backslash is put before each `d`. -/
def slashed (d c : Char) : List Char := if c = d then ['\\', d] else [c]

/-- A text between double quotes in the DOT language: all backslashes are escaped first, then all
double quotes. -/
def dotString (s : String) : String :=
  String.ofList ('"' :: (s.toList.flatMap (slashed '\\')).flatMap (slashed '"') ++ ['"'])

/-- The colour of edges of a class. -/
def DepKind.colour : DepKind → String
  | .runtime => "black"
  | .build => "blue"
  | .optional => "gray"

/-- The name of the entry of a node, if it has one. -/
def Database.nodeName? [Label α] (db : Database α κ) (id : String) : Option α :=
  ((Table.get? id db.entries).bind Entry.name).filter Label.isGiven

/-- The statement of a node: its label is the name of its entry, if it has one. -/
def Database.dotNode [Label α] (db : Database α κ) (id : String) : String :=
  let label := ((db.nodeName? id).map Label.shown).getD id
  let shape :=
    if ((Table.get? id db.entries).bind Entry.visibility) == some .internal then "ellipse"
    else "box"
  "  " ++ dotString id ++ " [label=" ++ dotString label ++ " shape=" ++ shape ++ "];"

/-- The statement of an edge. -/
def Edge.dot [Label α] (e : Edge α) : String :=
  "  " ++ dotString (Label.shown e.source) ++ " -> " ++ dotString (Label.shown e.target)
    ++ " [color=" ++ e.kind.colour ++ " label=\"" ++ e.kind.name ++ "\"];"

/-- The edges of the given kinds. -/
def DepGraph.edgesOf (g : DepGraph α) (kinds : List DepKind) : List (Edge α) :=
  g.edges.filter fun e => kinds.contains e.kind

/-- The graph in the DOT language. -/
def Database.toDot [Label α] (db : Database α κ) (kinds : List DepKind) : String :=
  String.intercalate "\n" <|
    ["digraph MetaModeGraph \x7b", "  rankdir=LR;", "  node [shape=box];"]
      ++ (Table.keys db.graph.nodes).map db.dotNode
      ++ (db.graph.edgesOf kinds).map Edge.dot
      ++ ["\x7d"]

/-- The graph as JSON: node ids and edges. -/
def Database.graphJson [Label α] (db : Database α κ) (kinds : List DepKind) : Json :=
  .obj [
    ("nodes", Json.strings (Table.keys db.graph.nodes)),
    ("edges", .arr ((db.graph.edgesOf kinds).map fun e => (e.map Label.toJson).toJson))]

/-- The formats that graphs are written in. -/
inductive GraphFormat where
  | json
  | dot
  deriving DecidableEq, Repr

def GraphFormat.name : GraphFormat → String
  | .json => "json"
  | .dot => "dot"

def GraphFormat.all : List GraphFormat := [.json, .dot]

def GraphFormat.ofName? (s : String) : Option GraphFormat := GraphFormat.all.find? (·.name == s)

/-- The graph in a format, restricted to edges of the given kinds. -/
def Database.graphText [Label α] (db : Database α κ) (format : GraphFormat)
    (kinds : List DepKind) : String :=
  match format with
  | .json => Json.render .indentedAscii (db.graphJson kinds)
  | .dot => db.toDot kinds

end Marginalia
