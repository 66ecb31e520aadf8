/-
  Marginalia/Query/Request.lean
  =============================
  **Queries in loose form.**  The options of a query may be any values, and so may
  the labels of a loaded database.  Here the options are read, and a query whose
  labels cannot be used the way it needs them gives a fault instead of an answer:
  only scalars can be looked up, and only texts can be written in DOT.
-/
import Marginalia.Json.Options
import Marginalia.Query.Export
import Marginalia.Release

namespace Marginalia.Query

open Marginalia.Json

/-! ### Reading options -/

/-- The kinds that an option selects: all of them, or one. -/
def kindsOf (kind : Option Json) : Shaped (List DepKind) :=
  match kind.bind Json.present with
  | none => .ok DepKind.all
  | some (.str "all") => .ok DepKind.all
  | some v => (toChoice "DepClass" DepKind.ofName? v).map ([·])

/-- The filter that options describe. -/
def filterOf (options : Json.Options) : Shaped (Filter Json) := do
  let visibility ← match options.present? "visibility" with
    | some v => (toChoice "Visibility" Visibility.ofName? v).map some
    | none => .ok none
  let tags ← match options.present? "tags" with
    | some v => elements v
    | none => .ok []
  .ok {
    statuses := (options.present? "status").map fun v => (oneOrMany v).map Json.asText
    visibility
    phases := (options.present? "phase").map fun v => (oneOrMany v).filterMap Json.whole?
    tags }

/-- The greatest number of entries to be exported. -/
def limitOf (options : Json.Options) : Shaped (Option Int) :=
  match options.present? "limit" with
  | none => .ok none
  | some (.float x) =>
    match x with
    | .finite false m _ => if m = 0 then .ok none else .error .wrongKind
    | .infinite false => .error .wrongKind
    | _ => .ok none
  | some v => (toBound v).map some

/-! ### Entries and dependencies -/

/-- The entry with an id. -/
def find (db : Stored) (id : Json) : Shaped (Option (Entry Json)) := do
  .ok (db.entry? (← toKey id))

/-- The entries that meet the filter of the options. -/
def findAll (db : Stored) (options : Json.Options) : Shaped (List (Entry Json)) := do
  .ok (db.matching (← filterOf options))

/-- The entries with a tag that meet the filter of the options; tags are not given twice. -/
def findTagged (db : Stored) (tag : Json) (options : Json.Options) :
    Shaped (List (Entry Json)) := do
  if Table.has "tags" options then .error .wrongKind
  else .ok (db.tagged tag (← filterOf options))

/-- The dependencies of an entry, with those that it needs through others if asked for. -/
def dependencies (db : Stored) (id : Json) (options : Json.Options) : Shaped (List Json) := do
  let kinds ← kindsOf (Table.get? "class" options)
  let id ← toKey id
  if options.isOn "recursive" false then toKeys (db.allDependencies kinds id)
  else .ok (db.dependenciesOf kinds id)

/-- The nodes that name a node as a target. -/
def dependents (db : Stored) (id : Json) : Shaped (List Json) := do
  .ok (db.dependents (← toKey id))

/-- The targets of every node, of the kinds that a list names. -/
def adjacency (db : Stored) (kinds : List Json) : Shaped (Graph.Adjacency Json) := do
  .ok (db.graph.adjacency (← kinds.mapM (toChoice "DepClass" DepKind.ofName?)))

/-! ### Cycles and integrity -/

/-- Every runtime target can be looked up. -/
def checkTargets (db : Stored) : Shaped Unit := do
  let _ ← toKeys (Table.values db.runtimeTargets).flatten
  .ok ()

/-- The cycles of runtime dependencies. -/
def cycles (db : Stored) : Shaped (List (List Json)) := do
  checkTargets db
  .ok db.runtimeCycles

/-- The first cycle of runtime dependencies through a node. -/
def cycleThrough (db : Stored) (id : Json) : Shaped (Option (List Json)) := do
  checkTargets db
  .ok (db.runtimeCycleThrough id)

/-- The integrity of a database. -/
def integrity (db : Stored) : Shaped Integrity := do
  checkTargets db
  .ok db.integrity

/-! ### Exports -/

/-- Names of fields out of values, unless some entry is to be asked for one that is no key. -/
def fieldNames (names : List Json) (entries : List (Entry Json)) : Shaped (List String) := do
  let names ← if entries.isEmpty then .ok names else toKeys names
  .ok (names.filterMap Json.text?)

/-- The form that exported entries have unless another one is named. -/
def compactMode : String := "compact"

/-- The exported entries. -/
def exported (db : Stored) (options : Json.Options) : Shaped (List Json) := do
  let names ← options.givenList "fields"
  let mode := (Table.get? "mode" options).getD (.str compactMode)
  let o : ExportOptions Json := {
    scope := ← options.givenList "scope"
    limit := ← limitOf options
    compact := mode == .str compactMode }
  let fields ← fieldNames names (db.exportedEntries o)
  if o.compact || names.isEmpty || !fields.isEmpty then .ok (db.exportEntries { o with fields })
  else .ok ((db.exportedEntries o).map fun _ => .obj [])

/-- Every label that the graph shows in DOT is a text. -/
def isWritable (db : Stored) (kinds : List DepKind) : Bool :=
  (Table.keys db.graph.nodes).all (fun id => (db.nodeName? id).all fun x => x.text?.isSome)
    && (db.graph.edgesOf kinds).all fun e => e.source.text?.isSome && e.target.text?.isSome

/-- The graph in the format and of the kinds that the options name. -/
def graphText (db : Stored) (options : Json.Options) : Shaped String := do
  let kinds ← kindsOf (Table.get? "edge_class" options)
  let format := (Table.get? "fmt" options).getD (.str GraphFormat.json.name)
  match format.text?.bind GraphFormat.ofName? with
  | none => .error (.value (.graphFormat format.asText))
  | some .json => .ok (db.graphText .json kinds)
  | some .dot => if isWritable db kinds then .ok (db.graphText .dot kinds) else .error .noPart

/-! ### The production database -/

/-- The labels of an entry that a production database looks up. -/
def lookedUp (e : ReleasedEntry Json) : List Json :=
  DepKind.all.flatMap e.targets ++ e.tags.getD []

/-- The production database. -/
def release (db : Stored) : Shaped (Release Json) := do
  let _ ← toKeys ((Table.values db.surviving).flatMap lookedUp)
  .ok db.release

end Marginalia.Query
