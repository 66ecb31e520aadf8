/-
  Marginalia/Database/Document.lean
  =================================
  **Databases as documents.**  Writing leaves out what is not set.  Reading is
  lenient: it takes every value that can stand for the one it needs, keeps values
  it does not look into, and gives the fault of the first part that cannot be
  used, in the order entries, ids, graph, statistics, build information.
-/
import Marginalia.Database.Basic
import Marginalia.Json.Shape
import Marginalia.Record.Document

namespace Marginalia

open Marginalia.Json

/-- A database with the loose values of a stored document. -/
abbrev Stored := Database Json Json

/-- A database of texts and natural counts as it is stored. -/
def Database.stored (db : Database String Nat) : Stored := db.map Json.str Json.nat

/-! ### Writing -/

/-- An entry as a value. -/
def Entry.toJson (e : Entry Json) : Json :=
  Json.objOf [
    ("id", some (.str e.id)),
    ("name", e.name),
    ("desc", e.desc),
    ("tags", e.tags.map .arr),
    ("deps", if e.deps.isEmpty then none else some (.obj (Table.mapValues Json.arr e.deps))),
    ("ai", e.ai.map Hint.toJson),
    ("visibility", e.visibility.map fun v => .str v.name),
    ("version", e.version),
    ("phase", e.phase.map .int),
    ("status", e.status.map fun s => .str s.name),
    ("filePath", some (.str e.filePath)),
    ("line", some (.int e.line)),
    ("source", some (.str e.origin.name)),
    ("entityName", e.entity)]

/-- A node as a value. -/
def Node.toJson (id : String) (n : Node Json) : Json :=
  .obj [
    ("id", .str id),
    ("runtimeDeps", .arr n.runtime),
    ("buildDeps", .arr n.build),
    ("optionalDeps", .arr n.optional),
    ("dependents", .arr n.dependents)]

/-- An edge as a value. -/
def Edge.toJson (e : Edge Json) : Json :=
  .obj [("from", e.source), ("to", e.target), ("type", .str e.kind.name)]

/-- A graph as a value. -/
def DepGraph.toJson (g : DepGraph Json) : Json :=
  .obj [
    ("nodes", .obj (g.nodes.map fun (id, n) => (id, n.toJson id))),
    ("edges", .arr (g.edges.map Edge.toJson))]

/-- Counts as a value: labels become keys. -/
def countsJson {α : Type} [Label α] (counts : Table α Json) : Json :=
  .obj (counts.map fun (x, n) => (Label.keyText x, n))

/-- Statistics as a value. -/
def Stats.toJson (s : Stats Json Json) : Json :=
  .obj [
    ("totalAnnotations", .int s.total),
    ("byStatus", countsJson s.byStatus),
    ("byVisibility", countsJson s.byVisibility),
    ("byPhase", .obj (s.byPhase.map fun (phase, n) => (Text.showInt phase, n))),
    ("byTag", countsJson s.byTag),
    ("topDependencies",
      .arr (s.top.map fun (id, n) => .obj [("id", id), ("dependentCount", .int n)])),
    ("orphanedDependencies", .arr s.orphaned)]

/-- Build information as a value. -/
def Build.toJson (b : Build) : Json :=
  .obj [
    ("timestamp", .str b.timestamp),
    ("version", .str b.version),
    ("sourceFiles", .int b.sourceFiles),
    ("format", .str b.format)]

/-- A database as a document. -/
def Database.toJson (db : Stored) : Json :=
  .obj [
    ("entries", .obj (Table.mapValues Entry.toJson db.entries)),
    ("ids", .arr db.ids),
    ("graph", db.graph.toJson),
    ("stats", db.stats.toJson),
    ("buildInfo", db.build.toJson)]

/-! ### Reading -/

/-- A member that counts only if it is given. -/
def givenMember (key : String) (fields : List (String × Json)) : Option Json :=
  (Table.get? key fields).filter Json.isGiven

/-- A member that counts unless it is null. -/
def presentMember (key : String) (fields : List (String × Json)) : Option Json :=
  (Table.get? key fields).bind Json.present

/-- Reads an optional part. -/
def readOption {α : Type} (f : Json → Shaped α) : Option Json → Shaped (Option α)
  | none => .ok none
  | some v => (f v).map some

/-- Reads a list of values, empty when the member is missing. -/
def readList (key : String) (fields : List (String × Json)) : Shaped (List Json) :=
  elements ((Table.get? key fields).getD (.arr []))

/-- The entry of a value. -/
def Entry.ofJson (v : Json) : Shaped (Entry Json) := do
  let fields ← members v
  let id ← required "id" v
  let filePath ← required "filePath" v
  let line ← toInt (← required "line" v)
  let origin ← toChoice "Origin" Origin.ofName? (← required "source" v)
  let tags ← readOption elements (presentMember "tags" fields)
  let deps ← match givenMember "deps" fields with
    | none => .ok []
    | some d => (← members d).mapM fun (k, l) => (elements l).map (k, ·)
  let visibility ←
    readOption (toChoice "Visibility" Visibility.ofName?) (givenMember "visibility" fields)
  let phase ← readOption toInt (presentMember "phase" fields)
  let status ← readOption (toChoice "Status" Status.ofName?) (givenMember "status" fields)
  .ok {
    id := id.asText
    filePath := filePath.asText
    line
    origin
    name := presentMember "name" fields
    desc := presentMember "desc" fields
    tags
    deps
    ai := (Table.get? "ai" fields).bind Hint.ofJson?
    visibility
    version := presentMember "version" fields
    phase
    status
    entity := presentMember "entityName" fields }

/-- The node of a value. -/
def Node.ofJson (v : Json) : Shaped (Node Json) := do
  let fields ← members v
  .ok ⟨← readList "runtimeDeps" fields, ← readList "buildDeps" fields,
    ← readList "optionalDeps" fields, ← readList "dependents" fields⟩

/-- The edge of a value. -/
def Edge.ofJson (v : Json) : Shaped (Edge Json) := do
  .ok ⟨← required "from" v, ← required "to" v,
    ← toChoice "DepClass" DepKind.ofName? (← required "type" v)⟩

/-- The graph of a value. -/
def DepGraph.ofJson (v : Json) : Shaped (DepGraph Json) := do
  let fields ← members v
  let nodes ← (← members ((Table.get? "nodes" fields).getD (.obj []))).mapM
    fun (id, n) => (Node.ofJson n).map (id, ·)
  let edges ← (← readList "edges" fields).mapM Edge.ofJson
  .ok ⟨nodes, edges⟩

/-- The statistics of a value. -/
def Stats.ofJson (v : Json) : Shaped (Stats Json Json) := do
  let fields ← members v
  let table (key : String) := toTable ((Table.get? key fields).getD (.obj []))
  let total ← toInt ((Table.get? "totalAnnotations" fields).getD (.int 0))
  let byStatus ← table "byStatus"
  let byVisibility ← table "byVisibility"
  let phases ← (← members ((Table.get? "byPhase" fields).getD (.obj []))).mapM
    fun (phase, n) => (toInt (.str phase)).map (·, n)
  let byTag ← table "byTag"
  let top ← (← readList "topDependencies" fields).mapM fun item => do
    let id ← required "id" item
    let count ← toInt (← required "dependentCount" item)
    .ok (id, count)
  let orphaned ← readList "orphanedDependencies" fields
  .ok { total, byStatus, byVisibility, byPhase := Table.ofPairs phases, byTag, top, orphaned }

/-- The build information of a value. -/
def Build.ofJson (v : Json) : Shaped Build := do
  let fields ← members v
  let version ← required "version" v
  let sourceFiles ← toInt ((Table.get? "sourceFiles" fields).getD (.int 0))
  .ok {
    timestamp := ((Table.get? "timestamp" fields).getD (.str "")).asText
    version := version.asText
    sourceFiles
    format := ((Table.get? "format" fields).getD (.str databaseFormat)).asText }

/-- The database of a document. -/
def Database.ofJson (v : Json) : Shaped Stored := do
  let build ← required "buildInfo" v
  let entries ← (← members (← required "entries" v)).mapM
    fun (id, e) => (Entry.ofJson e).map (id, ·)
  let ids ← elements (← required "ids" v)
  let graph ← DepGraph.ofJson (← required "graph" v)
  let stats ← Stats.ofJson (← required "stats" v)
  .ok { entries, ids, graph, stats, build := ← Build.ofJson build }

end Marginalia
