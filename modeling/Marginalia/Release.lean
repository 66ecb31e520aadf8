/-
  Marginalia/Release.lean
  =======================
  **The production database.**  Internal entries and the fields that only matter
  in development are left out; graph and statistics are made anew from what is
  left.  It carries no time, so that the same input always gives the same text.
-/
import Marginalia.Database.Compile
import Marginalia.Database.Document
import Marginalia.Json.Printer

namespace Marginalia

variable {α κ : Type}

/-- An entry in production. -/
structure ReleasedEntry (α : Type) where
  id : String
  name : Option α
  desc : Option α
  tags : Option (List α)
  deps : Table String (List α)
  ai : Option α
  version : Option α
  phase : Option Int
  status : Option Status
  deriving DecidableEq, Repr

/-- The production database.  Its graph has edges between entries only, so their ends are ids. -/
structure Release (α : Type) where
  entries : Table String (ReleasedEntry α)
  ids : List String
  graph : DepGraph String
  total : Nat
  byStatus : Table String Nat
  byTag : Table α Nat
  version : String
  deriving DecidableEq, Repr

/-- The format that production databases are stored in. -/
def releaseFormat : String := "metamode-v2-prod"

/-- The production form of an entry; an internal one has none. -/
def Entry.stripped? [Label α] (e : Entry α) : Option (ReleasedEntry α) :=
  if e.visibility == some .internal then none
  else
    some {
      id := e.id
      name := e.name
      desc := e.desc
      tags := e.tags.filter (!·.isEmpty)
      deps := e.deps.filter fun p => !p.2.isEmpty
      ai := (e.ai.bind Hint.summary?).filter Label.isGiven
      version := e.version
      phase := e.phase
      status := e.status }

/-- The targets of one kind. -/
def ReleasedEntry.targets (e : ReleasedEntry α) (c : DepKind) : List α :=
  (Table.get? c.name e.deps).getD []

/-- The name under which the status is counted. -/
def ReleasedEntry.statusName (e : ReleasedEntry α) : String :=
  match e.status with
  | some s => s.name
  | none => noStatus

/-- The edges of an entry to other entries. -/
def ReleasedEntry.edges [Label α] (entries : Table String (ReleasedEntry α)) (id : String)
    (e : ReleasedEntry α) : List (Edge String) :=
  DepKind.all.flatMap fun c =>
    (((e.targets c).filterMap Label.text?).filter fun t => Table.has t entries).map fun t =>
      ⟨id, t, c⟩

/-- The graph of the entries that are left. -/
def survivingGraph [Label α] (entries : Table String (ReleasedEntry α)) : DepGraph String :=
  DepGraph.build (Table.keys entries) (entries.flatMap fun (id, e) => e.edges entries id)

/-- The entries that are left, in production form. -/
def Database.surviving [Label α] (db : Database α κ) : Table String (ReleasedEntry α) :=
  db.entries.filterMap fun (id, e) => e.stripped?.map (id, ·)

/-- The production database of a database. -/
def Database.release [BEq α] [Label α] (db : Database α κ) : Release α :=
  let entries := db.surviving
  { entries
    ids := Table.keys entries
    graph := survivingGraph entries
    total := entries.length
    byStatus := tallyAll ((Table.values entries).map ReleasedEntry.statusName)
    byTag := tallyAll ((Table.values entries).flatMap fun e => e.tags.getD [])
    version := db.build.version }

/-! ### Documents -/

/-- An entry as a value. -/
def ReleasedEntry.toJson [Label α] (e : ReleasedEntry α) : Json :=
  Json.objOf [
    ("id", some (.str e.id)),
    ("name", e.name.map Label.toJson),
    ("desc", e.desc.map Label.toJson),
    ("tags", e.tags.map Label.listJson),
    ("deps",
      if e.deps.isEmpty then none else some (.obj (Table.mapValues Label.listJson e.deps))),
    ("ai", e.ai.map Label.toJson),
    ("version", e.version.map Label.toJson),
    ("phase", e.phase.map .int),
    ("status", e.status.map fun s => .str s.name)]

/-- The statistics of a production database as a value. -/
def Release.statsJson [Label α] (p : Release α) : Json :=
  .obj [
    ("totalAnnotations", .nat p.total),
    ("byStatus", .obj (Table.mapValues Json.nat p.byStatus)),
    ("byTag", countsJson (Table.mapValues Json.nat p.byTag))]

/-- A production database as a document. -/
def Release.toJson [Label α] (p : Release α) : Json :=
  .obj [
    ("entries", .obj (Table.mapValues ReleasedEntry.toJson p.entries)),
    ("ids", Json.strings p.ids),
    ("graph", (p.graph.map Json.str).toJson),
    ("stats", p.statsJson),
    ("buildInfo", .obj [("version", .str p.version), ("format", .str releaseFormat)])]

/-- A document on one line without blanks. -/
def compactText (v : Json) : String := Json.render .compact v

/-! ### Sizes -/

/-- The sizes of a database and its production form in compact text. -/
structure SizeReport where
  devSize : Nat
  prodSize : Nat
  devEntries : Nat
  prodEntries : Nat
  deriving DecidableEq, Repr

/-- Compares sizes in bytes. -/
def sizeReport [Label α] (dev : Stored) (prod : Release α) : SizeReport where
  devSize := Text.utf8Size (compactText dev.toJson).toList
  prodSize := Text.utf8Size (compactText prod.toJson).toList
  devEntries := dev.entries.length
  prodEntries := prod.entries.length

/-- The bytes saved. -/
def SizeReport.saved (r : SizeReport) : Int := (r.devSize : Int) - r.prodSize

/-- The entries left out. -/
def SizeReport.removed (r : SizeReport) : Int := (r.devEntries : Int) - r.prodEntries

/-- The bytes saved in percent, in binary floating point. -/
def SizeReport.percent (r : SizeReport) : Binary64 :=
  if r.devSize = 0 then .finite false 0 0
  else (Binary64.ofQuotient r.saved r.devSize).mulNat 100

/-- A report as a value; the percentage has six places. -/
def SizeReport.toJson (r : SizeReport) : Json :=
  .obj [
    ("devSizeBytes", .nat r.devSize),
    ("prodSizeBytes", .nat r.prodSize),
    ("savedBytes", .int r.saved),
    ("reductionPercent", .str (String.ofList (r.percent.fixed 6))),
    ("devEntryCount", .nat r.devEntries),
    ("prodEntryCount", .nat r.prodEntries),
    ("internalEntriesRemoved", .int r.removed)]

/-- A report in words. -/
def SizeReport.text (r : SizeReport) : String :=
  String.intercalate "\n" [
    "Bundle Size Analysis:",
    "   Dev database:  " ++ Text.groupedInt r.devSize ++ " bytes (" ++ Text.showNat r.devEntries
      ++ " entries)",
    "   Prod database: " ++ Text.groupedInt r.prodSize ++ " bytes (" ++ Text.showNat r.prodEntries
      ++ " entries)",
    "   Saved:         " ++ Text.groupedInt r.saved ++ " bytes ("
      ++ String.ofList (r.percent.fixed 1) ++ "% reduction)",
    "   Internal removed: " ++ Text.showInt r.removed ++ " entries"]

end Marginalia
