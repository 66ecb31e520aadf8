/-
  Marginalia/Query/Find.lean
  ==========================
  **Looking up entries.**  Filters on status, visibility, phase and tags, the
  dependencies of an entry, and a check of the database as a whole.
-/
import Marginalia.Database.Compile
import Marginalia.Graph.Closure
import Marginalia.Graph.DepthFirst

namespace Marginalia

variable {α κ : Type}

/-! ### Filters -/

/-- What entries are looked for; an entry has to meet every condition given. -/
structure Filter (α : Type) where
  /-- Any of these statuses, by name; entries without one have the name of the unset status. -/
  statuses : Option (List String) := none
  visibility : Option Visibility := none
  /-- Any of these phases. -/
  phases : Option (List Int) := none
  /-- Any of these tags, if there are any. -/
  tags : List α := []

/-- The entry carries one of the tags. -/
def Entry.taggedWithAny [BEq α] (e : Entry α) (tags : List α) : Bool :=
  tags.any fun t => (e.tags.getD []).contains t

/-- The entry meets every condition. -/
def Filter.accepts [BEq α] (f : Filter α) (e : Entry α) : Bool :=
  (match f.statuses with
    | some names => names.contains e.statusName
    | none => true)
  && (match f.visibility with
    | some v => e.visibilityOrPublic == v
    | none => true)
  && (match f.phases with
    | some phases => e.phase.any phases.contains
    | none => true)
  && (f.tags.isEmpty || e.taggedWithAny f.tags)

namespace Database

/-- The entry with this id. -/
def entry? [Label α] (db : Database α κ) (id : α) : Option (Entry α) :=
  (Label.text? id).bind fun s => Table.get? s db.entries

/-- The entries that meet a filter, in order. -/
def matching [BEq α] (db : Database α κ) (f : Filter α) : List (Entry α) :=
  (Table.values db.entries).filter f.accepts

/-- The entries with a tag that meet a filter. -/
def tagged [BEq α] (db : Database α κ) (tag : α) (f : Filter α) : List (Entry α) :=
  db.matching { f with tags := [tag] }

/-! ### Dependencies -/

/-- For every entry its targets of the given kinds. -/
def declared [Label α] (db : Database α κ) (kinds : List DepKind) : Graph.Adjacency α :=
  db.entries.map fun (id, e) => (Label.ofText id, kinds.flatMap e.targets)

/-- The targets that an entry declares. -/
def dependenciesOf [BEq α] [Label α] (db : Database α κ) (kinds : List DepKind) (id : α) :
    List α :=
  Graph.targetsOf (db.declared kinds) id

/-- The ids that an entry needs, directly and through others, nearest first; never itself. -/
def allDependencies [BEq α] [Label α] (db : Database α κ) (kinds : List DepKind) (id : α) :
    List α :=
  Graph.reachable (db.declared kinds) id

/-- The nodes that name this one as a target. -/
def dependents [Label α] (db : Database α κ) (id : α) : List α :=
  match (Label.text? id).bind fun s => Table.get? s db.graph.nodes with
  | some n => n.dependents
  | none => []

/-- The runtime targets of every node; a target that is null ends those of its node. -/
def runtimeTargets [Label α] (db : Database α κ) : Graph.Adjacency α :=
  Table.mapValues (·.takeWhile Label.isPresent) (db.graph.adjacency [.runtime])

/-- The cycles of runtime dependencies. -/
def runtimeCycles [BEq α] [Label α] (db : Database α κ) : List (List α) :=
  Graph.cyclesOf db.runtimeTargets

/-- The first cycle of runtime dependencies through a node. -/
def runtimeCycleThrough [BEq α] [Label α] (db : Database α κ) (id : α) : Option (List α) :=
  Graph.cycleThrough db.runtimeTargets id

/-- In a database of texts no target ends those of its node. -/
theorem runtimeTargets_string (db : Database String κ) :
    db.runtimeTargets = db.graph.adjacency [.runtime] := by
  have h (l : List String) : l.takeWhile Label.isPresent = l := by
    induction l with
    | nil => rfl
    | cons s l ih => simp [List.takeWhile, ih]
  simp [runtimeTargets, Table.mapValues, h]

end Database

/-! ### Integrity -/

/-- What is wrong with a database as a whole. -/
structure Integrity where
  errors : List String
  warnings : List String
  deriving DecidableEq, Repr

/-- There is no error. -/
def Integrity.isSound (r : Integrity) : Bool := r.errors.isEmpty

/-- Checks a database: cycles are errors; targets without an entry and entries without a
description draw warnings. -/
def Database.integrity [BEq α] [Label α] (db : Database α κ) : Integrity where
  errors := db.runtimeCycles.map fun cycle =>
    "Circular runtime dependency: " ++ String.intercalate " → " (cycle.map Label.shown)
  warnings :=
    (db.stats.orphaned.map fun t =>
      "Dependency \"" ++ Label.shown t ++ "\" is referenced but has no @mm:id annotation.")
    ++ ((Table.values db.entries).filter fun e => !e.desc.any Label.isGiven).map fun e =>
      "Entry \"" ++ e.id ++ "\" is missing @mm:desc (" ++ e.filePath ++ ":"
        ++ Text.showInt e.line ++ ")"

end Marginalia
