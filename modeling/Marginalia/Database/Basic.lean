/-
  Marginalia/Database/Basic.lean
  ==============================
  **The annotation database.**  Entries by id, the graph of their dependencies,
  and statistics.  Everything that a stored document may hold loosely is a type
  parameter: `α` for labels such as tags and targets, `κ` for counts.  A compiled
  database has `String` and `Nat` there; a stored one is read with JSON values and
  keeps them as they are.
-/
import Marginalia.Label
import Marginalia.Record.Basic

namespace Marginalia

/-- One annotated entity. -/
structure Entry (α : Type) where
  id : String
  filePath : String
  line : Int
  origin : Origin
  name : Option α := none
  desc : Option α := none
  tags : Option (List α) := none
  /-- Targets by the name of their kind; empty when there are none. -/
  deps : Table String (List α) := []
  ai : Option (Hint α) := none
  visibility : Option Visibility := none
  version : Option α := none
  phase : Option Int := none
  status : Option Status := none
  entity : Option α := none
  deriving DecidableEq, Repr

/-- A node of the dependency graph: its targets by kind, and the nodes that name it. -/
structure Node (α : Type) where
  runtime : List α := []
  build : List α := []
  optional : List α := []
  dependents : List α := []
  deriving DecidableEq, Repr

/-- A dependency from one node to another. -/
structure Edge (α : Type) where
  source : α
  target : α
  kind : DepKind
  deriving DecidableEq, Repr

/-- The dependency graph. -/
structure DepGraph (α : Type) where
  nodes : Table String (Node α) := []
  edges : List (Edge α) := []
  deriving DecidableEq, Repr

/-- Counts over all entries. -/
structure Stats (α κ : Type) where
  total : Int := 0
  byStatus : Table α κ := []
  byVisibility : Table α κ := []
  byPhase : Table Int κ := []
  byTag : Table α κ := []
  /-- The nodes with the most dependents, with their number. -/
  top : List (α × Int) := []
  /-- Targets that no entry has as its id. -/
  orphaned : List α := []
  deriving DecidableEq, Repr

/-- Where a database comes from. -/
structure Build where
  timestamp : String
  version : String
  sourceFiles : Int
  format : String
  deriving DecidableEq, Repr

/-- A database of annotations. -/
structure Database (α κ : Type) where
  entries : Table String (Entry α)
  ids : List α
  graph : DepGraph α
  stats : Stats α κ
  build : Build
  deriving DecidableEq, Repr

/-- The format that databases are stored in. -/
def databaseFormat : String := "metamode-v2"

/-- The status under which entries without one are counted. -/
def noStatus : String := "unknown"

/-! ### Parts -/

/-- The targets of one kind. -/
def Entry.targets {α : Type} (e : Entry α) (c : DepKind) : List α :=
  (Table.get? c.name e.deps).getD []

/-- An entry without a declared visibility is public. -/
def Entry.visibilityOrPublic {α : Type} (e : Entry α) : Visibility :=
  e.visibility.getD .published

/-- The name under which the status is counted. -/
def Entry.statusName {α : Type} (e : Entry α) : String :=
  match e.status with
  | some s => s.name
  | none => noStatus

/-- The targets of one kind. -/
def Node.targets {α : Type} (n : Node α) : DepKind → List α
  | .runtime => n.runtime
  | .build => n.build
  | .optional => n.optional

/-- Adds a target after those of its kind. -/
def Node.addTarget {α : Type} (n : Node α) (c : DepKind) (target : α) : Node α :=
  match c with
  | .runtime => { n with runtime := n.runtime ++ [target] }
  | .build => { n with build := n.build ++ [target] }
  | .optional => { n with optional := n.optional ++ [target] }

/-- Adds a dependent at the end. -/
def Node.addDependent {α : Type} (n : Node α) (source : α) : Node α :=
  { n with dependents := n.dependents ++ [source] }

/-- For every node its targets of the given kinds, one kind after another. -/
def DepGraph.adjacency {α : Type} [Label α] (g : DepGraph α) (kinds : List DepKind) :
    Table α (List α) :=
  g.nodes.map fun (id, n) => (Label.ofText id, kinds.flatMap n.targets)

/-! ### Changing the kind of labels -/

variable {α β κ μ : Type}

def Entry.map (f : α → β) (e : Entry α) : Entry β where
  id := e.id
  filePath := e.filePath
  line := e.line
  origin := e.origin
  name := e.name.map f
  desc := e.desc.map f
  tags := e.tags.map (·.map f)
  deps := Table.mapValues (·.map f) e.deps
  ai := e.ai.map (·.map f)
  visibility := e.visibility
  version := e.version.map f
  phase := e.phase
  status := e.status
  entity := e.entity.map f

def Node.map (f : α → β) (n : Node α) : Node β :=
  ⟨n.runtime.map f, n.build.map f, n.optional.map f, n.dependents.map f⟩

def Edge.map (f : α → β) (e : Edge α) : Edge β := ⟨f e.source, f e.target, e.kind⟩

def DepGraph.map (f : α → β) (g : DepGraph α) : DepGraph β :=
  ⟨Table.mapValues (·.map f) g.nodes, g.edges.map (·.map f)⟩

def Stats.map (f : α → β) (g : κ → μ) (s : Stats α κ) : Stats β μ where
  total := s.total
  byStatus := s.byStatus.map fun (x, n) => (f x, g n)
  byVisibility := s.byVisibility.map fun (x, n) => (f x, g n)
  byPhase := Table.mapValues g s.byPhase
  byTag := s.byTag.map fun (x, n) => (f x, g n)
  top := s.top.map fun (x, n) => (f x, n)
  orphaned := s.orphaned.map f

def Database.map (f : α → β) (g : κ → μ) (db : Database α κ) : Database β μ where
  entries := Table.mapValues (·.map f) db.entries
  ids := db.ids.map f
  graph := db.graph.map f
  stats := db.stats.map f g
  build := db.build

end Marginalia
