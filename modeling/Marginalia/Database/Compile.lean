/-
  Marginalia/Database/Compile.lean
  ================================
  **Compiling.**  The annotations of all files become entries by id, a dependency
  graph and statistics.  Annotations without an id are left out; of several with
  one id the last one counts, at the place of the first.
-/
import Marginalia.Database.Basic
import Marginalia.Fault
import Marginalia.Path
import Marginalia.Text.Digit

namespace Marginalia

open Marginalia.Text

/-! ### Keys -/

/-- The key of an annotation: its id, else the name of its file with the entity or the line. -/
def Note.key (a : Note) (path : String) : String :=
  match a.record.id? with
  | some id => id
  | none =>
    match a.entity? with
    | some entity => Path.basename path ++ ":" ++ entity
    | none => Path.basename path ++ ":" ++ showInt a.line

/-- Every annotation of a corpus with the file it comes from. -/
def corpusAnnotations (corpus : List Extraction) : List (Note × String) :=
  corpus.flatMap fun x => x.annotations.map (·, x.path)

/-- The annotations of a corpus by key; a later one replaces an earlier one of the same key. -/
def annotationIndex (corpus : List Extraction) : Table String (Note × String) :=
  Table.ofPairs ((corpusAnnotations corpus).map fun (a, path) => (a.key path, (a, path)))

/-! ### Entries -/

/-- Where paths are taken from: the current directory, and the root of the project if paths are
shown relative to one. -/
structure Base where
  cwd : List String
  root : Option String := none

/-- The path of a file as entries show it: below the root if it lies there, else the way from the
root to it. -/
def Base.show (b : Base) (path : String) : Except ValueFault String :=
  let p := Path.ofString path
  match b.root with
  | none => .ok p.text
  | some root =>
    match p.relativeTo? (Path.ofString root) with
    | some q => .ok q.text
    | none => if path.isEmpty then .error .emptyPath else .ok (Path.wayFrom b.cwd path root).text

/-- The entry of an annotation. -/
def Note.entry (a : Note) (b : Base) (path : String) :
    Except ValueFault (Entry String) := do
  match a.record.id? with
  | none => .error .noId
  | some id =>
    let filePath ← b.show path
    .ok {
      id
      filePath
      line := a.line
      origin := a.origin
      name := a.record.name
      desc := a.record.desc
      tags := a.record.tags
      deps := (a.record.deps.map Dependencies.asTable).getD []
      ai := a.record.ai
      visibility := a.record.visibility
      version := a.record.version
      phase := a.record.phase
      status := a.record.status
      entity := a.entity }

/-- The entries of a corpus. -/
def compileEntries (b : Base) (corpus : List Extraction) :
    Except ValueFault (Table String (Entry String)) :=
  ((annotationIndex corpus).filter fun p => p.2.1.record.id?.isSome).mapM
    fun (key, a, path) => (a.entry b path).map (key, ·)

/-! ### The graph -/

/-- Adds a node without edges. -/
def DepGraph.withNode (g : DepGraph String) (id : String) : DepGraph String :=
  { g with nodes := Table.set id {} g.nodes }

/-- Adds an edge.  The target gains a dependent only if it is a node. -/
def DepGraph.withEdge (g : DepGraph String) (e : Edge String) : DepGraph String :=
  let nodes := Table.update e.source {} (·.addTarget e.kind e.target) g.nodes
  { nodes :=
      if Table.has e.target nodes then Table.update e.target {} (·.addDependent e.source) nodes
      else nodes
    edges := g.edges ++ [e] }

/-- The edges that an entry declares, kind by kind. -/
def entryEdges (id : String) (e : Entry String) : List (Edge String) :=
  DepKind.all.flatMap fun c => (e.targets c).map fun t => ⟨id, t, c⟩

/-- The graph of nodes and edges. -/
def DepGraph.build (ids : List String) (edges : List (Edge String)) : DepGraph String :=
  edges.foldl DepGraph.withEdge (ids.foldl DepGraph.withNode {})

/-- The graph of all declared dependencies. -/
def declaredGraph (entries : Table String (Entry String)) : DepGraph String :=
  DepGraph.build (Table.keys entries) (entries.flatMap fun (id, e) => entryEdges id e)

/-! ### Statistics -/

/-- Counts one more under a key. -/
def tally {κ : Type} [BEq κ] (key : κ) (counts : Table κ Nat) : Table κ Nat :=
  Table.update key 0 (· + 1) counts

/-- The number of times that each key occurs, keys in order of their first occurrence. -/
def tallyAll {κ : Type} [BEq κ] (keys : List κ) : Table κ Nat :=
  keys.foldl (fun counts key => tally key counts) []

/-- How many of the nodes with the most dependents are listed. -/
def topLimit : Nat := 10

/-- The nodes with dependents, those with most first, ties in node order. -/
def topDependencies (g : DepGraph String) : List (String × Int) :=
  let counts := (g.nodes.filter fun p => !p.2.dependents.isEmpty).map
    fun (id, n) => (id, (n.dependents.length : Int))
  (counts.mergeSort fun a b => b.2 ≤ a.2).take topLimit

/-- The targets that are not ids, each once, in order of their first edge. -/
def orphanedTargets (entries : Table String (Entry String)) (edges : List (Edge String)) :
    List String :=
  edges.foldl
    (fun found e =>
      if Table.has e.target entries || found.contains e.target then found else found ++ [e.target])
    []

/-- The statistics of entries and their graph. -/
def statistics (entries : Table String (Entry String)) (g : DepGraph String) :
    Stats String Nat :=
  let all := Table.values entries
  { total := entries.length
    byStatus := tallyAll (all.map Entry.statusName)
    byVisibility := tallyAll (all.map fun e => e.visibilityOrPublic.name)
    byPhase := tallyAll (all.filterMap Entry.phase)
    byTag := tallyAll (all.flatMap fun e => e.tags.getD [])
    top := topDependencies g
    orphaned := orphanedTargets entries g.edges }

/-! ### The database -/

/-- The version given to databases when none is set. -/
def defaultVersion : String := "2.0.0"

/-- A database of texts with natural counts. -/
abbrev Compiled := Database String Nat

/-- Version and time of a compilation. -/
structure Stamp where
  version : String := defaultVersion
  timestamp : String

/-- The database of a corpus. -/
def compile (b : Base) (stamp : Stamp) (corpus : List Extraction) : Except ValueFault Compiled := do
  let entries ← compileEntries b corpus
  let graph := declaredGraph entries
  .ok {
    entries
    ids := Table.keys entries
    graph
    stats := statistics entries graph
    build := ⟨stamp.timestamp, stamp.version, corpus.length, databaseFormat⟩ }

end Marginalia
