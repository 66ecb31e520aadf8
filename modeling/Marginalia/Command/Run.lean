/-
  Marginalia/Command/Run.lean
  ===========================
  **Running commands.**  A command reads the workspace, may write files into it,
  and gives lines of output and messages.  The name of the command is looked at
  first, then the settings, then the arguments of the command.
-/
import Marginalia.Archive
import Marginalia.Command.Basic
import Marginalia.Command.Job
import Marginalia.Context.Prompt
import Marginalia.Draft
import Marginalia.Log
import Marginalia.Release
import Marginalia.Settings.Basic
import Marginalia.Validate.Report
import Marginalia.Workspace.Search

namespace Marginalia.Command

open Marginalia.Text

/-! ### Surroundings -/

/-- What a run knows of its surroundings besides the files. -/
structure Session where
  environment : Table String String
  /-- The time to write into databases. -/
  now : String

/-- Settings and time of a run. -/
structure Setup where
  settings : Settings
  now : String

/-! ### Projects -/

/-- The search that settings ask for. -/
def search (s : Settings) : Search where
  extensions := commaItems s.extensions
  exclude := commaItems s.exclude
  maxDepth := if s.maxDepth = 0 then none else some s.maxDepth

/-- The annotated files of a project. -/
def scanned (u : Setup) (root : Path) : Job (List Extraction) :=
  Job.reading fun w => w.searchProject (search u.settings) root (commaItems u.settings.sourceDirs)

/-- The annotated files of a project and its database. -/
def compiled (u : Setup) (root : Path) : Job (List Extraction × Compiled) :=
  Job.reading fun w =>
    w.compileSources (search u.settings) ⟨u.settings.dbVersion, u.now⟩ root
      (commaItems u.settings.sourceDirs)

/-- The folder that settings put databases into. -/
def outputFolder (u : Setup) (root : Path) : Path := root.join (Path.ofString u.settings.outputDir)

/-- The warnings of files. -/
def warningLines (files : List Extraction) : List String :=
  files.flatMap fun x => x.warnings.map fun message => "warning: " ++ x.path ++ ": " ++ message

/-! ### The commands -/

/-- An annotation of a listing in JSON. -/
def noteJson (a : Note) : Json :=
  .obj [
    ("annotation", a.record.toJson),
    ("source", .str a.origin.name),
    ("line", .int a.line),
    ("entityName", Json.ofOption (a.entity.map .str))]

/-- A file of a listing in JSON. -/
def fileJson (x : Extraction) : Json :=
  .obj [
    ("filePath", .str x.path),
    ("annotations", .arr (x.annotations.map noteJson)),
    ("warnings", Json.strings x.warnings)]

/-- An annotation of a listing. -/
def noteLine (a : Note) : String :=
  "  line " ++ showInt a.line ++ ": " ++ ((a.record.id? <|> a.entity?).getD "-") ++ " ["
    ++ a.origin.name ++ "] " ++ a.record.desc.getD ""

/-- A file of a listing. -/
def fileListing (x : Extraction) : List String :=
  (x.path ++ ": " ++ showNat x.annotations.length ++ " annotation(s)") :: x.annotations.map noteLine

/-- Lists the annotations of a file or of the files below a folder. -/
def runParse (u : Setup) (path : Path) (json : Bool) : Job Unit := do
  let files ← Job.reading fun w =>
    if w.isFolder path then w.searchFolder (search u.settings) path
    else (w.extractFile path.text).map ([·])
  if json then Job.say [Json.render .indented (.arr (files.map fileJson))]
  else
    Job.warn (warningLines files)
    Job.say (files.flatMap fileListing)

/-- Compiles a project. -/
def runCompile (u : Setup) (root : Path) (stats : Bool) (graph : Option GraphFormat)
    (output : Option Path) : Job Unit := do
  let (files, db) ← compiled u root
  Job.warn (warningLines files)
  match graph with
  | some format => Job.say [db.graphText format DepKind.all]
  | none =>
    let (database, digest) ←
      Job.doing (Archive.write db.stored (output.getD (outputFolder u root)))
    Job.say <|
      ["database: " ++ database.text,
        "sha256: " ++ digest.text,
        "annotations: " ++ showInt db.stats.total ++ " from " ++ showNat files.length
          ++ " file(s)",
        "edges: " ++ showNat db.graph.edges.length]
        ++ (if stats then [Json.render .indentedAscii db.stored.stats.toJson] else [])
    Job.warn (db.runtimeCycles.map fun cycle => "cycle: " ++ String.intercalate " → " cycle)

/-- Checks a project. -/
def runValidate (u : Setup) (root : Path) (warnOnly : List String) (strict json : Bool) :
    Job Unit := do
  let files ← scanned u root
  let result := Validate.check {
    warnOnly := commaItems u.settings.warnOnlyRules ++ warnOnly
    requiredFields := commaItems u.settings.requiredFields
    bySegment := u.settings.segmentMatch ≠ 0 } files
  Job.say [if json then Json.render .indented result.toJson else result.report]
  if strict && !result.passes then
    Job.fail ("validation failed with " ++ showNat result.errors.length ++ " error(s)")

/-- Builds a prompt. -/
def runContext (u : Setup) (root : Path) (request : ContextRequest) : Job Unit := do
  if request.tokenBudget.any (· ≤ 0) then Job.fail "--token-budget must be > 0"
  else
    let budget := request.tokenBudget.getD u.settings.tokenBudget
    let (_, db) ← compiled u root
    let built := Context.build db {
      agent := request.agent
      scope := request.scope
      ids := request.ids
      filePaths := request.filePaths
      includeDeps := request.includeDeps
      format := request.format
      maxEntries := some u.settings.maxEntries
      tokenBudget := budget }
    let text := if request.json then Json.render .indented built.toJson else built.prompt
    let shown := showNat built.entries.length
    match request.output with
    | none => Job.say [text]
    | some path =>
      Job.doing (Work.makeFolder path.parent)
      Job.doing (Work.writeText path (text ++ "\n"))
      Job.say
        ["context: " ++ path.text ++ " (" ++ shown ++ " entries, ~" ++ showNat built.tokenCount
          ++ " tokens)"]
    if built.wasTrimmed then
      Job.warn
        ["trimmed to " ++ shown ++ " of " ++ showNat built.totalSelected ++ " entries for a "
          ++ showInt budget ++ " token budget"]

/-- Drafts annotations for staged files. -/
def runPrecommit (u : Setup) (root : Path) (files : List String) : Job Unit := do
  let (_, db) ← compiled u root
  let (w, _) ← get
  match Draft.missingAnnotations db w.cwd root.text files with
  | [] => Job.say ["all staged source files are annotated"]
  | missing =>
    Job.say <|
      (showNat missing.length ++ " file(s) without annotations:")
        :: missing.flatMap fun m => ["", m.path ++ ":", m.draft]

/-- Stores the production database. -/
def runOptimize (u : Setup) (root : Path) (stats : Bool) (output : Option Path) : Job Unit := do
  let (_, db) ← compiled u root
  let prod := db.release
  let target := output.getD (Archive.fileIn (outputFolder u root) Archive.releaseName)
  Job.doing (Work.makeFolder target.parent)
  Job.doing (Work.writeText target (compactText prod.toJson))
  Job.say <|
    ["production database: " ++ target.text, (sizeReport db.stored prod).text]
      ++ (if stats then [Json.render .indentedAscii prod.statsJson] else [])

/-- The state of the stored database. -/
def databaseState (w : Workspace) (folder : Path) : Except Fault String := do
  if w.hasPath (Archive.fileIn folder Archive.databaseName) then
    .ok (if ← Archive.verify w folder then "ok" else "digest mismatch")
  else .ok "missing"

/-- Counts in the order of their names. -/
def sortedCounts (t : Table String Nat) : Json :=
  .obj (Table.mapValues Json.nat (t.mergeSort fun a b => a.1 ≤ b.1))

/-- Sums up a project. -/
def runStatus (u : Setup) (root : Path) : Job Unit := do
  let (files, db) ← compiled u root
  let integrity := db.integrity
  Job.say
    ["files: " ++ showNat files.length,
      "annotations: " ++ showInt db.stats.total,
      "edges: " ++ showNat db.graph.edges.length,
      "by status: " ++ Json.render .spacedAscii (sortedCounts db.stats.byStatus),
      "orphaned dependencies: " ++ showNat db.stats.orphaned.length,
      "cycles: " ++ showNat db.runtimeCycles.length,
      "integrity: " ++ (if integrity.isSound then "ok" else "errors")]
  let state ← Job.reading fun w => databaseState w (outputFolder u root)
  Job.say <|
    ("stored database: " ++ state) :: (integrity.errors.map ("  error: " ++ ·))
      ++ integrity.warnings.map ("  warning: " ++ ·)

/-- Runs a command. -/
def run (u : Setup) : Command → Job Unit
  | .parse path json => runParse u path json
  | .compile root stats graph output => runCompile u root stats graph output
  | .validate root warnOnly strict json => runValidate u root warnOnly strict json
  | .context root request => runContext u root request
  | .precommit root files => runPrecommit u root files
  | .optimize root stats output => runOptimize u root stats output
  | .status root => runStatus u root

/-! ### Command lines -/

/-- The outcome of a fault: a root that is not there and settings that cannot be used are reported,
anything else stops the run. -/
def faultOutcome (fault : Fault) (said : Report) : Outcome :=
  match fault with
  | .noProjectRoot _ => .finished { said with failure := fault.message? }
  | .settings _ => .finished { said with failure := fault.message? }
  | _ => .stopped fault said

/-- The name of the command and its arguments; two dashes may stand in front. -/
def split : List String → Option (String × List String)
  | [] => none
  | arg :: rest =>
    if arg = "--" then
      match rest with
      | [] => none
      | name :: rest => some (name, rest)
    else some (arg, rest)

/-- The settings of a run; their level of messages has to be one. -/
def settingsOf (s : Session) (w : Workspace) : Except Fault Settings := do
  let settings ← (← Settings.read s.environment w).check
  let _ ← (Log.levelOf settings.logLevel).mapError Fault.shape
  .ok settings

/-- Runs a command of a known name. -/
def runNamed (s : Session) (name : Name) (args : List String) (w : Workspace) :
    Outcome × Workspace :=
  match settingsOf s w with
  | .error fault => (faultOutcome fault {}, w)
  | .ok settings =>
    match ofStrings? w name args with
    | none => (.usage, w)
    | some command =>
      match (run ⟨settings, s.now⟩ command).run.run (w, {}) with
      | (.ok _, (w, said)) => (.finished said, w)
      | (.error fault, (w, said)) => (faultOutcome fault said, w)

/-- Runs a command line. -/
def runLine (s : Session) (args : List String) (w : Workspace) : Outcome × Workspace :=
  match split args with
  | none => (.usage, w)
  | some (name, args) =>
    match Name.ofText? name with
    | none => (.usage, w)
    | some name => runNamed s name args w

end Marginalia.Command
