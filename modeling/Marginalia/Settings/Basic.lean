/-
  Marginalia/Settings/Basic.lean
  ==============================
  **Settings.**  Every setting has a variable and a default.  The environment wins
  over an environment file, and that one over the defaults; the case of letters in
  names does not matter.  Reading reports all values that are not numbers, and
  checking reports all values that cannot be used.
-/
import Marginalia.Settings.EnvFile
import Marginalia.Text.LaxInt
import Marginalia.Validate.Rule
import Marginalia.Workspace.Basic

namespace Marginalia

open Marginalia.Text

/-- The settings. -/
structure Settings where
  appEnv : String := "dev"
  logLevel : String := "INFO"
  sourceDirs : String := "src,scripts"
  extensions : String := ".ts,.tsx,.js,.jsx,.vue,.py"
  exclude : String := "node_modules,dist,.git,.vite,coverage,__pycache__,.venv"
  /-- How many folders deep files may lie; zero sets no limit. -/
  maxDepth : Int := 0
  dbVersion : String := "2.0.0"
  outputDir : String := ".metamode"
  tokenBudget : Int := 4000
  maxEntries : Int := 100
  requiredFields : String := "id,desc"
  warnOnlyRules : String := ""
  /-- Unless zero, a target may name an id by its last path segment. -/
  segmentMatch : Int := 1
  deriving DecidableEq, Repr

/-- The items between commas, trimmed; empty ones are left out. -/
def commaItems (s : String) : List String :=
  ((splitString ',' s).map trimString).filter (!·.isEmpty)

namespace Settings

/-! ### Reading -/

/-- A letter of a variable name in lower case; the Kelvin sign is a k. -/
def lowerLetter (c : Char) : Char := if c.toNat == 0x212A then 'k' else c.toLower

/-- The name of a variable without regard to case. -/
def plainName (s : String) : String := String.ofList (s.toList.map lowerLetter)

/-- Values by plain name; of names that differ only in case the last one counts. -/
def byPlainName {α : Type} (t : Table String α) : Table String α :=
  Table.ofPairs (t.map fun (name, value) => (plainName name, value))

/-- The values given for variables: those of the environment, then those of the file. -/
structure Given where
  environment : Table String String
  file : Table String (Option String)

/-- The value given for a variable. -/
def Given.value? (g : Given) (name : String) : Option String :=
  match Table.get? (plainName name) (byPlainName g.environment) with
  | some value => some value
  | none => (Table.get? (plainName name) (byPlainName g.file)).join

/-- The text of a setting. -/
def Given.text (g : Given) (name start : String) : String := (g.value? name).getD start

/-- The number of a setting; the name and what is wrong if the value is not a number. -/
def Given.number (g : Given) (name : String) (start : Int) : Int × List (String × String) :=
  match g.value? name with
  | none => (start, [])
  | some value =>
    match laxInt value.toList with
    | .ok n => (n, [])
    | .error fault => (start, [(name, fault.laxMessage)])

/-- The settings that values give. -/
def ofGiven (g : Given) : Except Fault Settings :=
  let start : Settings := {}
  let (maxDepth, depthFault) := g.number "MM_MAX_DEPTH" start.maxDepth
  let (tokenBudget, budgetFault) := g.number "MM_TOKEN_BUDGET" start.tokenBudget
  let (maxEntries, entriesFault) := g.number "MM_MAX_ENTRIES" start.maxEntries
  let (segmentMatch, segmentFault) := g.number "MM_PATH_SEGMENT_MATCH" start.segmentMatch
  match depthFault ++ budgetFault ++ entriesFault ++ segmentFault with
  | [] =>
    .ok {
      appEnv := g.text "APP_ENV" start.appEnv
      logLevel := g.text "LOG_LEVEL" start.logLevel
      sourceDirs := g.text "MM_SOURCE_DIRS" start.sourceDirs
      extensions := g.text "MM_EXTENSIONS" start.extensions
      exclude := g.text "MM_EXCLUDE" start.exclude
      maxDepth
      dbVersion := g.text "MM_DB_VERSION" start.dbVersion
      outputDir := g.text "MM_OUTPUT_DIR" start.outputDir
      tokenBudget
      maxEntries
      requiredFields := g.text "MM_REQUIRED_FIELDS" start.requiredFields
      warnOnlyRules := g.text "MM_WARN_ONLY_RULES" start.warnOnlyRules
      segmentMatch }
  | faults => .error (.settingValues faults)

/-- The variables of all settings. -/
def variableNames : List String :=
  ["APP_ENV", "LOG_LEVEL", "MM_SOURCE_DIRS", "MM_EXTENSIONS", "MM_EXCLUDE", "MM_MAX_DEPTH",
   "MM_DB_VERSION", "MM_OUTPUT_DIR", "MM_TOKEN_BUDGET", "MM_MAX_ENTRIES", "MM_REQUIRED_FIELDS",
   "MM_WARN_ONLY_RULES", "MM_PATH_SEGMENT_MATCH"]

/-- The path of the environment file. -/
def envFile : Path := ⟨"", [".env"]⟩

/-- Reads the settings from the environment and the environment file. -/
def read (environment : Table String String) (w : Workspace) : Except Fault Settings := do
  let file ← match w.file? envFile with
    | some _ => w.readText envFile
    | none => .ok []
  ofGiven ⟨environment, EnvFile.values environment file⟩

/-! ### Checking -/

/-- The items of a list that are not known, reported under the name of a setting. -/
def unknownItems (name list : String) (known : List String) : List String :=
  match (commaItems list).filter (!known.contains ·) with
  | [] => []
  | unknown => [name ++ "(unknown: " ++ String.intercalate ", " unknown ++ ")"]

/-- A problem that is there under a condition. -/
def problemIf (p : Bool) (problem : String) : List String := if p then [problem] else []

/-- The settings that cannot be used. -/
def problems (s : Settings) : List String :=
  problemIf (s.tokenBudget ≤ 0) "MM_TOKEN_BUDGET(must be > 0)"
    ++ problemIf (s.maxEntries ≤ 0) "MM_MAX_ENTRIES(must be > 0)"
    ++ problemIf (s.maxDepth < 0) "MM_MAX_DEPTH(must be >= 0)"
    ++ problemIf (commaItems s.extensions).isEmpty "MM_EXTENSIONS(empty)"
    ++ unknownItems "MM_WARN_ONLY_RULES" s.warnOnlyRules (Validate.Rule.all.map Validate.Rule.name)
    ++ unknownItems "MM_REQUIRED_FIELDS" s.requiredFields Record.fieldNames

/-- Settings that can be used. -/
def check (s : Settings) : Except Fault Settings :=
  match s.problems with
  | [] => .ok s
  | found => .error (.settings found)

end Settings

end Marginalia
