/-
  Marginalia/Command/Basic.lean
  =============================
  **Commands.**  What a command line asks for.  Reading one checks that choices
  are known, numbers are numbers, and paths that are given name a file or a folder
  as the command needs it.
-/
import Marginalia.Command.Arguments
import Marginalia.Context.Agent
import Marginalia.Query.Export
import Marginalia.Table
import Marginalia.Validate.Rule
import Marginalia.Workspace.Basic

namespace Marginalia

open Marginalia.Text

/-- What `context` is asked for. -/
structure ContextRequest where
  agent : Context.Agent
  scope : List String
  ids : List String
  filePaths : List String
  format : Context.Format
  tokenBudget : Option Int
  includeDeps : Bool
  json : Bool
  output : Option Path

/-- The commands. -/
inductive Command where
  /-- Shows the annotations of a file or folder. -/
  | parse (path : Path) (json : Bool)
  /-- Compiles a project, and stores the database or shows its graph. -/
  | compile (root : Path) (stats : Bool) (graph : Option GraphFormat) (output : Option Path)
  /-- Checks a project. -/
  | validate (root : Path) (warnOnly : List String) (strict json : Bool)
  /-- Builds a prompt. -/
  | context (root : Path) (request : ContextRequest)
  /-- Drafts annotations for staged files. -/
  | precommit (root : Path) (files : List String)
  /-- Stores the production database. -/
  | optimize (root : Path) (stats : Bool) (output : Option Path)
  /-- Sums up a project. -/
  | status (root : Path)

namespace Command

/-- The names of commands. -/
inductive Name where
  | parse
  | compile
  | validate
  | context
  | precommit
  | optimize
  | status
  deriving DecidableEq, Repr

def Name.text : Name → String
  | .parse => "parse"
  | .compile => "compile"
  | .validate => "validate"
  | .context => "context"
  | .precommit => "precommit"
  | .optimize => "optimize"
  | .status => "status"

def Name.all : List Name := [.parse, .compile, .validate, .context, .precommit, .optimize, .status]

def Name.ofText? (s : String) : Option Name := Name.all.find? (·.text == s)

/-- The options of each command. -/
def Name.options : Name → List (String × Takes)
  | .parse => [("--json", .nothing)]
  | .compile =>
    [("--stats", .nothing), ("--graph", .nothing), ("--dot", .nothing), ("--output", .value)]
  | .validate => [("--warn-only", .value), ("--strict", .nothing), ("--json", .nothing)]
  | .context =>
    [("--agent", .value), ("--scope", .value), ("--ids", .value), ("--path", .value),
     ("--format", .value), ("--token-budget", .value), ("--no-deps", .nothing),
     ("--json", .nothing), ("--output", .value)]
  | .precommit => [("--root", .value)]
  | .optimize => [("--stats", .nothing), ("--output", .value)]
  | .status => []

/-! ### Checking values -/

/-- A path that must not name a file. -/
def folderPath? (w : Workspace) (s : String) : Option Path :=
  match w.findText s with
  | some (.file _) => none
  | _ => some (Path.ofString s)

/-- A path that must not name a folder. -/
def filePath? (w : Workspace) (s : String) : Option Path :=
  match w.findText s with
  | some (.folder _) => none
  | _ => some (Path.ofString s)

/-- A path that something must have. -/
def existingPath? (w : Workspace) (s : String) : Option Path :=
  (w.findText s).map fun _ => Path.ofString s

/-- Checks the last value of an option, if there is one. -/
def checked {α : Type} (check : String → Option α) (a : Arguments) (name : String) :
    Option (Option α) :=
  match a.last? name with
  | none => some none
  | some value => (check value).map some

/-- The only word, or the one that stands for it when there is none. -/
def oneWord? (start : String) (a : Arguments) : Option String :=
  match a.words with
  | [] => some start
  | [word] => some word
  | _ => none

/-- One of the known words. -/
def choice? (known : List String) (s : String) : Option String :=
  if known.contains s then some s else none

/-- A whole number. -/
def number? (s : String) : Option Int := (readInt s.toList).toOption

/-- The current directory. -/
def here : String := "."

/-- The root that a command works on. -/
def rootOf? (w : Workspace) (a : Arguments) : Option Path :=
  (oneWord? here a).bind (folderPath? w)

/-- The format of the last option that asks for the graph. -/
def graphFormat? (a : Arguments) : Option GraphFormat :=
  (a.options.filterMap fun (name, _) =>
    if name = "--graph" then some .json else if name = "--dot" then some .dot
    else none).getLast?

/-! ### Reading commands -/

/-- What `context` is asked for. -/
def contextRequest? (w : Workspace) (a : Arguments) : Option ContextRequest := do
  let agent ← checked Context.Agent.ofName? a "--agent"
  let format ← checked Context.Format.ofName? a "--format"
  let tokenBudget ← checked number? a "--token-budget"
  let output ← checked (filePath? w) a "--output"
  some {
    agent := agent.getD .generic
    scope := a.all "--scope"
    ids := a.all "--ids"
    filePaths := a.all "--path"
    format := format.getD .markdown
    tokenBudget
    includeDeps := !a.has "--no-deps"
    json := a.has "--json"
    output }

/-- The command of sorted arguments. -/
def ofArguments? (w : Workspace) (a : Arguments) : Name → Option Command
  | .parse => do
    some (.parse (← (oneWord? here a).bind (existingPath? w)) (a.has "--json"))
  | .compile => do
    some (.compile (← rootOf? w a) (a.has "--stats") (graphFormat? a)
      (← checked (folderPath? w) a "--output"))
  | .validate => do
    let warnOnly ← (a.all "--warn-only").mapM
      (choice? (Validate.Rule.all.map Validate.Rule.name))
    some (.validate (← rootOf? w a) warnOnly (a.has "--strict") (a.has "--json"))
  | .context => do some (.context (← rootOf? w a) (← contextRequest? w a))
  | .precommit => do
    let root ← checked (folderPath? w) a "--root"
    if a.words.isEmpty then none
    else some (.precommit (root.getD (Path.ofString here)) a.words)
  | .optimize => do
    some (.optimize (← rootOf? w a) (a.has "--stats") (← checked (filePath? w) a "--output"))
  | .status => do some (.status (← rootOf? w a))

/-- The command of a name and its arguments. -/
def ofStrings? (w : Workspace) (name : Name) (args : List String) : Option Command := do
  let a ← readArguments (fun option => Table.get? option name.options) args
  ofArguments? w a name

end Command

end Marginalia
