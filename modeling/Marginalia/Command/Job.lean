/-
  Marginalia/Command/Job.lean
  ===========================
  **Jobs.**  A job works on files and says something.  What it has written and
  said before something stops it stays.
-/
import Marginalia.Text.Terminal
import Marginalia.Workspace.Basic

namespace Marginalia.Command

open Marginalia.Text

/-! ### Results -/

/-- What a command has to say. -/
structure Report where
  /-- Lines of output. -/
  out : List String := []
  /-- Lines of messages beside the output. -/
  err : List String := []
  /-- What the command failed of. -/
  failure : Option String := none

/-- How a run ends. -/
inductive Outcome where
  | finished (report : Report)
  /-- The command line cannot be used. -/
  | usage
  /-- Something that the command does not deal with stopped it after it had said this. -/
  | stopped (fault : Fault) (report : Report)

/-- The exit code of a run. -/
def Outcome.exitCode : Outcome → Nat
  | .finished report => if report.failure.isSome then 1 else 0
  | .usage => 2
  | .stopped _ _ => 1

/-- What a run has said. -/
def Outcome.report : Outcome → Report
  | .finished report => report
  | .usage => {}
  | .stopped _ report => report

/-- Lines, each with its end. -/
def joinLines (ls : List String) : String := String.join (ls.map (· ++ "\n"))

/-- The output of a run. -/
def Outcome.stdout (o : Outcome) : String := dropSequences (joinLines o.report.out)

/-- The messages of a run; what it failed of comes last. -/
def Outcome.stderr (o : Outcome) : String :=
  let failure := o.report.failure.toList.map fun m => "Error: " ++ m
  dropSequences (joinLines (o.report.err ++ failure))

/-! ### Jobs -/

/-- Work on files that also says something. -/
abbrev Job (α : Type) := ExceptT Fault (StateM (Workspace × Report)) α

namespace Job

/-- Changes what has been said. -/
def amend (f : Report → Report) : Job Unit := modify fun (w, report) => (w, f report)

/-- Puts lines out. -/
def say (lines : List String) : Job Unit := amend fun r => { r with out := r.out ++ lines }

/-- Puts lines beside the output. -/
def warn (lines : List String) : Job Unit := amend fun r => { r with err := r.err ++ lines }

/-- Says what the job failed of. -/
def fail (message : String) : Job Unit := amend fun r => { r with failure := some message }

/-- Does work on files that says nothing. -/
def doing {α : Type} (work : Work α) : Job α := do
  let (w, report) ← get
  let (result, w) := work.run w
  set (w, report)
  match result with
  | .ok a => pure a
  | .error fault => throw fault

/-- What reading the workspace gives. -/
def reading {α : Type} (f : Workspace → Except Fault α) : Job α := doing (Work.reading f)

end Job

end Marginalia.Command
