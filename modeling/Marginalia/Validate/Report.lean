/-
  Marginalia/Validate/Report.lean
  ===============================
  **Validation.**  The enabled rules run in a fixed order; issues of rules that
  only warn are downgraded.  Validation passes when no error is left.
-/
import Marginalia.Validate.Rule

namespace Marginalia.Validate

open Marginalia.Text

/-- What is validated and how. -/
structure Options where
  /-- Names of the rules that run. -/
  rules : List String := Rule.all.map Rule.name
  /-- Names of the rules whose issues are warnings. -/
  warnOnly : List String := []
  requiredFields : List String := ["id", "desc"]
  includeWarnings : Bool := true
  /-- A target may name an id by its last path segment. -/
  bySegment : Bool := true

/-- The issues that are left. -/
structure Result where
  errors : List Issue
  warnings : List Issue
  deriving DecidableEq, Repr

/-- There is no error. -/
def Result.passes (r : Result) : Bool := r.errors.isEmpty

/-- The issues of one rule. -/
def runRule (o : Options) (corpus : List Extraction) : Rule → List Issue
  | .uniqueIds => duplicateIdIssues (indexed corpus)
  | .depsExist => unknownTargetIssues o.bySegment (indexed corpus)
  | .noCycles => cycleIssues (indexed corpus)
  | .requiredFields => missingFieldIssues o.requiredFields corpus
  | .visibility => visibilityIssues o.bySegment (indexed corpus)
  | .schema => schemaIssues corpus

/-- An issue of a rule that only warns becomes a warning. -/
def downgrade (warnOnly : List String) (i : Issue) : Issue :=
  if warnOnly.contains i.rule.name then { i with severity := .warning } else i

/-- The issues of the enabled rules. -/
def issues (o : Options) (corpus : List Extraction) : List Issue :=
  ((Rule.all.filter fun r => o.rules.contains r.name).flatMap (runRule o corpus)).map
    (downgrade o.warnOnly)

/-- Validates a corpus. -/
def check (o : Options) (corpus : List Extraction) : Result :=
  let found := issues o corpus
  { errors := found.filter (·.severity == .error)
    warnings := if o.includeWarnings then found.filter (·.severity == .warning) else [] }

/-! ### Documents and reports -/

/-- An issue as a value. -/
def Issue.toJson (i : Issue) : Json :=
  Json.objOf [
    ("rule", some (.str i.rule.name)),
    ("severity", some (.str i.severity.name)),
    ("message", some (.str i.message)),
    ("annotationId", i.annotationId.map .str),
    ("filePath", i.path.map .str),
    ("line", i.line.map .int)]

/-- A result as a value. -/
def Result.toJson (r : Result) : Json :=
  .obj [
    ("errors", .arr (r.errors.map Issue.toJson)),
    ("warnings", .arr (r.warnings.map Issue.toJson)),
    ("passed", .bool r.passes)]

/-- The place of an issue in brackets, as far as it is known. -/
def Issue.place (i : Issue) : String :=
  let file := match i.path with
    | some p => if p.isEmpty then [] else [Path.basename p]
    | none => []
  let line := match i.line with
    | some n => if n = 0 then [] else ["line " ++ showInt n]
    | none => []
  match file ++ line with
  | [] => ""
  | parts => " (" ++ String.intercalate ":" parts ++ ")"

/-- One issue on a line of a report. -/
def Issue.reportLine (label : String) (i : Issue) : String :=
  "  [" ++ label ++ "/" ++ i.rule.name ++ "]" ++ i.place ++ " " ++ i.message

/-- The report of a result. -/
def Result.report (r : Result) : String :=
  if r.errors.isEmpty && r.warnings.isEmpty then
    "MetaMode semantic validation passed: no issues found."
  else
    let errors :=
      if r.errors.isEmpty then []
      else
        (showNat r.errors.length ++ " error(s) found:")
          :: r.errors.map (Issue.reportLine "ERROR")
    let warnings :=
      if r.warnings.isEmpty then []
      else
        (if errors.isEmpty then [] else [""])
          ++ (showNat r.warnings.length ++ " warning(s):")
          :: r.warnings.map (Issue.reportLine "WARN")
    let verdict :=
      if r.passes then "Validation passed (warnings present)."
      else "Validation failed: fix errors above to proceed."
    String.intercalate "\n" (errors ++ warnings ++ ["", verdict])

end Marginalia.Validate
