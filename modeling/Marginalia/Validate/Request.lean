/-
  Marginalia/Validate/Request.lean
  ================================
  **Validation in loose form.**  The options of a validation may be any values.
  Names of rules have to be keys, and a required field has to have a text for its
  name once some annotation is asked for it.
-/
import Marginalia.Json.Options
import Marginalia.Validate.Report

namespace Marginalia.Validate.Request

open Marginalia.Json

/-- Names of rules out of values; a value that is no text names none. -/
def ruleNames (key : String) (start : List String) (options : Json.Options) :
    Shaped (List String) := do
  let names ← toKeys (← options.list key (start.map .str))
  .ok (names.filterMap Json.text?)

/-- The options of a validation of a corpus. -/
def optionsOf (corpus : List Extraction) (options : Json.Options) : Shaped Options := do
  let start : Options := {}
  let rules ← ruleNames "rules" start.rules options
  let required ← options.list "requiredFields" (start.requiredFields.map .str)
  let asked := rules.contains Rule.requiredFields.name
    && corpus.any fun x => !x.annotations.isEmpty
  if asked && !required.all (fun v => v.text?.isSome) then .error .wrongKind
  .ok {
    rules
    warnOnly := ← ruleNames "warnOnly" start.warnOnly options
    requiredFields := required.filterMap Json.text?
    includeWarnings := options.isOn "includeWarnings" start.includeWarnings
    bySegment := options.isOn "pathSegmentMatch" start.bySegment }

/-- The result for options given as values. -/
def answer (corpus : List Extraction) (options : Json.Options) : Shaped Result := do
  .ok (check (← optionsOf corpus options) corpus)

end Marginalia.Validate.Request
