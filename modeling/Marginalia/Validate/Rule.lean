/-
  Marginalia/Validate/Rule.lean
  =============================
  **Rules over a corpus.**  Every rule is a function from the extracted files to
  issues; none depends on another, and each issue carries the rule it comes from.
-/
import Marginalia.Graph.DepthFirst
import Marginalia.Path
import Marginalia.Validate.Form

namespace Marginalia.Validate

open Marginalia.Text

/-- How grave an issue is. -/
inductive Severity where
  | error
  | warning
  deriving DecidableEq, Repr

def Severity.name : Severity → String
  | .error => "error"
  | .warning => "warning"

/-- The rules. -/
inductive Rule where
  | uniqueIds
  | depsExist
  | noCycles
  | requiredFields
  | visibility
  | schema
  deriving DecidableEq, Repr

def Rule.name : Rule → String
  | .uniqueIds => "unique-id-per-scope"
  | .depsExist => "deps-must-exist"
  | .noCycles => "no-circular-runtime-deps"
  | .requiredFields => "required-fields-present"
  | .visibility => "visibility-consistency"
  | .schema => "schema-validates"

/-- All rules in the order in which they run. -/
def Rule.all : List Rule :=
  [.uniqueIds, .depsExist, .noCycles, .requiredFields, .visibility, .schema]

/-- Something that a rule found. -/
structure Issue where
  rule : Rule
  severity : Severity
  message : String
  annotationId : Option String := none
  path : Option String := none
  line : Option Int := none
  deriving DecidableEq, Repr

/-- An annotation with an id, and its file. -/
structure Indexed where
  note : Note
  path : String
  id : String
  deriving DecidableEq, Repr

/-- File and line, as messages name a place. -/
def Indexed.location (x : Indexed) : String :=
  Path.basename x.path ++ ":" ++ showInt x.note.line

/-- An issue at an annotation. -/
def Indexed.issue (x : Indexed) (rule : Rule) (severity : Severity) (message : String) : Issue :=
  ⟨rule, severity, message, some x.id, some x.path, some x.note.line⟩

/-- The annotations with an id in the order of the corpus, repeated ids included. -/
def indexed (corpus : List Extraction) : List Indexed :=
  corpus.flatMap fun x => x.annotations.filterMap fun a => a.record.id?.map (⟨a, x.path, ·⟩)

/-- How messages refer to an annotation: by id, entity or line. -/
def reference (a : Note) : String :=
  match a.record.id? with
  | some id => "\"" ++ id ++ "\""
  | none =>
    match a.entity? with
    | some entity => "\"" ++ entity ++ "\""
    | none => "at line " ++ showInt a.line

/-! ### Unique ids -/

/-- Issues of the annotations whose id is among those seen before. -/
def uniqueIdsFrom (seen : Table String Indexed) : List Indexed → List Issue
  | [] => []
  | x :: rest =>
    match Table.get? x.id seen with
    | none => uniqueIdsFrom (Table.set x.id x seen) rest
    | some first =>
      x.issue .uniqueIds .error
        ("Duplicate @mm:id \"" ++ x.id ++ "\" found. First declared in " ++ first.location
          ++ ", redeclared in " ++ x.location ++ ".")
        :: uniqueIdsFrom seen rest

/-- Annotations whose id stands before them already. -/
def duplicateIdIssues (annotations : List Indexed) : List Issue := uniqueIdsFrom [] annotations

/-! ### Existing dependencies -/

/-- What follows the last slash of a target. -/
def lastSegment (target : String) : String := (splitString '/' target).getLast?.getD target

/-- The target has a slash in it. -/
def isPathLike (target : String) : Bool := target.toList.contains '/'

/-- The known id that a target names: itself, or else its last path segment. -/
def resolve (bySegment : Bool) (known : List String) (target : String) : Option String :=
  if known.contains target then some target
  else if bySegment && isPathLike target && known.contains (lastSegment target) then
    some (lastSegment target)
  else none

/-- Targets that no known id answers to; one that looks like a path may name a module without
annotations and only draws a warning. -/
def unknownTargetIssues (bySegment : Bool) (annotations : List Indexed) : List Issue :=
  let known := annotations.map (·.id)
  annotations.flatMap fun x =>
    ((x.note.record.targets DepKind.all).filter
      fun t => (resolve bySegment known t).isNone).map fun t =>
        x.issue .depsExist (if isPathLike t then .warning else .error)
          ("Dependency \"" ++ t ++ "\" declared in " ++ x.id ++ " does not match any known @mm:id.")

/-! ### Cycles -/

/-- Adds targets that are not there yet. -/
def addNew (targets new : List String) : List String :=
  new.foldl (fun l t => if l.contains t then l else l ++ [t]) targets

/-- The runtime targets of every id, each once; annotations with the same id share an entry. -/
def runtimeTargets (annotations : List Indexed) : Graph.Adjacency String :=
  annotations.foldl
    (fun adj x =>
      Table.update x.id [] (fun l => addNew l (x.note.record.targets [.runtime])) adj)
    []

/-- Nodes of a cycle with arrows between them. -/
def arrows (cycle : List String) : String := String.intercalate " → " cycle

/-- Ids that depend on themselves at run time, directly or through others. -/
def cycleIssues (annotations : List Indexed) : List Issue :=
  (Graph.cyclesOf (runtimeTargets annotations)).map fun cycle =>
    { rule := .noCycles, severity := .error,
      message := "Circular runtime dependency detected: " ++ arrows cycle }

/-! ### Required fields -/

/-- Names that stand for something in every record without being fields; they are never
missing. -/
def standingNames : List String :=
  ["to_dict", "is_empty", "merged_with", "__annotations__", "__class__", "__dataclass_fields__",
   "__dataclass_params__", "__delattr__", "__dir__", "__doc__", "__eq__", "__format__", "__ge__",
   "__getattribute__", "__getstate__", "__gt__", "__init__", "__init_subclass__", "__le__",
   "__lt__", "__match_args__", "__module__", "__ne__", "__new__", "__reduce__", "__reduce_ex__",
   "__repr__", "__setattr__", "__sizeof__", "__slots__", "__str__", "__subclasshook__"]

/-- A record has something of this name: a field that is given, or a name that every record
has. -/
def hasField (r : Record) (name : String) : Bool :=
  match name with
  | "id" => r.id.isSome
  | "name" => r.name.isSome
  | "desc" => r.desc.isSome
  | "tags" => r.tags.isSome
  | "deps" => r.deps.isSome
  | "ai" => r.ai.isSome
  | "visibility" => r.visibility.isSome
  | "version" => r.version.isSome
  | "phase" => r.phase.isSome
  | "status" => r.status.isSome
  | other => standingNames.contains other

/-- Required fields that an annotation lacks. -/
def missingFieldIssues (required : List String) (corpus : List Extraction) : List Issue :=
  corpus.flatMap fun x => x.annotations.flatMap fun a =>
    (required.filter fun name => !hasField a.record name).map fun name =>
      ⟨.requiredFields, .error,
        "Required field \"@mm:" ++ name ++ "\" is missing in annotation " ++ reference a ++ " in "
          ++ Path.basename x.path ++ ".",
        a.record.id, some x.path, some a.line⟩

/-! ### Visibility -/

/-- The declared visibility of every id that has one. -/
def declaredVisibility (annotations : List Indexed) : Table String Visibility :=
  Table.ofPairs (annotations.filterMap fun x => x.note.record.visibility.map (x.id, ·))

/-- The target names an id that is declared internal. -/
def isInternalTarget (bySegment : Bool) (declared : Table String Visibility) (target : String) :
    Bool :=
  match resolve bySegment (Table.keys declared) target with
  | some id => Table.get? id declared == some .internal
  | none => false

/-- Internal entities that public ones need at run time or build time. -/
def visibilityIssues (bySegment : Bool) (annotations : List Indexed) : List Issue :=
  let declared := declaredVisibility annotations
  (annotations.filter fun x => x.note.record.visibilityOrPublic == .published).flatMap
    fun x =>
      ((x.note.record.targets [.runtime, .build]).filter
        (isInternalTarget bySegment declared)).map fun t =>
          x.issue .visibility .warning
            ("Public entity \"" ++ x.id ++ "\" depends on internal entity \"" ++ t
              ++ "\". Consider making \"" ++ t ++ "\" public or making \"" ++ x.id
              ++ "\" internal.")

/-! ### Schema -/

/-- Records that do not have the declared shape. -/
def schemaIssues (corpus : List Extraction) : List Issue :=
  corpus.flatMap fun x => x.annotations.flatMap fun a =>
    (schemaMessages a.record).map fun message =>
      ⟨.schema, .error,
        "Annotation " ++ reference a ++ " in " ++ Path.basename x.path
          ++ " failed schema validation: " ++ message,
        a.record.id, some x.path, some a.line⟩

end Marginalia.Validate
