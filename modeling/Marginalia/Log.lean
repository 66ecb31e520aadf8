/-
  Marginalia/Log.lean
  ===================
  **Logging.**  Messages have a level; those below the level that is set are not
  written, and nothing is written before a form of messages is set.  A message is
  written as one JSON record with the fields that are bound at that time, or as
  plain lines.  The fields of the message itself win over bound ones.
-/
import Marginalia.Fault
import Marginalia.Text.Case
import Marginalia.Text.Lines

namespace Marginalia.Log

open Marginalia.Text

/-! ### Levels -/

/-- The names of levels. -/
def levelNames : List (String × Int) :=
  [("NOTSET", 0), ("DEBUG", 10), ("INFO", 20), ("WARNING", 30), ("ERROR", 40), ("CRITICAL", 50),
   ("WARN", 30), ("FATAL", 50)]

/-- The names that stand for something other than a level: the pattern of plain messages and the
table of such patterns. -/
def reservedNames : List (String × ShapeFault) :=
  [("BASIC_FORMAT", .value (.level "%(levelname)s:%(name)s:%(message)s")), ("_STYLES", .wrongKind)]

/-- The level used for a name that is not known. -/
def fallbackLevel : Int := 20

/-- The level of a name in any case. -/
def levelOf (name : String) : Except ShapeFault Int :=
  let name := upperString name
  match Table.get? name reservedNames with
  | some fault => .error fault
  | none => .ok ((Table.get? name levelNames).getD fallbackLevel)

/-- The name of a level in messages: the first one that it has, or its number. -/
def levelName (level : Int) : String :=
  match levelNames.find? fun p => p.2 == level with
  | some (name, _) => lowerString name
  | none => "level " ++ showInt level

/-! ### Loggers -/

/-- The form in which messages are written. -/
inductive Form where
  | json
  | plain
  deriving DecidableEq, Repr

/-- How messages are written. -/
structure Logger where
  level : Int := 30
  /-- The form of messages, once one is set. -/
  form : Option Form := none
  /-- Fields that every message carries. -/
  bound : Table String Json := []

/-- The environment in which messages are JSON records unless something else is asked for. -/
def productionEnv : String := "prod"

/-- Sets the form of messages; unless one is given, the name of the environment decides. -/
def Logger.setForm (l : Logger) (json : Option Bool) (env : Option String) : Logger :=
  { l with form := some (if json.getD (env == some productionEnv) then .json else .plain) }

/-- Sets the form and the level of messages.  A name that cannot be a level leaves the level as it
was. -/
def Logger.configure (l : Logger) (level : String) (json : Option Bool) (env : Option String) :
    Logger × Except ShapeFault Unit :=
  let l := l.setForm json env
  match levelOf level with
  | .ok n => ({ l with level := n }, .ok ())
  | .error fault => (l, .error fault)

/-- Adds bound fields. -/
def Logger.bind (l : Logger) (fields : Table String Json) : Logger :=
  { l with bound := fields.foldl (fun t (k, v) => Table.set k v t) l.bound }

/-- Drops all bound fields. -/
def Logger.clear (l : Logger) : Logger := { l with bound := [] }

/-- A message of this level is written. -/
def Logger.shows (l : Logger) (level : Int) : Bool := 0 < level && l.level ≤ level

/-- The name under which a logger writes: the one without a name is the root of all. -/
def sourceName (name : String) : String := if name.isEmpty then "root" else name

/-! ### Messages -/

/-- The names of bound fields that never show: the time is added when a message is written, and
the others steer how it is written. -/
def hiddenFields : List String := ["timestamp", "stack_info", "_record", "_from_structlog"]

/-- The fields of a message: the bound ones that show, then its own. -/
def Logger.record (l : Logger) (name : String) (level : Int) (message : String) :
    Table String Json :=
  [("event", Json.str message), ("level", .str (levelName level)),
    ("logger", .str (sourceName name))].foldl
    (fun t (k, v) => Table.set k v t) (l.bound.filter fun p => !hiddenFields.contains p.1)

/-- A value in a plain message: a text as it is if it needs no quotes. -/
def plainValue : Json → List Char
  | .str s =>
    if s.toList.any fun c => " \t=\r\n\"".toList.contains c || c = '\x27' then quoted s.toList
    else s.toList
  | v => v.shown

/-- The fields of a plain message that have a place of their own in it. -/
def placedFields : List String :=
  ["event", "level", "logger", "logger_name", "stack", "exception", "exc_info"]

/-- The first lines of a plain message: event, logger and the other fields. -/
def headline (fields : Table String Json) : List Char :=
  let placed (key : String) := ((Table.get? key fields).map fun v => v.asText.toList).toList
  let others := (fields.filter fun p => !placedFields.contains p.1).map fun (k, v) =>
    k.toList ++ '=' :: plainValue v
  [' '].intercalate (placed "event" ++ placed "logger" ++ placed "logger_name" ++ others)

/-- What follows the headline of a plain message: the stack and the exception that are bound, with
a line between them. -/
def details (fields : Table String Json) : List Char :=
  let bound (key : String) := (Table.get? key fields).bind Json.present
  let failed := (bound "exception").isSome || ((bound "exc_info").map Json.isGiven).getD false
  let stack := match bound "stack" with
    | some v =>
      '\n' :: v.asText.toList
        ++ (if failed then "\n\n".toList ++ List.replicate 79 '=' ++ ['\n'] else [])
    | none => []
  let exception := match bound "exception" with
    | some v => '\n' :: v.asText.toList
    | none => []
  stack ++ exception

/-- What is written for a message. -/
inductive Written where
  | nothing
  | record (fields : Table String Json)
  /-- The number of plain lines. -/
  | plain (lines : Nat)

/-- Writes a message. -/
def Logger.log (l : Logger) (name : String) (level : Int) (message : String) : Written :=
  if !l.shows level then .nothing
  else
    let fields := l.record name level message
    match l.form with
    | none => .nothing
    | some .json => .record fields
    | some .plain => .plain (breakLines (headline fields ++ details fields ++ ['\n'])).length

end Marginalia.Log
