/-
  Marginalia/Fault.lean
  =====================
  **Faults.**  Data problems in annotations are reported as warnings and issues
  and never stop the work.  What does stop it is listed here: values and documents
  that cannot be used, and files that cannot be read.  The wording of every
  message is in the `message` functions.
-/
import Marginalia.Json.Shown
import Marginalia.Text.Utf8

namespace Marginalia

/-- A value that cannot be used where it stands. -/
inductive ValueFault where
  /-- The value names none of the choices of this kind. -/
  | choice (kind : String) (value : Json)
  /-- The text is not a whole number. -/
  | notInteger (text : String)
  /-- The number has more digits than are converted. -/
  | tooManyDigits (count : Nat)
  /-- A number that is none. -/
  | notANumber
  /-- An element of a list of pairs does not have two parts. -/
  | pairLength (index length : Nat)
  /-- A record without an id. -/
  | noId
  /-- A graph format that is not known. -/
  | graphFormat (name : String)
  /-- An empty path where one is needed. -/
  | emptyPath
  /-- A text that is no level of messages. -/
  | level (text : String)

/-- The start of a quoted text, as far as messages show it. -/
def shortened (s : String) : String := String.ofList (s.toList.take 200)

def ValueFault.message : ValueFault → String
  | .choice kind value => value.shownString ++ " is not a valid " ++ kind
  | .notInteger text =>
    "invalid literal for int() with base 10: " ++ shortened (Text.quotedString text)
  | .tooManyDigits count =>
    "Exceeds the limit (" ++ Text.showNat Text.maxDigits
      ++ " digits) for integer string conversion: value has " ++ Text.showNat count
      ++ " digits; use sys.set_int_max_str_digits() to increase the limit"
  | .notANumber => "cannot convert float NaN to integer"
  | .pairLength index length =>
    "dictionary update sequence element #" ++ Text.showNat index ++ " has length "
      ++ Text.showNat length ++ "; 2 is required"
  | .noId => "only records with an id can be compiled"
  | .graphFormat name => "unsupported graph format: " ++ name
  | .emptyPath => "no path specified"
  | .level text => "Unknown level: " ++ Text.quotedString text

/-- A part of a document that does not have the shape it needs. -/
inductive ShapeFault where
  /-- An object lacks this key. -/
  | missingKey (key : String)
  /-- A value of another kind is needed, such as a list or a number. -/
  | wrongKind
  /-- A value is asked for a part that only values of another kind have, such as the members of an
  object or the characters of a text. -/
  | noPart
  /-- A number too large for a whole number. -/
  | infinite
  | value (fault : ValueFault)

/-- Why a stored database is not read. -/
inductive ArchiveFault where
  | notFound
  /-- The file is not JSON. -/
  | notJson
  /-- The document is not an object. -/
  | notObject
  /-- The document names another format. -/
  | format (found : Json)
  /-- A part of the document cannot be used. -/
  | malformed (cause : ShapeFault)

/-- The message of a cause that is part of a larger message. -/
def ShapeFault.detail : ShapeFault → Option String
  | .missingKey key => some (Text.quotedString key)
  | .value fault => some fault.message
  | _ => none

def ArchiveFault.message (path : String) : ArchiveFault → String
  | .notFound => "database not found: " ++ path
  | .notJson => "invalid JSON in " ++ path
  | .notObject => "expected an object in " ++ path
  | .format found => "unsupported database format " ++ found.shownString ++ " in " ++ path
  | .malformed cause =>
    match cause.detail with
    | some detail => "malformed database " ++ path ++ ": " ++ detail
    | none => "malformed database " ++ path

/-- Why a file or folder cannot be used. -/
inductive FileFault where
  /-- Nothing has this path. -/
  | missing
  /-- A folder stands where a file is needed. -/
  | isFolder
  /-- The path leads through a file. -/
  | notFolder
  /-- A file stands where a folder is to be made. -/
  | isFile
  deriving DecidableEq, Repr

/-- Whatever stops an operation. -/
inductive Fault where
  | shape (cause : ShapeFault)
  | archive (path : String) (cause : ArchiveFault)
  /-- The bytes of a file are not a text. -/
  | encoding (cause : Text.Utf8Fault)
  /-- A document has more containers one inside the other than there is room for. -/
  | tooDeep
  /-- A file or folder cannot be used. -/
  | file (path : String) (cause : FileFault)
  /-- A directory to search does not exist. -/
  | noScanRoot (path : String)
  /-- The root of a project does not exist. -/
  | noProjectRoot (path : String)
  /-- No prompt template for this value; the known names are given. -/
  | unknownAgent (found : Json) (known : List String)
  /-- Settings with values out of range. -/
  | settings (problems : List String)
  /-- Settings that are not numbers: the variable and what is wrong. -/
  | settingValues (details : List (String × String))

/-- A value that cannot be used. -/
def Fault.value (fault : ValueFault) : Fault := .shape (.value fault)

/-- The message of a fault, where one is shown. -/
def Fault.message? : Fault → Option String
  | .shape (.value fault) => some fault.message
  | .shape _ => none
  | .archive path cause => some (cause.message path)
  | .encoding _ => none
  | .tooDeep => none
  | .file _ _ => none
  | .noScanRoot path => some ("scan root not found: " ++ path)
  | .noProjectRoot path => some ("project root not found: " ++ path)
  | .unknownAgent found known =>
    some ("unknown agent type " ++ found.shownString ++ " (known: "
      ++ String.intercalate ", " known ++ ")")
  | .settings problems =>
    some ("invalid metamode configuration: " ++ String.intercalate ", " problems)
  | .settingValues _ => none

/-- A whole number that is not read. -/
def Text.IntFault.fault (text : String) : Text.IntFault → ValueFault
  | .malformed => .notInteger text
  | .tooLong digits => .tooManyDigits digits

/-- Reading a whole number out of an annotation stops only at one with too many digits. -/
def Text.IntFault.stop (f : Text.IntFault) : Fault := .value (f.fault "")

end Marginalia
