/-
  Marginalia/Validate/Form.lean
  =============================
  **The declared shape of an annotation.**  A document of fields is checked field
  by field in a fixed order, then for keys that are not fields.  A violation is a
  place in the document and a message; of one text only the first failing check is
  reported.
-/
import Marginalia.Json.Shown
import Marginalia.Record.Document
import Marginalia.Text.LaxInt

namespace Marginalia.Validate

open Marginalia.Text

/-- A violation: where, as keys and positions from the outside in, and what is wrong. -/
structure Violation where
  place : List String
  message : String
  deriving DecidableEq, Repr

/-- The place with its parts joined by points. -/
def Violation.location (v : Violation) : String := String.intercalate "." v.place

/-- The same violation inside a part of a larger value. -/
def Violation.inside (outer : String) (v : Violation) : Violation := ⟨outer :: v.place, v.message⟩

/-- A check of a value: its violations, none when the value is as declared. -/
abbrev Check := Json → List Violation

/-- A violation at the value itself. -/
def violation (message : String) : List Violation := [⟨[], message⟩]

/-! ### Texts -/

/-- Bounds on the length of a text, and a pattern with its name. -/
structure TextRule where
  maxLength : Nat
  minLength : Nat := 0
  pattern : Option (String × (List Char → Bool)) := none

/-- A count of characters in words. -/
def characters (n : Nat) : String := showNat n ++ if n = 1 then " character" else " characters"

/-- Checks a text. -/
def checkText (rule : TextRule) : Check
  | .str s =>
    if rule.maxLength < s.length then
      violation ("String should have at most " ++ characters rule.maxLength)
    else if s.length < rule.minLength then
      violation ("String should have at least " ++ characters rule.minLength)
    else
      match rule.pattern with
      | none => []
      | some (name, accepts) =>
        if accepts s.toList then []
        else violation ("String should match pattern '" ++ name ++ "'")
  | _ => violation "Input should be a valid string"

/-- Checks that a value is a text. -/
def checkString : Check
  | .str _ => []
  | _ => violation "Input should be a valid string"

/-- Null is always as declared. -/
def nullable (check : Check) : Check
  | .null => []
  | v => check v

/-! ### Lists and tables -/

/-- Violations of the items of a list. -/
def checkItems (item : Check) (items : List Json) : List Violation :=
  items.zipIdx.flatMap fun (v, i) => (item v).map (Violation.inside (showNat i))

/-- Checks a list of any length. -/
def checkList (item : Check) : Check
  | .arr items => checkItems item items
  | _ => violation "Input should be a valid list"

/-- Checks a list of bounded length; the items of a longer one are not checked. -/
def checkBoundedList (bound : Nat) (item : Check) : Check
  | .arr items =>
    if bound < items.length then
      violation ("List should have at most " ++ showNat bound ++ " items after validation, not "
        ++ showNat items.length)
    else checkItems item items
  | _ => violation "Input should be a valid list"

/-- Checks a table. -/
def checkTable (value : Check) : Check
  | .obj fields => fields.flatMap fun (k, v) => (value v).map (Violation.inside k)
  | _ => violation "Input should be a valid dictionary"

/-- Checks that a value fits one of two declarations; if not, the violations of both are
reported. -/
def checkEither (first second : String × Check) : Check := fun v =>
  let a := first.2 v
  let b := second.2 v
  if a.isEmpty || b.isEmpty then []
  else a.map (Violation.inside first.1) ++ b.map (Violation.inside second.1)

/-- A further check of values that are as declared. -/
def andThen (check further : Check) : Check := fun v =>
  let found := check v
  if found.isEmpty then further v else found

/-- Checks the fields of an object in order; keys that are not fields come last. -/
def checkFields (declared : List (String × Check)) (fields : List (String × Json)) :
    List Violation :=
  (declared.flatMap fun (key, check) =>
    match Table.get? key fields with
    | some v => (check v).map (Violation.inside key)
    | none => []) ++
  fields.filterMap fun (key, _) =>
    if declared.any (·.1 == key) then none else some ⟨[key], "Extra inputs are not permitted"⟩

/-! ### Numbers and choices -/

/-- Whole numbers beyond this size are not taken from a floating point number. -/
def wholeLimit : Nat := 0x8000000000000000

/-- Checks a whole number that is not negative. -/
def checkCount : Check := fun v =>
  let bounded (n : Int) : List Violation :=
    if n < 0 then violation "Input should be greater than or equal to 0" else []
  match v with
  | .int n => bounded n
  | .bool _ => []
  | .float x =>
    match x with
    | .finite s m e =>
      match Binary64.whole? (.finite s m e) with
      | some n =>
        if n.natAbs < wholeLimit then bounded n else violation (IntFault.tooLong 0).laxMessage
      | none => violation "Input should be a valid integer, got a number with a fractional part"
    | _ => violation "Input should be a finite number"
  | .str s =>
    match laxInt s.toList with
    | .ok n => bounded n
    | .error fault => violation fault.laxMessage
  | _ => violation "Input should be a valid integer"

/-- Checks one of several names. -/
def checkChoice (expected : String) (names : List String) : Check
  | .str s => if names.contains s then [] else violation ("Input should be " ++ expected)
  | _ => violation ("Input should be " ++ expected)

/-! ### The declaration -/

/-- Characters of an id after the first one. -/
def isIdChar (c : Char) : Bool := c.isAlphanum || "_$.:/@-".toList.contains c

/-- Characters that an id may begin with. -/
def isIdStart (c : Char) : Bool := c.isAlphanum || c = '_' || c = '$'

/-- The form of an id. -/
def isIdText : List Char → Bool
  | [] => false
  | c :: cs => isIdStart c && cs.all isIdChar

/-- How the form of an id is written in messages. -/
def idForm : String := "^[A-Za-z0-9_$][A-Za-z0-9_$.:/@-]*$"

/-- The greatest length of a hint in one text and of a summary. -/
def summaryLimit : Nat := 200

/-- The parts of a hint. -/
def hintFields : List (String × Check) :=
  [("summary", nullable (checkText ⟨summaryLimit, 0, none⟩)),
   ("usage", nullable (checkText ⟨1000, 0, none⟩)),
   ("examples", nullable (checkBoundedList 20 checkString))]

/-- Checks a hint with parts. -/
def checkHintParts : Check
  | .obj fields => checkFields hintFields fields
  | _ => violation "Input should be a valid dictionary or instance of AiSchema"

/-- A hint in one text is as short as a summary. -/
def checkHintLength : Check
  | .str s =>
    if summaryLimit < s.length then
      violation ("Value error, ai summary exceeds maximum length of " ++ showNat summaryLimit
        ++ " characters")
    else []
  | _ => []

/-- No tag stands twice. -/
def checkDistinct : Check
  | .arr items =>
    let tags := items.filterMap Json.text?
    match tags.find? fun t => 1 < tags.count t with
    | some t => violation ("Value error, tags must be unique (duplicate found: \"" ++ t ++ "\")")
    | none => []
  | _ => []

/-- Dependencies have known kinds only; the first unknown one in alphabetical order is named. -/
def checkClasses : Check
  | .obj fields =>
    let unknown := (Table.keys fields).filter fun k => (DepKind.ofName? k).isNone
    match unknown.mergeSort (fun a b => decide (a ≤ b)) with
    | k :: _ =>
      violation ("Value error, unknown dependency class " ++ quotedString k
        ++ "; allowed: runtime, build, optional")
    | [] => []
  | _ => []

/-- The fields of an annotation. -/
def annotationFields : List (String × Check) :=
  [("id", nullable (checkText ⟨128, 1, some (idForm, isIdText)⟩)),
   ("name", nullable (checkText ⟨200, 1, none⟩)),
   ("desc", nullable (checkText ⟨1000, 1, none⟩)),
   ("tags", nullable (andThen (checkBoundedList 20 (checkText ⟨50, 1, none⟩)) checkDistinct)),
   ("deps",
     nullable (andThen
       (checkEither ("list[str]", checkList checkString)
         ("dict[str,list[str]]", checkTable (checkList checkString)))
       checkClasses)),
   ("ai",
     nullable (andThen (checkEither ("str", checkString) ("AiSchema", checkHintParts))
       checkHintLength)),
   ("visibility", nullable (checkChoice "'public' or 'internal'" (Visibility.all.map (·.name)))),
   ("version", nullable (checkText ⟨32, 1, none⟩)),
   ("phase", nullable checkCount),
   ("status",
     nullable (checkChoice "'stable', 'beta', 'experimental', 'deprecated', 'exp' or 'dep'"
       (Status.all.map (·.name))))]

/-- The violations of a document of fields. -/
def checkNote (fields : List (String × Json)) : List Violation :=
  checkFields annotationFields fields

/-- The violations of a document. -/
def checkDocument : Check
  | .obj fields => checkNote fields
  | _ => violation "Input should be a valid dictionary or instance of AnnotationSchema"

/-- The violations of a record as messages. -/
def schemaMessages (r : Record) : List String :=
  (checkDocument r.toJson).map fun v => "\"@mm:" ++ v.location ++ "\" " ++ v.message

end Marginalia.Validate
