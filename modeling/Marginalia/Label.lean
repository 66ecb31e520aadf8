/-
  Marginalia/Label.lean
  =====================
  **Labels.**  Ids, tags, targets and the other texts of a database.  In a
  database that was compiled they are strings; in one that was loaded any JSON
  value may stand in their place.  What a database does with its labels is said
  once for both: a label can be made of a text and shown as a value, and whether
  it is given, is a key or is a text is read off that value.
-/
import Marginalia.Json.Printer
import Marginalia.Json.Shown

namespace Marginalia

/-- Types whose elements may stand where a text belongs. -/
class Label (α : Type) where
  /-- The label that is this text. -/
  ofText : String → α
  /-- The label as a value. -/
  toJson : α → Json

instance : Label String where
  ofText s := s
  toJson := .str

instance : Label Json where
  ofText := .str
  toJson v := v

namespace Label

variable {α : Type} [Label α]

/-- The text that a label is, if it is one. -/
def text? (x : α) : Option String := (toJson x).text?

/-- The label counts as given: it is neither null nor false nor zero nor empty. -/
def isGiven (x : α) : Bool := (toJson x).isGiven

/-- The label is not null. -/
def isPresent (x : α) : Bool := (toJson x).present.isSome

/-- The label may be looked up. -/
def isKey (x : α) : Bool := (toJson x).isScalar

/-- The label inside a message. -/
def shown (x : α) : String := (toJson x).asText

/-- The text under which a label stands as a key. -/
def keyText (x : α) : String :=
  match toJson x with
  | .str s => s
  | v => Json.render .compact v

/-- Labels as a value. -/
def listJson (l : List α) : Json := .arr (l.map toJson)

/-! ### Labels that are texts -/

@[simp] theorem ofText_string (s : String) : (ofText s : String) = s := rfl

@[simp] theorem toJson_string (s : String) : toJson s = .str s := rfl

@[simp] theorem text?_string (s : String) : text? s = some s := rfl

@[simp] theorem isGiven_string (s : String) : isGiven s = !s.isEmpty := rfl

@[simp] theorem isPresent_string (s : String) : isPresent s = true := rfl

@[simp] theorem isKey_string (s : String) : isKey s = true := rfl

@[simp] theorem shown_string (s : String) : shown s = s := rfl

@[simp] theorem keyText_string (s : String) : keyText s = s := rfl

end Label

end Marginalia
