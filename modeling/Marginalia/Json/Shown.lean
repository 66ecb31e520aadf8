/-
  Marginalia/Json/Shown.lean
  ==========================
  **Values inside messages and texts.**  A value is shown with its strings
  quoted; a string on its own reads as itself.
-/
import Marginalia.Json.Basic
import Marginalia.Text.Quoted

namespace Marginalia.Json

/-- A floating point number in a message. -/
def shownFloat : Binary64 → List Char
  | .finite s m e => if s then '-' :: Binary64.finiteText m e else Binary64.finiteText m e
  | .infinite s => if s then "-inf".toList else "inf".toList
  | .nan => "nan".toList

mutual

/-- A value with its strings quoted. -/
def shown : Json → List Char
  | .null => "None".toList
  | .bool b => if b then "True".toList else "False".toList
  | .int n => Text.decimalInt n
  | .float x => shownFloat x
  | .str s => Text.quoted s.toList
  | .arr [] => ['[', ']']
  | .arr (v :: vs) => '[' :: shown v ++ shownItems vs ++ [']']
  | .obj [] => ['{', '}']
  | .obj ((k, v) :: fs) =>
    '{' :: Text.quoted k.toList ++ ':' :: ' ' :: shown v ++ shownFields fs ++ ['}']

/-- The items after the first one. -/
def shownItems : List Json → List Char
  | [] => []
  | v :: vs => ',' :: ' ' :: shown v ++ shownItems vs

/-- The members after the first one. -/
def shownFields : List (String × Json) → List Char
  | [] => []
  | (k, v) :: fs => ',' :: ' ' :: Text.quoted k.toList ++ ':' :: ' ' :: shown v ++ shownFields fs

end

/-- `shown` as a string. -/
def shownString (v : Json) : String := String.ofList (shown v)

/-- The text a value stands for: a string itself, every other value as it is shown. -/
def asText : Json → String
  | .str s => s
  | v => shownString v

end Marginalia.Json
