/-
  Marginalia/Json/Options.lean
  ============================
  **Options given as values.**  Options have names, and any value may stand for
  one.  An option that is missing has its default; null is a value like any other
  and turns a switch off.
-/
import Marginalia.Json.Shape

namespace Marginalia.Json

/-- Options by name. -/
abbrev Options := Table String Json

namespace Options

/-- An option that counts unless it is null. -/
def present? (key : String) (o : Options) : Option Json := (Table.get? key o).bind Json.present

/-- A switch: any value that counts as given turns it on, any other one off. -/
def isOn (key : String) (start : Bool) (o : Options) : Bool :=
  match Table.get? key o with
  | some v => v.isGiven
  | none => start

/-- The elements of an option, or those that stand for it when it is missing. -/
def list (key : String) (start : List Json) (o : Options) : Shaped (List Json) :=
  match Table.get? key o with
  | some v => elements v
  | none => .ok start

/-- The elements of an option that counts as given; none otherwise. -/
def givenList (key : String) (o : Options) : Shaped (List Json) :=
  match (Table.get? key o).filter Json.isGiven with
  | some v => elements v
  | none => .ok []

end Options

end Marginalia.Json
