/-
  Marginalia/Json/Shape.lean
  ==========================
  **Taking values apart.**  Documents are read leniently: numbers may be written
  as strings, a string may stand for the list of its characters, an object for the
  list of its keys.  Each function here says what it takes and which fault it
  gives otherwise.
-/
import Marginalia.Fault

namespace Marginalia.Json

/-- The result of taking a value apart. -/
abbrev Shaped (α : Type) := Except ShapeFault α

/-- The members of an object. -/
def members : Json → Shaped (List (String × Json))
  | .obj fields => .ok fields
  | _ => .error .noPart

/-- The member that an object must have. -/
def required (key : String) (v : Json) : Shaped Json :=
  match v with
  | .obj fields =>
    match Table.get? key fields with
    | some x => .ok x
    | none => .error (.missingKey key)
  | _ => .error .wrongKind

/-- The member of an object, if it has it. -/
def optional (key : String) (v : Json) : Shaped (Option Json) := (members v).map (Table.get? key)

/-- The elements of a list, the characters of a string, or the keys of an object. -/
def elements : Json → Shaped (List Json)
  | .arr items => .ok items
  | .str s => .ok (s.toList.map fun c => .str (String.singleton c))
  | .obj fields => .ok (fields.map fun (k, _) => .str k)
  | _ => .error .wrongKind

/-- The whole number that a value stands for: fractions are cut off, true is one, and a string is
read as a number. -/
def toInt : Json → Shaped Int
  | .int n => .ok n
  | .bool b => .ok (if b then 1 else 0)
  | .float x =>
    match x with
    | .nan => .error (.value .notANumber)
    | .infinite _ => .error .infinite
    | .finite s m e => .ok ((Binary64.truncate? (.finite s m e)).getD 0)
  | .str s => (Text.readInt s.toList).mapError fun f => .value (f.fault s)
  | _ => .error .wrongKind

/-- One of the choices of a kind, by name. -/
def toChoice {α : Type} (kind : String) (ofName? : String → Option α) (v : Json) : Shaped α :=
  match v with
  | .str s =>
    match ofName? s with
    | some x => .ok x
    | none => .error (.value (.choice kind v))
  | _ => .error (.value (.choice kind v))

/-- A value that may be a key. -/
def toKey (v : Json) : Shaped Json := if v.isScalar then .ok v else .error .wrongKind

/-- Values that may all be keys. -/
def toKeys (l : List Json) : Shaped (List Json) :=
  if l.all Json.isScalar then .ok l else .error .wrongKind

/-- One element of a list of pairs, at an index. -/
def toPair (index : Nat) (v : Json) : Shaped (Json × Json) := do
  match ← elements v with
  | [k, x] => .ok (← toKey k, x)
  | l => .error (.value (.pairLength index l.length))

/-- A value, or the list of values that a list is. -/
def oneOrMany : Json → List Json
  | .arr items => items
  | v => [v]

/-- A number that bounds a count: a whole number, or a truth value for one or zero. -/
def toBound : Json → Shaped Int
  | .int n => .ok n
  | .bool b => .ok (if b then 1 else 0)
  | _ => .error .wrongKind

/-- A table: an object, or a list of pairs. -/
def toTable : Json → Shaped (Table Json Json)
  | .obj fields => .ok (fields.map fun (k, v) => (.str k, v))
  | v => do
    let pairs ← (← elements v).zipIdx.mapM fun (x, i) => toPair i x
    .ok (Table.ofPairs pairs)

/-- The texts of a list, joined; every element must be a string. -/
def joined (separator : String) (v : Json) : Shaped String := do
  let texts ← (← elements v).mapM fun x =>
    match x with
    | .str s => .ok s
    | _ => .error .wrongKind
  .ok (String.intercalate separator texts)

end Marginalia.Json
