/-
  Marginalia/Json/Basic.lean
  ==========================
  **JSON values.**  The members of an object keep the order in which they were
  written.  Numbers are whole numbers of any size or binary floating point, and
  are equal when they have the same value.
-/
import Marginalia.Number.Binary64
import Marginalia.Table

namespace Marginalia

/-- A JSON value. -/
inductive Json where
  | null
  | bool (b : Bool)
  | int (n : Int)
  | float (x : Binary64)
  | str (s : String)
  | arr (items : List Json)
  | obj (fields : List (String × Json))
  deriving Inhabited

namespace Json

/-- The member of an object with this key; other values have no members. -/
def get? (key : String) : Json → Option Json
  | .obj fields => Table.get? key fields
  | _ => none

/-- The text of a string value. -/
def text? : Json → Option String
  | .str s => some s
  | _ => none

/-- Values that count as given: all but null, false, zero and what is empty. -/
def isGiven : Json → Bool
  | .null => false
  | .bool b => b
  | .int n => n != 0
  | .float x => !x.isZero
  | .str s => !s.isEmpty
  | .arr items => !items.isEmpty
  | .obj fields => !fields.isEmpty

/-- Values that may be keys of a table: all but lists and objects. -/
def isScalar : Json → Bool
  | .arr _ => false
  | .obj _ => false
  | _ => true

/-- The whole number that a value is equal to; true is one and false is zero. -/
def whole? : Json → Option Int
  | .int n => some n
  | .bool b => some (if b then 1 else 0)
  | .float x => x.whole?
  | _ => none

/-- Null stands for an absent value. -/
def present : Json → Option Json
  | .null => none
  | v => some v

/-- A list of strings as a value. -/
def strings (l : List String) : Json := .arr (l.map .str)

/-- A natural number as a value. -/
def nat (n : Nat) : Json := .int n

/-- A value or null. -/
def ofOption (v : Option Json) : Json := v.getD .null

/-- The object of those fields that are set. -/
def objOf (fields : List (String × Option Json)) : Json :=
  .obj (fields.filterMap fun (k, v) => v.map (k, ·))

/-! ### Equality -/

/-- Equality of values that are neither lists nor objects: numbers are equal by value, whatever
their form. -/
def sameScalar (a b : Json) : Bool :=
  match a.whole?, b.whole? with
  | some m, some n => m == n
  | none, none =>
    match a, b with
    | .null, .null => true
    | .float x, .float y => x == y
    | .str s, .str t => s == t
    | _, _ => false
  | _, _ => false

mutual

/-- Equality of values; the order of the members of an object does not matter. -/
def same : Json → Json → Bool
  | .arr xs, .arr ys => sameItems xs ys
  | .obj fs, .obj gs => fs.length == gs.length && sameFields fs gs
  | .arr _, _ => false
  | .obj _, _ => false
  | a, b => sameScalar a b

/-- Equality of lists. -/
def sameItems : List Json → List Json → Bool
  | [], [] => true
  | x :: xs, y :: ys => same x y && sameItems xs ys
  | _, _ => false

/-- Every member is also one of the other object. -/
def sameFields : List (String × Json) → List (String × Json) → Bool
  | [], _ => true
  | (k, v) :: fs, gs =>
    (match Table.get? k gs with
      | some w => same v w
      | none => false) && sameFields fs gs

end

instance : BEq Json := ⟨same⟩

end Json

end Marginalia
