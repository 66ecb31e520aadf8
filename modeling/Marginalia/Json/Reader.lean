/-
  Marginalia/Json/Reader.lean
  ===========================
  **Reading JSON.**  A machine with a stack of open containers takes one token at
  a time; the text is a value when the stack is empty at its end.  A key that is
  given twice keeps its first place and its last value.

  The stack has room for a limited number of containers.  The one that would be one
  too many ends the reading, whatever follows it.
-/
import Marginalia.Json.Token

namespace Marginalia.Json

/-- Why a text is not read as a value. -/
inductive ReadFault where
  /-- The text is not JSON. -/
  | notJson
  /-- A whole number with this many digits, more than are converted. -/
  | hugeInteger (digits : Nat)
  /-- A container begins inside as many others as there is room for. -/
  | tooDeep
  deriving DecidableEq, Repr

/-- An open container. -/
inductive Frame where
  /-- An array with the items so far, last one first. -/
  | items (done : List Json)
  /-- An object between members. -/
  | members (done : List (String × Json))
  /-- An object whose next member has this key and no value yet. -/
  | member (done : List (String × Json)) (key : String)

/-- What may come next. -/
inductive Expect where
  | value
  /-- The first item of an array, or its end. -/
  | itemOrEnd
  /-- The first key of an object, or its end. -/
  | keyOrEnd
  | key
  | colon (key : String)
  /-- A value has ended. -/
  | after (v : Json)

/-- The reader: open containers, innermost first, and what may come next. -/
structure Reader where
  stack : List Frame
  expect : Expect

/-- A reader at the start of a text. -/
def Reader.start : Reader := ⟨[], .value⟩

/-- A container begins, unless there is no room for it. -/
def Reader.opening (limit : Nat) (stack : List Frame) (frame : Frame) (expect : Expect) :
    Except ReadFault Reader :=
  if stack.length < limit then .ok ⟨frame :: stack, expect⟩ else .error .tooDeep

/-- A token where a value must stand. -/
def Reader.value (limit : Nat) (stack : List Frame) : Token → Except ReadFault Reader
  | .scalar v => .ok ⟨stack, .after v⟩
  | .str s => .ok ⟨stack, .after (.str s)⟩
  | .openArr => Reader.opening limit stack (.items []) .itemOrEnd
  | .openObj => Reader.opening limit stack (.members []) .keyOrEnd
  | .huge n => .error (.hugeInteger n)
  | _ => .error .notJson

/-- A token after a value. -/
def Reader.after (stack : List Frame) (v : Json) (t : Token) : Except ReadFault Reader :=
  match stack, t with
  | .items done :: stack, .comma => .ok ⟨.items (v :: done) :: stack, .value⟩
  | .items done :: stack, .closeArr => .ok ⟨stack, .after (.arr (v :: done).reverse)⟩
  | .member done k :: stack, .comma => .ok ⟨.members (Table.set k v done) :: stack, .key⟩
  | .member done k :: stack, .closeObj => .ok ⟨stack, .after (.obj (Table.set k v done))⟩
  | _, _ => .error .notJson

/-- One more token. -/
def Reader.next (limit : Nat) (r : Reader) (t : Token) : Except ReadFault Reader :=
  match r.expect, t, r.stack with
  | .value, t, stack => Reader.value limit stack t
  | .itemOrEnd, .closeArr, .items [] :: stack => .ok ⟨stack, .after (.arr [])⟩
  | .itemOrEnd, t, stack => Reader.value limit stack t
  | .keyOrEnd, .closeObj, .members [] :: stack => .ok ⟨stack, .after (.obj [])⟩
  | .keyOrEnd, .str s, stack => .ok ⟨stack, .colon s⟩
  | .key, .str s, stack => .ok ⟨stack, .colon s⟩
  | .colon k, .colon, .members done :: stack => .ok ⟨.member done k :: stack, .value⟩
  | .after v, t, stack => Reader.after stack v t
  | _, _, _ => .error .notJson

/-- The value at the end of the text. -/
def Reader.finish (r : Reader) : Except ReadFault Json :=
  match r.expect, r.stack with
  | .after v, [] => .ok v
  | _, _ => .error .notJson

/-- The value of a sequence of tokens, with room for `limit` open containers. -/
def ofTokens (limit : Nat) (ts : List Token) : Except ReadFault Json := do
  (← ts.foldlM (Reader.next limit) Reader.start).finish

/-- The value that a text stands for, with room for `limit` open containers.  Strings are read as
they are written if the text is paired; else replacement characters stand in them. -/
def readWithin (limit : Nat) (text : List Char) : Except ReadFault Json :=
  ofTokens limit (tokens text)

/-- The room that there is where nothing else is said: a stack of a thousand calls, less those that
lead to the reader. -/
def openLimit : Nat := 985

/-- The value that a text stands for: no more than `openLimit` containers may be open at once, and
half of a surrogate pair that is escaped alone becomes the replacement character. -/
def read (text : List Char) : Except ReadFault Json := readWithin openLimit text

/-- `read` on strings. -/
def readString (s : String) : Except ReadFault Json := read s.toList

end Marginalia.Json
