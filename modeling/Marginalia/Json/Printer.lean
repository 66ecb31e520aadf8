/-
  Marginalia/Json/Printer.lean
  ============================
  **Writing JSON.**  A layout fixes what stands between items, after keys and at
  the start of lines, and whether characters outside ASCII are escaped.  Strings
  escape the quote, the backslash and control characters below U+0020; empty
  containers are written without a line break.
-/
import Marginalia.Json.Basic
import Marginalia.Text.Quoted

namespace Marginalia.Json

/-- How values are laid out. -/
structure Layout where
  /-- Spaces per level, each item on a line of its own; `none` keeps everything on one line. -/
  indent : Option Nat
  /-- What stands between items. -/
  comma : List Char
  /-- What stands between a key and its value. -/
  colon : List Char
  /-- Characters other than printable ASCII ones are written as escapes. -/
  asciiOnly : Bool

/-- Two spaces a level, text as it is. -/
def Layout.indented : Layout := ⟨some 2, [','], [':', ' '], false⟩

/-- Two spaces a level, ASCII only. -/
def Layout.indentedAscii : Layout := ⟨some 2, [','], [':', ' '], true⟩

/-- One line without blanks, text as it is. -/
def Layout.compact : Layout := ⟨none, [','], [':'], false⟩

/-- One line with a blank after commas and colons, ASCII only. -/
def Layout.spacedAscii : Layout := ⟨none, [',', ' '], [':', ' '], true⟩

/-! ### Strings -/

/-- An escape of one sixteen-bit unit. -/
def escapeUnit (n : Nat) : List Char := '\\' :: 'u' :: Text.hexDigits 4 n

/-- One character of a string. -/
def escapeChar (asciiOnly : Bool) (c : Char) : List Char :=
  if c = '"' then ['\\', '"']
  else if c = '\\' then ['\\', '\\']
  else if c = '\n' then ['\\', 'n']
  else if c = '\r' then ['\\', 'r']
  else if c = '\t' then ['\\', 't']
  else if c.toNat = 8 then ['\\', 'b']
  else if c.toNat = 12 then ['\\', 'f']
  else if c.toNat < 0x20 then escapeUnit c.toNat
  else if asciiOnly && 0x7E < c.toNat then
    if c.toNat < 0x10000 then escapeUnit c.toNat
    else
      let n := c.toNat - 0x10000
      escapeUnit (0xD800 + n / 0x400) ++ escapeUnit (0xDC00 + n % 0x400)
  else [c]

/-- A string with its quotes. -/
def writeString (asciiOnly : Bool) (s : String) : List Char :=
  '"' :: s.toList.flatMap (escapeChar asciiOnly) ++ ['"']

/-! ### Values -/

/-- A floating point number. -/
def writeFloat : Binary64 → List Char
  | .finite s m e => if s then '-' :: Binary64.finiteText m e else Binary64.finiteText m e
  | .infinite s => if s then "-Infinity".toList else "Infinity".toList
  | .nan => "NaN".toList

/-- The line break in front of an item at a depth. -/
def Layout.newline (l : Layout) (depth : Nat) : List Char :=
  match l.indent with
  | none => []
  | some step => '\n' :: List.replicate (step * depth) ' '

mutual

/-- A value at a depth. -/
def write (l : Layout) (depth : Nat) : Json → List Char
  | .null => "null".toList
  | .bool b => if b then "true".toList else "false".toList
  | .int n => Text.decimalInt n
  | .float x => writeFloat x
  | .str s => writeString l.asciiOnly s
  | .arr [] => ['[', ']']
  | .arr (v :: vs) =>
    '[' :: l.newline (depth + 1) ++ write l (depth + 1) v ++ writeItems l (depth + 1) vs
      ++ l.newline depth ++ [']']
  | .obj [] => ['{', '}']
  | .obj ((k, v) :: fs) =>
    '{' :: l.newline (depth + 1) ++ writeString l.asciiOnly k ++ l.colon
      ++ write l (depth + 1) v ++ writeFields l (depth + 1) fs ++ l.newline depth ++ ['}']

/-- The items after the first one. -/
def writeItems (l : Layout) (depth : Nat) : List Json → List Char
  | [] => []
  | v :: vs => l.comma ++ l.newline depth ++ write l depth v ++ writeItems l depth vs

/-- The members after the first one. -/
def writeFields (l : Layout) (depth : Nat) : List (String × Json) → List Char
  | [] => []
  | (k, v) :: fs =>
    l.comma ++ l.newline depth ++ writeString l.asciiOnly k ++ l.colon ++ write l depth v
      ++ writeFields l depth fs

end

/-- A value as text. -/
def render (l : Layout) (v : Json) : String := String.ofList (write l 0 v)

end Marginalia.Json
