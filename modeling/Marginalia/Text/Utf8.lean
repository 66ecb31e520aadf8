/-
  Marginalia/Text/Utf8.lean
  =========================
  **UTF-8.**  Bytes of a text and the text of bytes.  Reading stops at the first
  sequence that is not UTF-8 and tells which bytes are at fault and why: a byte
  that starts no character, a character cut short by another byte, or one cut
  short by the end.
-/
import Marginalia.Text.Digit
import Marginalia.Text.Quoted

namespace Marginalia.Text

/-! ### Writing -/

/-- The bytes of one character. -/
def utf8Bytes (c : Char) : List UInt8 :=
  let n := c.toNat
  if n < 0x80 then [n.toUInt8]
  else if n < 0x800 then [(0xC0 + n / 0x40).toUInt8, (0x80 + n % 0x40).toUInt8]
  else if n < 0x10000 then
    [(0xE0 + n / 0x1000).toUInt8, (0x80 + n / 0x40 % 0x40).toUInt8, (0x80 + n % 0x40).toUInt8]
  else
    [(0xF0 + n / 0x40000).toUInt8, (0x80 + n / 0x1000 % 0x40).toUInt8,
      (0x80 + n / 0x40 % 0x40).toUInt8, (0x80 + n % 0x40).toUInt8]

/-- The bytes of a text. -/
def encodeUtf8 (cs : List Char) : List UInt8 := cs.flatMap utf8Bytes

/-- The number of bytes of a text. -/
def utf8Size (cs : List Char) : Nat := (encodeUtf8 cs).length

/-! ### Reading -/

/-- Why bytes are not UTF-8. -/
inductive Utf8Reason where
  | invalidStart
  | invalidContinuation
  | unexpectedEnd
  deriving DecidableEq, Repr

/-- The first fault in a byte sequence: the offset of the first byte at fault, how many bytes are,
the first of them, and the reason. -/
structure Utf8Fault where
  offset : Nat
  length : Nat
  byte : UInt8
  reason : Utf8Reason
  deriving DecidableEq, Repr

/-- What is owed after the first bytes of a character: how many continuation bytes, the range of
the next one, the value so far, and the bytes read so far. -/
structure Pending where
  owed : Nat
  low : Nat
  high : Nat
  value : Nat
  start : Nat
  read : Nat
  byte : UInt8

/-- The first byte of a character: the character itself, or what is owed after it. -/
def firstByte (offset : Nat) (b : UInt8) : Option (Char ⊕ Pending) :=
  let n := b.toNat
  if n < 0x80 then some (.inl (Char.ofNat n))
  else if 0xC2 ≤ n && n ≤ 0xDF then some (.inr ⟨1, 0x80, 0xBF, n - 0xC0, offset, 1, b⟩)
  else if n == 0xE0 then some (.inr ⟨2, 0xA0, 0xBF, 0, offset, 1, b⟩)
  else if n == 0xED then some (.inr ⟨2, 0x80, 0x9F, 0xD, offset, 1, b⟩)
  else if 0xE1 ≤ n && n ≤ 0xEF then some (.inr ⟨2, 0x80, 0xBF, n - 0xE0, offset, 1, b⟩)
  else if n == 0xF0 then some (.inr ⟨3, 0x90, 0xBF, 0, offset, 1, b⟩)
  else if n == 0xF4 then some (.inr ⟨3, 0x80, 0x8F, 4, offset, 1, b⟩)
  else if 0xF1 ≤ n && n ≤ 0xF3 then some (.inr ⟨3, 0x80, 0xBF, n - 0xF0, offset, 1, b⟩)
  else none

/-- Reads bytes from the given offset on, in the middle of a character if one is pending; `out`
holds the characters already read, last one first. -/
def decodeFrom (offset : Nat) (pending : Option Pending) (out : List Char) :
    List UInt8 → Except Utf8Fault (List Char)
  | [] =>
    match pending with
    | none => .ok out.reverse
    | some p => .error ⟨p.start, p.read, p.byte, .unexpectedEnd⟩
  | b :: bs =>
    match pending with
    | none =>
      match firstByte offset b with
      | some (.inl c) => decodeFrom (offset + 1) none (c :: out) bs
      | some (.inr p) => decodeFrom (offset + 1) (some p) out bs
      | none => .error ⟨offset, 1, b, .invalidStart⟩
    | some p =>
      if p.low ≤ b.toNat && b.toNat ≤ p.high then
        let value := p.value * 0x40 + (b.toNat - 0x80)
        if p.owed ≤ 1 then decodeFrom (offset + 1) none (Char.ofNat value :: out) bs
        else
          let p := { p with
            owed := p.owed - 1, low := 0x80, high := 0xBF, value, read := p.read + 1 }
          decodeFrom (offset + 1) (some p) out bs
      else .error ⟨p.start, p.read, p.byte, .invalidContinuation⟩

/-- The text of a byte sequence. -/
def decodeUtf8 (bytes : List UInt8) : Except Utf8Fault (List Char) := decodeFrom 0 none [] bytes

/-! ### Messages -/

/-- The wording of a reason. -/
def Utf8Reason.message : Utf8Reason → String
  | .invalidStart => "invalid start byte"
  | .invalidContinuation => "invalid continuation byte"
  | .unexpectedEnd => "unexpected end of data"

/-- The wording of a fault: one byte is named by its value, several by their positions. -/
def Utf8Fault.message (f : Utf8Fault) : String :=
  let place :=
    if f.length = 1 then
      "byte 0x" ++ String.ofList (hexDigits 2 f.byte.toNat) ++ " in position " ++ showNat f.offset
    else
      "bytes in position " ++ showNat f.offset ++ "-" ++ showNat (f.offset + f.length - 1)
  "'utf-8' codec can't decode " ++ place ++ ": " ++ f.reason.message

end Marginalia.Text
