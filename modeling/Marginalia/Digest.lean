/-
  Marginalia/Digest.lean
  ======================
  **SHA-256.**  The digest of a byte sequence: bytes are padded to whole blocks of
  sixty-four, and every block is stirred into a state of eight words.  Words are
  thirty-two bits wide and wrap around.
-/
import Marginalia.Text.Quoted

namespace Marginalia.Digest

/-! ### Words -/

def rotateRight (x : UInt32) (n : UInt32) : UInt32 := (x >>> n) ||| (x <<< (32 - n))

def choose (x y z : UInt32) : UInt32 := (x &&& y) ^^^ (~~~x &&& z)

def majority (x y z : UInt32) : UInt32 := (x &&& y) ^^^ (x &&& z) ^^^ (y &&& z)

def bigSigma0 (x : UInt32) : UInt32 := rotateRight x 2 ^^^ rotateRight x 13 ^^^ rotateRight x 22

def bigSigma1 (x : UInt32) : UInt32 := rotateRight x 6 ^^^ rotateRight x 11 ^^^ rotateRight x 25

def smallSigma0 (x : UInt32) : UInt32 := rotateRight x 7 ^^^ rotateRight x 18 ^^^ (x >>> 3)

def smallSigma1 (x : UInt32) : UInt32 := rotateRight x 17 ^^^ rotateRight x 19 ^^^ (x >>> 10)

/-- The constants of the sixty-four rounds. -/
def roundConstants : List UInt32 :=
  [0x428a2f98, 0x71374491, 0xb5c0fbcf, 0xe9b5dba5, 0x3956c25b, 0x59f111f1, 0x923f82a4, 0xab1c5ed5,
   0xd807aa98, 0x12835b01, 0x243185be, 0x550c7dc3, 0x72be5d74, 0x80deb1fe, 0x9bdc06a7, 0xc19bf174,
   0xe49b69c1, 0xefbe4786, 0x0fc19dc6, 0x240ca1cc, 0x2de92c6f, 0x4a7484aa, 0x5cb0a9dc, 0x76f988da,
   0x983e5152, 0xa831c66d, 0xb00327c8, 0xbf597fc7, 0xc6e00bf3, 0xd5a79147, 0x06ca6351, 0x14292967,
   0x27b70a85, 0x2e1b2138, 0x4d2c6dfc, 0x53380d13, 0x650a7354, 0x766a0abb, 0x81c2c92e, 0x92722c85,
   0xa2bfe8a1, 0xa81a664b, 0xc24b8b70, 0xc76c51a3, 0xd192e819, 0xd6990624, 0xf40e3585, 0x106aa070,
   0x19a4c116, 0x1e376c08, 0x2748774c, 0x34b0bcb5, 0x391c0cb3, 0x4ed8aa4a, 0x5b9cca4f, 0x682e6ff3,
   0x748f82ee, 0x78a5636f, 0x84c87814, 0x8cc70208, 0x90befffa, 0xa4506ceb, 0xbef9a3f7, 0xc67178f2]

/-- The state of eight words. -/
structure State where
  a : UInt32
  b : UInt32
  c : UInt32
  d : UInt32
  e : UInt32
  f : UInt32
  g : UInt32
  h : UInt32
  deriving DecidableEq, Repr

/-- The state before the first block. -/
def State.start : State :=
  ⟨0x6a09e667, 0xbb67ae85, 0x3c6ef372, 0xa54ff53a, 0x510e527f, 0x9b05688c, 0x1f83d9ab, 0x5be0cd19⟩

/-- The words of a state in order. -/
def State.words (s : State) : List UInt32 := [s.a, s.b, s.c, s.d, s.e, s.f, s.g, s.h]

/-- Adds two states word by word. -/
def State.add (s t : State) : State :=
  ⟨s.a + t.a, s.b + t.b, s.c + t.c, s.d + t.d, s.e + t.e, s.f + t.f, s.g + t.g, s.h + t.h⟩

/-! ### Blocks -/

/-- The word of four bytes, highest byte first. -/
def wordOf (w x y z : UInt8) : UInt32 :=
  (w.toUInt32 <<< 24) ||| (x.toUInt32 <<< 16) ||| (y.toUInt32 <<< 8) ||| z.toUInt32

/-- The words of a byte sequence; bytes that do not fill a word are left out. -/
def wordsOf : List UInt8 → List UInt32
  | w :: x :: y :: z :: rest => wordOf w x y z :: wordsOf rest
  | _ => []

/-- The bytes of a word, highest byte first. -/
def bytesOf (w : UInt32) : List UInt8 :=
  [(w >>> 24).toUInt8, (w >>> 16).toUInt8, (w >>> 8).toUInt8, w.toUInt8]

/-- The words of a block extended to one for every round. -/
def schedule (block : List UInt32) : List UInt32 :=
  let extend (w : Array UInt32) (i : Nat) : Array UInt32 :=
    w.push (smallSigma1 (w.getD (i + 14) 0) + w.getD (i + 9) 0 + smallSigma0 (w.getD (i + 1) 0)
      + w.getD i 0)
  ((List.range 48).foldl extend block.toArray).toList

/-- One round. -/
def State.round (s : State) (constant word : UInt32) : State :=
  let t := s.h + bigSigma1 s.e + choose s.e s.f s.g + constant + word
  let u := bigSigma0 s.a + majority s.a s.b s.c
  ⟨t + u, s.a, s.b, s.c, s.d + t, s.e, s.f, s.g⟩

/-- Stirs a block of sixteen words into a state. -/
def State.absorb (s : State) (block : List UInt32) : State :=
  s.add ((roundConstants.zip (schedule block)).foldl (fun t (k, w) => t.round k w) s)

/-- Stirs in all blocks of sixteen words. -/
def State.absorbAll (s : State) (words : List UInt32) : State :=
  if words.length < 16 then s
  else (s.absorb (words.take 16)).absorbAll (words.drop 16)
termination_by words.length
decreasing_by simp; omega

/-- The padding of a message of the given length: one bit, zeros up to eight bytes before a block
ends, and the length in bits. -/
def padding (length : Nat) : List UInt8 :=
  let bits := length * 8
  0x80 :: List.replicate ((119 - length % 64) % 64) 0
    ++ bytesOf (bits / 0x100000000).toUInt32 ++ bytesOf bits.toUInt32

/-- The digest of a byte sequence. -/
def sha256 (bytes : List UInt8) : List UInt8 :=
  (State.start.absorbAll (wordsOf (bytes ++ padding bytes.length))).words.flatMap bytesOf

/-- The digest in hexadecimal. -/
def sha256Hex (bytes : List UInt8) : String :=
  String.ofList ((sha256 bytes).flatMap fun b => Text.hexDigits 2 b.toNat)

end Marginalia.Digest
