/-
  Marginalia/Text/Search.lean
  ===========================
  **Finding and cutting text.**  Everything here is plain structural recursion
  over `List Char`: where a fixed text first occurs, what stands before and
  after it, splitting at a character, and replacing.
-/
namespace Marginalia.Text

/-- `cs` begins with `p`. -/
def startsWith (p cs : List Char) : Bool := p.isPrefixOf cs

/-- `cs` ends with `p`. -/
def endsWith (p cs : List Char) : Bool := p.isSuffixOf cs

/-- The offset at which `needle` first occurs. -/
def find? (needle : List Char) : List Char → Option Nat
  | [] => if needle.isEmpty then some 0 else none
  | c :: cs =>
    if startsWith needle (c :: cs) then some 0 else (find? needle cs).map (· + 1)

/-- `needle` occurs somewhere in the text. -/
def occursIn (needle cs : List Char) : Bool := (find? needle cs).isSome

/-- The text before and after the first occurrence of `needle`. -/
def cut? (needle cs : List Char) : Option (List Char × List Char) :=
  (find? needle cs).map fun i => (cs.take i, cs.drop (i + needle.length))

/-- The pieces between occurrences of `sep`, empty ones included: one more than there are
occurrences. -/
def splitAt (sep : Char) : List Char → List (List Char)
  | [] => [[]]
  | c :: cs =>
    if c = sep then [] :: splitAt sep cs
    else
      match splitAt sep cs with
      | [] => [[c]]
      | piece :: pieces => (c :: piece) :: pieces

/-- `splitAt` on strings. -/
def splitString (sep : Char) (s : String) : List String :=
  (splitAt sep s.toList).map String.ofList

/-- Every character `old` becomes `new`. -/
def replaceChar (old new : Char) (cs : List Char) : List Char :=
  cs.map fun c => if c = old then new else c

/-- Replaces every occurrence of a non-empty text, scanning from the left without overlap, and
counts them; `skip` characters of an occurrence are still to be passed over. -/
def replaceFrom (old new : List Char) (skip : Nat) : List Char → List Char × Nat
  | [] => ([], 0)
  | c :: cs =>
    match skip with
    | k + 1 => replaceFrom old new k cs
    | 0 =>
      if startsWith old (c :: cs) then
        let (out, n) := replaceFrom old new (old.length - 1) cs
        (new ++ out, n + 1)
      else
        let (out, n) := replaceFrom old new 0 cs
        (c :: out, n)

/-- Replaces every occurrence of `old`, with the number of replacements; an empty `old` occurs
before every character and at the end. -/
def replaceAll (old new cs : List Char) : List Char × Nat :=
  if old.isEmpty then
    (cs.flatMap (fun c => new ++ [c]) ++ new, cs.length + 1)
  else
    replaceFrom old new 0 cs

/-- The number of occurrences of a character. -/
def countChar (c : Char) (cs : List Char) : Nat := cs.countP (· == c)

/-! ### Laws of splitting -/

theorem splitAt_ne_nil (sep : Char) (cs : List Char) : splitAt sep cs ≠ [] := by
  cases cs with
  | nil => simp [splitAt]
  | cons c cs =>
    simp only [splitAt]
    split
    · simp
    · split <;> simp

end Marginalia.Text
