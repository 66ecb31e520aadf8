/-
  Marginalia/Path.lean
  ====================
  **Paths.**  A path is read without looking at any file: repeated slashes, `.`
  components and a trailing slash vanish, `..` stays.  Two leading slashes are
  kept as such; any other number of them means one.
-/
import Marginalia.Text.Search

namespace Marginalia

/-- A path: the slashes it starts with, and its components. -/
structure Path where
  root : String
  parts : List String
  deriving DecidableEq, Repr

namespace Path

/-- The components between slashes that carry meaning. -/
def components (s : String) : List String :=
  (Text.splitString '/' s).filter fun p => p ≠ "" && p ≠ "."

/-- The slashes at the start. -/
def rootOf (s : String) : String :=
  match (s.toList.takeWhile (· == '/')).length with
  | 0 => ""
  | 2 => "//"
  | _ => "/"

/-- The path that a text stands for. -/
def ofString (s : String) : Path := ⟨rootOf s, components s⟩

/-- The text of a path; an empty one is a dot. -/
def text (p : Path) : String :=
  if p.root.isEmpty && p.parts.isEmpty then "." else p.root ++ String.intercalate "/" p.parts

/-- The last component, empty if there is none. -/
def name (p : Path) : String := p.parts.getLast?.getD ""

/-- The path of `q` below `p`; an absolute `q` replaces `p`. -/
def join (p q : Path) : Path := if q.root.isEmpty then ⟨p.root, p.parts ++ q.parts⟩ else q

/-- The path without its last component. -/
def parent (p : Path) : Path := ⟨p.root, p.parts.dropLast⟩

/-- The rest of `p` after the components of `base`, if it starts with them. -/
def relativeTo? (p base : Path) : Option Path :=
  if p.root = base.root && base.parts.isPrefixOf p.parts then
    some ⟨"", p.parts.drop base.parts.length⟩
  else none

/-- Components with every `..` taking back the one before it; at the root it takes back nothing. -/
def resolveFrom : List String → List String → List String
  | done, [] => done
  | done, c :: cs => resolveFrom (if c = ".." then done.dropLast else done ++ [c]) cs

/-- The components of a path from the root on, for a current directory. -/
def absolute (cwd : List String) (s : String) : List String :=
  resolveFrom [] (if (rootOf s).isEmpty then cwd ++ components s else components s)

/-- How many components two paths share at the start. -/
def commonLength : List String → List String → Nat
  | a :: as, b :: bs => if a = b then commonLength as bs + 1 else 0
  | _, _ => 0

/-- The way from `start` to `s` through `..` and down again. -/
def wayFrom (cwd : List String) (s start : String) : Path :=
  let source := absolute cwd start
  let target := absolute cwd s
  let n := commonLength source target
  ⟨"", List.replicate (source.length - n) ".." ++ target.drop n⟩

/-- The name of the file that a path names. -/
def basename (s : String) : String := (ofString s).name

end Path

end Marginalia
