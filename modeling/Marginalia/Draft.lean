/-
  Marginalia/Draft.lean
  =====================
  **Suggestions.**  A draft annotation for a file that has none, made from its
  path and from annotated files beside it; and the list of staged files that need
  one.
-/
import Marginalia.Database.Compile
import Marginalia.Record.Writer
import Marginalia.Text.Case

namespace Marginalia.Draft

open Marginalia.Text

variable {α κ : Type}

/-- The components of a path with either kind of slash, empty ones included. -/
def pathParts (path : String) : List (List Char) :=
  splitAt '/' (replaceChar '\\' '/' path.toList)

/-! ### Ids -/

/-- A file name without what follows its last point, unless that point is its first character. -/
def stem (name : List Char) : List Char :=
  match name with
  | [] => []
  | c :: cs =>
    if cs.contains '.' then
      c :: ((cs.reverse.dropWhile (· != '.')).drop 1).reverse
    else c :: cs

/-- ASCII letters, digits and the underscore. -/
def isWordChar (c : Char) : Bool := c.isAlphanum || c = '_'

/-- Every character other than a word character becomes an underscore, and of adjacent underscores
one stays. -/
def squeeze : List Char → List Char
  | [] => []
  | c :: cs =>
    let rest := squeeze cs
    if isWordChar c && c ≠ '_' then c :: rest
    else if rest.head? == some '_' then rest
    else '_' :: rest

/-- Text without underscores at either end. -/
def trimUnderscores (cs : List Char) : List Char :=
  (((cs.dropWhile (· == '_')).reverse).dropWhile (· == '_')).reverse

/-- The id suggested for a file. -/
def idFor (path : String) : String :=
  let name := Path.basename (String.ofList (replaceChar '\\' '/' path.toList))
  String.ofList (lower (trimUnderscores (squeeze (stem name.toList))))

/-! ### Tags and phase -/

/-- Names of directories and the tag that they suggest, in the order of tags. -/
def folderTags : List (List String × String) :=
  [(["lib"], "lib"), (["ui", "components"], "ui"), (["utils", "helpers"], "utils"),
   (["scripts"], "scripts")]

/-- The tags suggested for a file. -/
def tagsFor (path : String) : List String :=
  let parts := (pathParts path).map String.ofList
  (folderTags.filter fun (names, _) => names.any parts.contains).map Prod.snd

/-- The name of the directory that a file lies in. -/
def parentName? (path : String) : Option (List Char) := ((pathParts path).reverse.drop 1).head?

/-- The phase of the first entry with one in a directory of the same name. -/
def neighbourPhase (db : Database α κ) (path : String) : Option Int :=
  match parentName? path with
  | none => none
  | some parent =>
    (Table.values db.entries).findSome? fun e =>
      if parentName? e.filePath == some parent then e.phase else none

/-! ### Annotations -/

/-- The description that stands for one to be written. -/
def placeholder : String := "Describe this module"

/-- The draft annotation for a file. -/
def suggestion (db : Database α κ) (style : Writer.Style) (path : String) : String :=
  let tags := tagsFor path
  Writer.comment style <|
    [Writer.fieldLine "id" (idFor path), Writer.fieldLine "desc" placeholder]
      ++ (if tags.isEmpty then [] else [Writer.fieldLine "tags" (String.intercalate "," tags)])
      ++ (match neighbourPhase db path with
          | some phase => [Writer.fieldLine "phase" (showInt phase)]
          | none => [])
      ++ [Writer.fieldLine "status" "draft"]

/-! ### Staged files -/

/-- The endings of files that should be annotated. -/
def sourceEndings : List String := [".ts", ".tsx", ".js", ".jsx", ".vue", ".py"]

/-- The name of a file ends so. -/
def hasEnding (ending path : String) : Bool := endsWith ending.toList path.toList

/-- A file without annotations, and a draft for it. -/
structure Missing where
  path : String
  draft : String
  deriving DecidableEq, Repr

/-- The staged source files that no entry comes from.  An entry may name a file as it is staged or
by the way to it from the root. -/
def missingAnnotations (db : Database α κ) (cwd : List String) (root : String)
    (staged : List String) : List Missing :=
  let annotated := (Table.values db.entries).map (·.filePath)
  (staged.filter fun path =>
    sourceEndings.any (hasEnding · path)
      && !annotated.contains path
      && !annotated.contains (Path.wayFrom cwd path root).text).map fun path =>
        ⟨path, suggestion db (if hasEnding ".py" path then .hash else .block) path⟩

end Marginalia.Draft
