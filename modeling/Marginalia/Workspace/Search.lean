/-
  Marginalia/Workspace/Search.lean
  ================================
  **Searching for annotated files.**  A search goes through a folder in the order
  of names, leaves out excluded names, and keeps files with one of the given
  endings in which there is something to report.  A file that cannot be read is
  reported with a warning and does not stop the search.
-/
import Marginalia.Database.Compile
import Marginalia.Extract.File
import Marginalia.Workspace.Basic

namespace Marginalia

open Marginalia.Text

/-! ### Files -/

/-- What is found in the bytes of a file. -/
def extractBytes (path : String) (bytes : List UInt8) : Except Fault Extraction :=
  match decodeUtf8 bytes with
  | .ok cs =>
    (Extract.extract (String.ofList (normalizeNewlines cs)) path).mapError IntFault.stop
  | .error fault =>
    .ok ⟨path, [], ["Failed to read file: " ++ path ++ ": " ++ fault.message]⟩

/-- What is found in the file of a path; the path is shown as it was given. -/
def Workspace.extractFile (w : Workspace) (path : String) : Except Fault Extraction :=
  match w.file? (Path.ofString path) with
  | some bytes => extractBytes path bytes
  | none => .ok ⟨path, [], ["File not found: " ++ path]⟩

/-! ### Folders -/

/-- The endings of source files. -/
def searchedEndings : List String := [".ts", ".tsx", ".js", ".jsx", ".vue", ".py"]

/-- Names that are never looked into. -/
def defaultExclude : List String :=
  ["node_modules", "dist", ".git", ".vite", "coverage", "__pycache__", ".venv"]

/-- What a search looks for. -/
structure Search where
  extensions : List String := searchedEndings
  /-- Names left out besides `defaultExclude`. -/
  exclude : List String := []
  /-- Folders below the first one are searched too. -/
  recursive : Bool := true
  /-- How many folders deep files may lie. -/
  maxDepth : Option Int := none

/-- A name that is left out. -/
def Search.excludes (s : Search) (name : String) : Bool :=
  defaultExclude.contains name || s.exclude.contains name

/-- A file name with one of the endings. -/
def Search.accepts (s : Search) (name : String) : Bool :=
  s.extensions.any fun ending => endsWith ending.toList name.toList

/-- Files at this depth are out of reach. -/
def Search.tooDeep (s : Search) (depth : Nat) : Bool :=
  s.maxDepth.any fun limit => limit < (depth : Int)

mutual

/-- The files that a search visits in a folder at the given depth: their locations in the folder
and their bytes, in the order of names. -/
def Search.visit (s : Search) (depth : Nat) : FileTree → List (List String × List UInt8)
  | .file _ => []
  | .folder entries =>
    if s.tooDeep depth then []
    else ((s.visitEntries depth entries).mergeSort fun a b => a.1 ≤ b.1).flatMap Prod.snd

/-- The files visited under each of the entries of a folder. -/
def Search.visitEntries (s : Search) (depth : Nat) :
    List (String × FileTree) → List (String × List (List String × List UInt8))
  | [] => []
  | (name, t) :: rest =>
    let visited := match t with
      | .file bytes => if s.accepts name then [([name], bytes)] else []
      | .folder _ =>
        if s.recursive then (s.visit (depth + 1) t).map fun (place, bytes) => (name :: place, bytes)
        else []
    (name, if s.excludes name then [] else visited) :: s.visitEntries depth rest

end

/-- The text of a name in a folder. -/
def pathIn (folder name : String) : String :=
  if endsWith ['/'] folder.toList then folder ++ name else folder ++ "/" ++ name

/-- The path shown for a file found below a folder.  Folders are shown in their plain form, so a
lone dot stands only before files that lie directly in it. -/
def shownPath (root : Path) (place : List String) : String :=
  pathIn (Path.text ⟨root.root, root.parts ++ place.dropLast⟩) (place.getLast?.getD "")

/-- What a search finds in a folder. -/
def Search.inFolder (s : Search) (root : Path) (t : FileTree) : Except Fault (List Extraction) := do
  let found ← (s.visit 0 t).mapM fun (place, bytes) => extractBytes (shownPath root place) bytes
  .ok (found.filter Extraction.hasFindings)

/-- Searches a folder. -/
def Workspace.searchFolder (w : Workspace) (s : Search) (root : Path) :
    Except Fault (List Extraction) :=
  match w.folder? root with
  | some t => s.inFolder root t
  | none => .error (.noScanRoot root.text)

/-- Searches the source folders of a project one after another, or the whole project when none of
them is there. -/
def Workspace.searchProject (w : Workspace) (s : Search) (root : Path) (sources : List String) :
    Except Fault (List Extraction) :=
  if w.isFolder root then do
    let folders := (sources.map fun name => root.join (Path.ofString name)).filter w.isFolder
    let found ← (if folders.isEmpty then [root] else folders).mapM (w.searchFolder s)
    .ok found.flatten
  else .error (.noProjectRoot root.text)

/-- Compiles what a search of a project finds. -/
def Workspace.compileSources (w : Workspace) (s : Search) (stamp : Stamp) (root : Path)
    (sources : List String) : Except Fault (List Extraction × Compiled) := do
  let found ← w.searchProject s root sources
  let db ← (compile ⟨w.cwd, some root.text⟩ stamp found).mapError Fault.value
  .ok (found, db)

end Marginalia
