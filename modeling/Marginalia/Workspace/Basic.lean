/-
  Marginalia/Workspace/Basic.lean
  ===============================
  **Workspaces.**  All files as they are at one moment, and the current directory
  that relative paths start from.  A path is followed one component after another:
  `..` leads to the folder above, and every component but the last has to name a
  folder.  Work that stops half way leaves the files that it has written.
-/
import Marginalia.Path
import Marginalia.Text.Lines
import Marginalia.Workspace.Tree

namespace Marginalia

open Marginalia.Text

/-- Files and the current directory. -/
structure Workspace where
  tree : FileTree
  cwd : List String

namespace Workspace

/-! ### Following paths -/

/-- The location that components lead to. -/
def follow (t : FileTree) (here : List String) : List String → Except FileFault (List String)
  | [] => .ok here
  | c :: cs =>
    match t.at? here with
    | none => .error .missing
    | some (.file _) => .error .notFolder
    | some (.folder _) => follow t (if c = ".." then here.dropLast else here ++ [c]) cs

/-- Where a path starts. -/
def origin (w : Workspace) (p : Path) : List String := if p.root.isEmpty then w.cwd else []

/-- The location that a path leads to. -/
def locate (w : Workspace) (p : Path) : Except FileFault (List String) :=
  follow w.tree (w.origin p) p.parts

/-- What a path leads to. -/
def find (w : Workspace) (p : Path) : Except FileFault FileTree := do
  match w.tree.at? (← w.locate p) with
  | some t => .ok t
  | none => .error .missing

/-- Something has this path. -/
def hasPath (w : Workspace) (p : Path) : Bool := (w.find p).toBool

/-- What stands in a folder of this path. -/
def folder? (w : Workspace) (p : Path) : Option FileTree :=
  match w.find p with
  | .ok (.folder entries) => some (.folder entries)
  | _ => none

/-- The bytes of a file with this path. -/
def file? (w : Workspace) (p : Path) : Option (List UInt8) :=
  match w.find p with
  | .ok (.file bytes) => some bytes
  | _ => none

/-- The path names a folder. -/
def isFolder (w : Workspace) (p : Path) : Bool := (w.folder? p).isSome

/-- What a path written as a text leads to.  Nothing has an empty path, and a text that ends in a
slash or in a lone dot leads only to folders. -/
def findText (w : Workspace) (s : String) : Option FileTree :=
  let folderOnly := match (splitString '/' s).getLast? with
    | some last => last = "" || last = "."
    | none => true
  if s.isEmpty then none
  else
    match w.find (Path.ofString s) with
    | .ok (.folder entries) => some (.folder entries)
    | .ok (.file bytes) => if folderOnly then none else some (.file bytes)
    | .error _ => none

/-! ### Reading -/

/-- The bytes of a file. -/
def readBytes (w : Workspace) (p : Path) : Except Fault (List UInt8) :=
  match w.find p with
  | .ok (.file bytes) => .ok bytes
  | .ok (.folder _) => .error (.file p.text .isFolder)
  | .error cause => .error (.file p.text cause)

/-- The text of a file as it stands. -/
def readExact (w : Workspace) (p : Path) : Except Fault (List Char) := do
  (decodeUtf8 (← w.readBytes p)).mapError .encoding

/-- The text of a file with its line ends brought to line feeds. -/
def readText (w : Workspace) (p : Path) : Except Fault (List Char) := do
  .ok (normalizeNewlines (← w.readExact p))

/-- The paths of all files below the current directory, in order. -/
def list (w : Workspace) : List String :=
  match w.tree.at? w.cwd with
  | some t =>
    (t.files.map fun (place, _) => String.intercalate "/" place).mergeSort fun a b => a ≤ b
  | none => []

/-- The files that are new or have other bytes than before, with their locations. -/
def changedSince (w before : Workspace) : List (List String × List UInt8) :=
  w.tree.files.filter fun (place, bytes) =>
    match before.tree.at? place with
    | some (.file old) => old != bytes
    | _ => true

/-! ### Changing -/

/-- Changes what stands at a location. -/
def alterAt (w : Workspace) (f : Option FileTree → Except FileFault (Option FileTree))
    (location : List String) : Except FileFault Workspace := do
  match ← FileTree.alter f location (some w.tree) with
  | some t => .ok { w with tree := t }
  | none => .error .missing

/-- Makes the folders that components lead through; only at the last one a file is in the way of a
folder to be made, before it the path leads through a file. -/
def makeFrom (w : Workspace) (here : List String) : List String → Except FileFault Workspace
  | [] => .ok w
  | c :: cs =>
    if c = ".." then w.makeFrom here.dropLast cs
    else
      match w.alterAt FileTree.making (here ++ [c]) with
      | .ok w => w.makeFrom (here ++ [c]) cs
      | .error .isFile => .error (if cs.isEmpty then .isFile else .notFolder)
      | .error e => .error e

end Workspace

/-- Work on files: what it has changed stays changed when it stops. -/
abbrev Work (α : Type) := ExceptT Fault (StateM Workspace) α

namespace Work

/-- Changes the workspace unless something is in the way. -/
def change (p : Path) (f : Workspace → Except FileFault Workspace) : Work Unit := do
  match f (← get) with
  | .ok w => set w
  | .error cause => throw (.file p.text cause)

/-- Makes a folder and those above it. -/
def makeFolder (p : Path) : Work Unit := change p fun w => w.makeFrom (w.origin p) p.parts

/-- Writes a file into a folder that is there. -/
def writeFile (p : Path) (bytes : List UInt8) : Work Unit :=
  change p fun w => do w.alterAt (FileTree.writing bytes) (← w.locate p)

/-- Writes a text. -/
def writeText (p : Path) (s : String) : Work Unit := writeFile p (encodeUtf8 s.toList)

/-- Removes a file. -/
def removeFile (p : Path) : Work Unit :=
  change p fun w => do w.alterAt FileTree.removing (← w.locate p)

/-- What reading the workspace gives. -/
def reading {α : Type} (f : Workspace → Except Fault α) : Work α := do
  match f (← get) with
  | .ok a => pure a
  | .error fault => throw fault

/-- Replaces a text in a file and counts the places. -/
def replaceIn (p : Path) (old new : String) : Work Nat := do
  let cs ← reading (·.readExact p)
  let (out, n) := replaceAll old.toList new.toList cs
  writeFile p (encodeUtf8 out)
  pure n

end Work

end Marginalia
