/-
  Marginalia/Workspace/Tree.lean
  ==============================
  **File trees.**  A folder holds named files and folders.  A location is the list
  of names that leads to a file or folder from the top.  One function changes what
  stands at a location.
-/
import Marginalia.Fault
import Marginalia.Table

namespace Marginalia

/-- A file with its bytes, or a folder. -/
inductive FileTree where
  | file (bytes : List UInt8)
  | folder (entries : List (String × FileTree))

namespace FileTree

/-- A folder with nothing in it. -/
def empty : FileTree := .folder []

/-- What stands at a location. -/
def at? : List String → FileTree → Option FileTree
  | [], t => some t
  | _ :: _, .file _ => none
  | name :: rest, .folder entries =>
    match Table.get? name entries with
    | some t => at? rest t
    | none => none

/-- Puts something under a name, or takes away what is there. -/
def place (name : String) (t : Option FileTree) (entries : List (String × FileTree)) :
    List (String × FileTree) :=
  match t with
  | some t => Table.set name t entries
  | none => Table.erase name entries

/-- Changes what stands at a location, if the folders on the way are there. -/
def alter (f : Option FileTree → Except FileFault (Option FileTree)) :
    List String → Option FileTree → Except FileFault (Option FileTree)
  | [], t => f t
  | _ :: _, none => .error .missing
  | _ :: _, some (.file _) => .error .notFolder
  | name :: rest, some (.folder entries) => do
    let t ← alter f rest (Table.get? name entries)
    .ok (some (.folder (place name t entries)))

/-- Writes a file in place of nothing or of another file. -/
def writing (bytes : List UInt8) : Option FileTree → Except FileFault (Option FileTree)
  | some (.folder _) => .error .isFolder
  | _ => .ok (some (.file bytes))

/-- Makes a folder unless it is there. -/
def making : Option FileTree → Except FileFault (Option FileTree)
  | none => .ok (some empty)
  | some (.file _) => .error .isFile
  | some (.folder entries) => .ok (some (.folder entries))

/-- Takes a file away. -/
def removing : Option FileTree → Except FileFault (Option FileTree)
  | none => .error .missing
  | some (.file _) => .ok none
  | some (.folder _) => .error .isFolder

mutual

/-- All files with their locations. -/
def files : FileTree → List (List String × List UInt8)
  | .file bytes => [([], bytes)]
  | .folder entries => filesOf entries

/-- All files of the entries of a folder with their locations in it. -/
def filesOf : List (String × FileTree) → List (List String × List UInt8)
  | [] => []
  | (name, t) :: rest =>
    (files t).map (fun (place, bytes) => (name :: place, bytes)) ++ filesOf rest

end

/-! ### Looking up what was changed -/

theorem get?_place_some (name : String) (t : FileTree) (entries : List (String × FileTree)) :
    Table.get? name (place name (some t) entries) = some t :=
  Table.get?_set_same name t entries

end FileTree

end Marginalia
