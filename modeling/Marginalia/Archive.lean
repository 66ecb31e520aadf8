/-
  Marginalia/Archive.lean
  =======================
  **Stored databases.**  A database is kept as an indented JSON file beside a file
  with the digest of its text.  Reading checks the format before the parts; a
  part that cannot be used makes the database malformed.  How deep a document may be
  nested depends on the room that whoever reads it has left (`readWithin`).
-/
import Marginalia.Database.Document
import Marginalia.Digest
import Marginalia.Json.Printer
import Marginalia.Json.Reader
import Marginalia.Workspace.Basic

namespace Marginalia.Archive

open Marginalia.Text

/-- The name of the file of a database. -/
def databaseName : String := "metamode-db.json"

/-- The name of the file of its digest. -/
def digestName : String := "metamode-db.sha256"

/-- The name of the file of a production database. -/
def releaseName : String := "metamode-db.prod.json"

/-- A file in a folder. -/
def fileIn (folder : Path) (name : String) : Path := ⟨folder.root, folder.parts ++ [name]⟩

/-! ### Writing -/

/-- The text of a database. -/
def encode (db : Stored) : String := Json.render .indented db.toJson

/-- The digest of a text. -/
def digest (cs : List Char) : String := Digest.sha256Hex (encodeUtf8 cs)

/-- Writes a database and its digest into a folder, and gives the two paths. -/
def write (db : Stored) (folder : Path) : Work (Path × Path) := do
  Work.makeFolder folder
  let text := encode db
  Work.writeText (fileIn folder databaseName) (text ++ "\n")
  Work.writeText (fileIn folder digestName) (digest text.toList ++ "\n")
  pure (fileIn folder databaseName, fileIn folder digestName)

/-! ### Reading -/

/-- The format that a document names; a document without build information names none. -/
def formatOf (fields : List (String × Json)) : Json :=
  match Table.get? "buildInfo" fields with
  | some (.obj info) => (Table.get? "format" info).getD .null
  | _ => .null

/-- A fault of a part makes the whole malformed, except where a part is asked for members that it
cannot have or holds a number without bound. -/
def partFault (path : String) : ShapeFault → Fault
  | .noPart => .shape .noPart
  | .infinite => .shape .infinite
  | cause => .archive path (.malformed cause)

/-- The database of a document. -/
def ofDocument (path : String) (document : Json) : Except Fault Stored :=
  match document with
  | .obj fields =>
    match formatOf fields with
    | .str name =>
      if name = databaseFormat then (Database.ofJson document).mapError (partFault path)
      else .error (.archive path (.format (.str name)))
    | found => .error (.archive path (.format found))
  | _ => .error (.archive path .notObject)

/-- The database of a text, with room for `limit` open containers. -/
def decode (limit : Nat) (path : String) (text : List Char) : Except Fault Stored :=
  match Json.readWithin limit text with
  | .ok document => ofDocument path document
  | .error .notJson => .error (.archive path .notJson)
  | .error (.hugeInteger digits) => .error (.value (.tooManyDigits digits))
  | .error .tooDeep => .error .tooDeep

/-- Reads a database from its file, or from the folder that holds it, with room for `limit` open
containers. -/
def readWithin (limit : Nat) (w : Workspace) (path : Path) : Except Fault Stored := do
  let path := if w.isFolder path then fileIn path databaseName else path
  if w.hasPath path then decode limit path.text (← w.readText path)
  else .error (.archive path.text .notFound)

/-- `readWithin` with the usual room. -/
def read (w : Workspace) (path : Path) : Except Fault Stored := readWithin Json.openLimit w path

/-- The text without line feeds at its end. -/
def dropFinalNewlines (cs : List Char) : List Char := (cs.reverse.dropWhile (· == '\n')).reverse

/-- The stored digest is the one of the stored database; both files have to be there. -/
def verify (w : Workspace) (folder : Path) : Except Fault Bool := do
  let database := fileIn folder databaseName
  let digestPath := fileIn folder digestName
  if w.hasPath database && w.hasPath digestPath then
    let text ← w.readText database
    let expected ← w.readText digestPath
    .ok (digest (dropFinalNewlines text) == String.ofList (trim expected))
  else .ok false

end Marginalia.Archive
