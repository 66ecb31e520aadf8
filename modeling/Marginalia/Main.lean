/-
  Marginalia/Main.lean
  ====================
  **The program.**  Takes the files below the current directory and those that the
  arguments name into a workspace, runs the command line on it, and writes the
  files that have changed.  Folders that no search looks into are taken in only
  when an argument names them.
-/
import Marginalia.Command.Run
import Std.Time.Format

namespace Marginalia.Program

/-- What an entry of a folder on disk holds.  Links to folders are not followed, and what cannot
be read is left out. -/
partial def load (entry : IO.FS.DirEntry) : IO (Option FileTree) := do
  try
    let info ← entry.path.metadata
    if info.type == .dir then
      let mut entries := #[]
      for inner in ← entry.path.readDir do
        let link ← inner.path.symlinkMetadata
        let skipped := defaultExclude.contains inner.fileName
          || (link.type == .symlink && (← inner.path.isDir))
        unless skipped do
          if let some t ← load inner then
            entries := entries.push (inner.fileName, t)
      return some (.folder entries.toList)
    else if info.type == .file then
      return some (.file (← IO.FS.readBinFile entry.path).data.toList)
    else return none
  catch _ => return none

/-- The workspace with something put at a location. -/
def put (w : Workspace) (location : List String) (t : FileTree) : Workspace :=
  let placed := do
    let w ← w.makeFrom [] location.dropLast
    w.alterAt (fun _ => .ok (some t)) location
  placed.toOption.getD w

/-- The current directory with everything below it, and what the arguments name elsewhere. -/
def takeIn (args : List String) : IO Workspace := do
  let here ← IO.currentDir
  let cwd := Path.components here.toString
  let mut w : Workspace := ⟨.empty, cwd⟩
  for name in "." :: args.map fun arg => (Command.nameAndValue arg).2.getD arg do
    unless w.hasPath (Path.ofString name) do
      if let some t ← load ⟨here, name⟩ then
        w := put w (Path.absolute cwd name) t
  return w

/-- The present time in universal time. -/
def now : IO String := do
  let time := Std.Time.PlainDateTime.ofWallTime
    ((← Std.Time.Timestamp.now).toWallTime Std.Time.TimeZone.Offset.zero)
  return time.format "uuuu-MM-dd" ++ "T" ++ time.format "HH:mm:ss.SSSSSS" ++ "+00:00"

/-- The variables of the settings that are set. -/
def environment : IO (Table String String) := do
  let found ← Settings.variableNames.mapM fun name => do
    return (← IO.getEnv name).map (name, ·)
  return found.filterMap id

/-- Writes a file and makes the folders above it. -/
def writeBack (place : List String) (bytes : List UInt8) : IO Unit := do
  IO.FS.createDirAll ("/" ++ String.intercalate "/" place.dropLast)
  IO.FS.writeBinFile ("/" ++ String.intercalate "/" place) ⟨bytes.toArray⟩

/-- Runs a command line and gives its exit code. -/
def run (args : List String) : IO UInt32 := do
  let before ← takeIn args
  let session : Command.Session := ⟨← environment, ← now⟩
  let (outcome, after) := Command.runLine session args before
  for (place, bytes) in after.changedSince before do
    writeBack place bytes
  IO.print outcome.stdout
  IO.eprint outcome.stderr
  if let .stopped fault _ := outcome then
    IO.eprintln (fault.message?.getD "stopped by a file or value that cannot be used")
  return outcome.exitCode.toUInt32

end Marginalia.Program

def main (args : List String) : IO UInt32 := Marginalia.Program.run args
