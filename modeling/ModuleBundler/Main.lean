import ModuleBundler.CommandLine

namespace ModuleBundler.Main

/-- The path from the root of the file system to a place. -/
def pathTo (place : Location) : String := "/" ++ "/".intercalate place.reverse

/-- Reads what is found in the directory at a place. A link leads to where it leads in the end. -/
partial def entriesIn (place : Location) (found : Array IO.FS.DirEntry) : IO (List Entry) := do
  let mut entries := []
  for one in found do
    let here := one.fileName :: place
    match (← one.path.symlinkMetadata).type with
    | .dir => entries := entries ++ ⟨here, .directory⟩ :: (← entriesIn here (← one.path.readDir))
    | .file => entries := entries ++ [⟨here, .file (← IO.FS.readBinFile one.path)⟩]
    | .symlink =>
      try
        entries := entries ++ [⟨here, .link (← IO.FS.realPath one.path).toString⟩]
      catch _ => pure ()
    | .other => pure ()
  return entries

/-- The files below the working directory. -/
def readFiles : IO Files := do
  let directory ← IO.currentDir
  let names := (Path.steps directory.toString).filterMap fun step =>
    match step with
    | .name text => some text
    | _ => none
  let files := Files.ofHome names.reverse
  let entries ← entriesIn files.home (← directory.readDir)
  return entries.foldl (fun files entry => files.put entry.location entry.content) files

/-- Makes the files as they were before into the files as they are now. -/
def writeChanges (before now : Files) : IO Unit := do
  for entry in before.entries.toList.reverse do
    if (now.content? entry.location).isNone then
      match entry.content with
      | .directory => IO.FS.removeDir (pathTo entry.location)
      | _ => IO.FS.removeFile (pathTo entry.location)
  for entry in now.entries.toList do
    match before.content? entry.location, entry.content with
    | some (.file old), .file bytes =>
      if old.data ≠ bytes.data then IO.FS.writeBinFile (pathTo entry.location) bytes
    | _, .file bytes => IO.FS.writeBinFile (pathTo entry.location) bytes
    | _, _ => pure ()

/-- Shows what happened, but not every detail. -/
def showEvents (events : List Event) : IO Unit := do
  for event in events do
    if event.level = .warn || event.level = .info then IO.eprintln event.line

end ModuleBundler.Main

/-- Reads the arguments of the program and runs it. -/
def main (arguments : List String) : IO UInt32 := do
  let files ← ModuleBundler.Main.readFiles
  let reply := ModuleBundler.CommandLine.reply arguments files
  ModuleBundler.Main.showEvents reply.events
  ModuleBundler.Main.writeChanges files reply.files
  IO.print reply.output
  if let some failure := reply.failure then IO.eprintln ("ERROR " ++ failure.message)
  return reply.exitCode.toUInt32
