import CodeFix.Cli.Run

/-!
# The program

Reads the part of the disk that a run may look at into a value, runs the program on it, and writes
the files that the run wrote.
-/

namespace CodeFix

/-- Reads the bytes of a file, if it can be read. -/
def readEntry? (path : String) : IO (Option DiskEntry) := do
  try
    return some (.file (← IO.FS.readBinFile path))
  catch _ => return none

/-- Reads a directory with everything below it. -/
partial def readTree? (path : String) : IO (Option DiskEntry) := do
  let here ← IO.currentDir
  let target := here / path
  if ← target.isDir then
    let mut entries := []
    for e in ← target.readDir do
      if let some entry ← readTree? e.path.toString then
        entries := (e.fileName, entry) :: entries
    return some (.directory entries)
  readEntry? path

/-- The disk with an entry put at a path, and with the directories above it. -/
def Disk.withEntry (d : Disk) (path : PathName) (e : DiskEntry) : Disk :=
  let above : PathName := Disk.pathOf path.names.dropLast
  match d.makeDirectories above with
  | .ok d => d.put path.names e
  | .error _ => d

/-- The disk with a file or directory read from the real one, if it is there. -/
def Disk.withPath (d : Disk) (path : PathName) (read : String → IO (Option DiskEntry)) :
    IO Disk := do
  match ← read path.text with
  | some e => return d.withEntry path e
  | none => return d

/-- The path of something on the real disk without detours. -/
def realPath (directory path : PathName) : IO PathName := do
  try
    let resolved ← IO.FS.realPath (directory.join path).text
    return ⟨resolved.toString⟩
  catch _ => return directory.join path

/-- Names of environment variables that a run may ask for. -/
def readVariables : List String :=
  ["HOME", "XDG_CONFIG_HOME", rootVariable, fetchTimeoutVariable, maxFileSizeVariable,
    attributeNamesVariable, outputFormatVariable]

/-- Reads what a run for a root may look at: the tree of the root, the rules in the directories
above it, and the files of the user. -/
def readDisk (env : Environment) (directory root : PathName) : IO Disk := do
  let mut d : Disk := ⟨[]⟩
  for path in [directory, root] do
    let names := path.names
    for k in List.range names.length do
      let above := Disk.pathOf (names.take k)
      for file in [".ignore", ".gitignore", ".git/info/exclude"] do
        d ← d.withPath (above.join ⟨file⟩) readEntry?
    if let .ok d' := d.makeDirectories path then d := d'
  d ← d.withPath root readTree?
  let ofUser := (configurationDirectory env).join ⟨"git/ignore"⟩
  for file in [SettingsLevel.global.path env root, ofUser] do
    d ← d.withPath file readTree?
  return d

/-- Writes a file, with the directories above it. -/
def writeFile (change : FileChange) : IO Unit := do
  let here ← IO.currentDir
  let target := here / change.path.text
  if let some parent := target.parent then IO.FS.createDirAll parent
  IO.FS.writeFile target change.text

end CodeFix

open CodeFix in
/-- Runs the program in the directory it was started in. -/
def main (args : List String) : IO UInt32 := do
  let directory : PathName := ⟨(← IO.currentDir).toString⟩
  let mut values := []
  for v in readVariables do
    if let some value ← IO.getEnv v then values := (v, value) :: values
  let env : Environment := fun v ↦ values.lookup v
  let root := match Invocation.ofArguments env Serialization.rule args with
    | .ok i => i.root.getD directory
    | .error _ => directory
  let disk ← readDisk env directory (← realPath directory root)
  let outcome := (Machine.installed disk env directory).run args
  outcome.written.forM writeFile
  IO.print outcome.output
  return outcome.exitCode.toUInt32
