import CodeFix.Settings.Basic
import CodeFix.Solution.Basic
import CodeFix.Workspace.Discovery

/-!
# Workspaces

A workspace is the snapshot of a project that was read from a directory. Its single project holds
one document for every source, under the path below the directory, and in the order of these paths.
Files that are too large or no text are passed over; any other file that cannot be read, and any
source that the parser gives up on, fails the whole.
-/

namespace CodeFix

/-! ## Failures -/

/-- Why a workspace or one of its files cannot be used. -/
inductive WorkspaceError where
  /-- A source cannot be understood. -/
  | parse (path message : String)
  /-- A file is larger than files may be, in megabytes. -/
  | fileTooLarge (path : PathName) (size limit : Nat)
  /-- No file below the directory is a source. -/
  | noSourceFiles (root : PathName)
  /-- The file does not belong to the workspace. -/
  | notInWorkspace (path : PathName)
  /-- The disk refuses. -/
  | disk (e : DiskError)
deriving DecidableEq, Repr

namespace WorkspaceError

def message : WorkspaceError → String
  | parse path m => s!"Failed to parse {path}: {m}"
  | fileTooLarge path size limit => s!"File too large ({size}MB > {limit}MB limit): {path.text}"
  | noSourceFiles root => s!"No C# source files found under {root.text}"
  | notInWorkspace path => s!"File is not part of the workspace: {path.text}"
  | disk e => e.message

/-- A file that fails to be read in this way is passed over. -/
def isPassedOver : WorkspaceError → Bool
  | fileTooLarge .. | disk .notText => true
  | _ => false

end WorkspaceError

/-- A computation that loads something: it draws identities and may fail. -/
abbrev LoadM := EStateM WorkspaceError Supply

/-! ## Loading -/

/-- A snapshot and the directory it was read from. -/
structure Workspace where
  root : PathName
  projectId : ProjectId
  solution : Solution

namespace Workspace

def megabyte : Nat := 1024 * 1024

/-- The text of a file that is not larger than a limit in bytes. -/
def readSource (d : Disk) (limit : Nat) (p : PathName) : Except WorkspaceError String :=
  match d.readBytes p with
  | .error e => .error (.disk e)
  | .ok content =>
    if limit < content.size then
      .error (.fileTooLarge p (content.size / megabyte) (limit / megabyte))
    else
      match String.fromUTF8? content with
      | some text => .ok text
      | none => .error (.disk .notText)

/-- The syntax tree of a source; the path is only named if the parser gives up. -/
def parseSource (parse : Parser) (path : PathName) (source : String) : LoadM Node :=
  match parse source with
  | some t => t.toNode source
  | none => throw (.parse path.text "Failed to parse file")

/-- Adds a document for every file that can be read, one after another. -/
def addFiles (parse : Parser) (d : Disk) (root : PathName) (limit : Nat) :
    List PathName → Project → LoadM Project
  | [], p => return p
  | f :: fs, p =>
    match readSource d limit f with
    | .ok source => do
      let path := (f.below? root).getD f
      let tree ← parseSource parse path source
      let (p', _) ← p.addDocument path tree
      addFiles parse d root limit fs p'
    | .error e => if e.isPassedOver then addFiles parse d root limit fs p else throw e

/-- The name of a project: the configured one, or else the name of its directory. -/
def projectName (settings : Settings) (root : PathName) : String :=
  settings.project.name.getD (root.fileName?.getD "unnamed")

/-- The workspace of the files that were discovered below a root. -/
def ofFiles (tools : Toolkit) (d : Disk) (settings : Settings) (limit : Nat) (root : PathName)
    (files : List PathName) : LoadM Workspace := do
  let parse ← MonadExcept.ofExcept (tools.parser.mapError (.parse "<grammar>"))
  let p ← Project.create (projectName settings root)
  let p ← addFiles parse d root limit files p
  return ⟨root, p.id, Solution.empty.withProject p⟩

/-- The filter for the files of the project at a root. -/
def filterAt (tools : Toolkit) (d : Disk) (settings : Settings) (root : PathName) : FileFilter :=
  .ofDisk tools d root ⟨settings.workspace.respectGitignore, false⟩ settings.project.ignoredPaths

/-- The files of the project at a root, in the order of their paths. -/
def discover (tools : Toolkit) (d : Disk) (settings : Settings) (root : PathName) :
    List PathName :=
  (filterAt tools d settings root).discover tools d settings.project.extensions

/-- Reads the workspace of a directory. -/
def load (tools : Toolkit) (d : Disk) (settings : Settings) (limit : Nat) (root : PathName) :
    LoadM Workspace := do
  let root ← MonadExcept.ofExcept ((d.canonical root).mapError .disk)
  let files := discover tools d settings root
  if files.isEmpty then throw (.noSourceFiles root)
  else ofFiles tools d settings limit root files

/-! ## Documents and files -/

/-- The path of a file below the root. The path may be spelled from a directory; if there is
something at the path, detours in it make no difference. -/
def relativePath (w : Workspace) (d : Disk) (path directory : PathName) :
    Except WorkspaceError PathName :=
  let absolute := directory.join path
  let target := (d.canonical absolute).toOption.getD absolute
  match target.below? w.root with
  | some p => .ok p
  | none => .error (.notInWorkspace path)

/-- The document at a path below the root. -/
def document (w : Workspace) (path : PathName) : Except WorkspaceError Document :=
  match w.solution.documentAt? path with
  | some d => .ok d
  | none => .error (.notInWorkspace path)

/-- Where a document is kept. -/
def pathOf (w : Workspace) (d : Document) : PathName := w.root.join d.path

end Workspace

end CodeFix
