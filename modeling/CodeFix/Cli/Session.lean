import CodeFix.Cli.Arguments
import CodeFix.Fix.Serialization
import CodeFix.Settings.Store
import CodeFix.Workspace.Basic

/-!
# Sessions of the command line

A run of the program starts from a machine as a value: the disk, the environment variables, the
directory that the program was started in, and the libraries that it was linked with. The session
holds what the run has settled before its command begins. Settings that cannot be read do not stop a
session; it has the initial ones then, and only a command about settings says what is wrong.

A command reads and writes the disk as a state, draws identities and may fail; what it wrote before
it failed stays written.
-/

namespace CodeFix

/-- What a run of the program starts from. -/
structure Machine where
  disk : Disk
  environment : Environment
  directory : PathName
  tools : Toolkit

/-- Why a command failed. -/
inductive CommandFailure where
  /-- The workspace at a root cannot be loaded. -/
  | loading (root : PathName) (e : WorkspaceError)
  | workspace (e : WorkspaceError)
  | fix (e : FixError)
  /-- There are fewer fixes at the location. -/
  | noSuchFix (index count : Nat) (location : Location)
  /-- A number in the settings is larger than numbers in a file may be. -/
  | numberOutOfRange
deriving DecidableEq, Repr

def CommandFailure.message : CommandFailure → String
  | loading root e => s!"Failed to load workspace at {root.text}: {e.message}"
  | workspace e => e.message
  | fix e => e.message
  | noSuchFix index count location =>
    s!"Fix index {index} out of range ({count} fix(es) available at {location.text})"
  | numberOutOfRange => "out-of-range value for u64 type"

/-- A file with its new text. -/
structure FileChange where
  path : PathName
  text : String
deriving DecidableEq, Repr

/-- What a running command carries along. -/
structure CommandState where
  supply : Supply
  disk : Disk
  /-- The files written so far, in the order of writing. -/
  written : List FileChange

abbrev CommandM := EStateM CommandFailure CommandState

namespace CommandM

/-- A computation that draws identities and may fail. -/
def ofDrawing {ε α : Type} (failure : ε → CommandFailure) (x : EStateM ε Supply α) :
    CommandM α := fun s ↦
  match x s.supply with
  | .ok a supply => .ok a { s with supply }
  | .error e supply => .error (failure e) { s with supply }

/-- A computation of fixes that nobody cancels. -/
def ofFix {α : Type} (x : FixM α) : CommandM α := fun s ↦
  match x ⟨s.supply, false⟩ with
  | .ok a t => .ok a { s with supply := t.supply }
  | .error e t => .error (.fix e) { s with supply := t.supply }

/-- The value of an outcome, or its failure. -/
def ofExcept {ε α : Type} (failure : ε → CommandFailure) : Except ε α → CommandM α
  | .ok a => pure a
  | .error e => throw (failure e)

def write (change : FileChange) : CommandM Unit := do
  let s ← get
  let disk ← ofExcept (fun e ↦ .workspace (.disk e)) (s.disk.write change.path change.text.toUTF8)
  set { s with disk := disk, written := s.written ++ [change] }

end CommandM

/-- What a run settles before its command begins. -/
structure Session where
  environment : Environment
  directory : PathName
  root : PathName
  settings : Settings
  output : OutputContext
  tools : Toolkit

namespace Session

/-- Settles the root, the settings and the format. -/
def start (m : Machine) (i : Invocation) : Session :=
  let root := (i.root.map m.directory.join).getD m.directory
  let settings := (Settings.load m.disk m.environment root).toOption.getD .initial
  { environment := m.environment
    directory := m.directory
    root := root
    settings := settings
    output := ⟨root, i.format.getD (.ofSetting settings.output.format)⟩
    tools := m.tools }

def service (s : Session) : FixService := .builtIn s.settings.fixes.attributeNames

/-- Loads the workspace at the root. -/
def loadWorkspace (s : Session) : CommandM Workspace := do
  let disk := (← get).disk
  let limit := s.settings.workspace.maxFileBytes
  CommandM.ofDrawing (.loading s.root) (Workspace.load s.tools disk s.settings limit s.root)

/-- The fixes for a rule at a location. -/
def fixesAt (s : Session) (w : Workspace) (l : Location) (rule : String) :
    CommandM (List CodeAction) := do
  let disk := (← get).disk
  let file ← CommandM.ofExcept .workspace (w.relativePath disk l.file s.directory)
  let diagnostic : Diagnostic := { id := rule, file := file, line := l.line, column := l.column }
  let context ← CommandM.ofExcept .fix
    (FixContext.atDiagnostic w.solution diagnostic w.solution.semanticModel snapshotHost)
  CommandM.ofFix (s.service.fixesFor context)

end Session

end CodeFix
