import CodeFix.CSharp.Grammar
import CodeFix.Cli.Fixes
import CodeFix.Ignore.Walk

/-!
# Running the program

A run turns arguments and a machine into an outcome: what is printed, the exit code and the disk
afterwards. Failures of commands about settings are part of their answer and leave the exit code
alone; any other failure is printed as JSON, whatever the format is.
-/

namespace CodeFix

namespace Session

/-- The path of a settings file as it is shown. -/
def shownPath (s : Session) (level : SettingsLevel) : String :=
  let path := level.path s.environment s.root
  match level with
  | .global => path.text
  | .project => (s.output.relative path).text

/-- Writes a file of initial settings. -/
def initSettings (s : Session) (level : SettingsLevel) (force : Bool) : CommandM String := do
  let state ← get
  match Settings.writeInitial state.disk s.environment s.root level force with
  | .error e => return s.output.failure e.message
  | .ok disk => do
    let file := FileChange.mk (level.path s.environment s.root) Settings.initialToml
    set { state with disk := disk, written := state.written ++ [file] }
    let shown := s.shownPath level
    return s.output.success
      { fields := [("status", .text "created"), ("path", .text shown), ("level", .text level.name)]
        text := s!"created {level.name} config: {shown}" }

/-- Shows the settings that hold. -/
def showSettings (s : Session) (globalOnly : Bool) : CommandM String := do
  let disk := (← get).disk
  let level := if globalOnly then SettingsLevel.global.name else "merged"
  let loaded :=
    if globalOnly then Settings.loadGlobal disk s.environment s.root
    else Settings.load disk s.environment s.root
  match loaded with
  | .error e => return s.output.failure e.message
  | .ok settings =>
    match Toml.ofSettings? settings with
    | none => throw .numberOutOfRange
    | some toml =>
      return s.output.success
        { fields := [("level", .text level), ("config", settings.toData)]
          text := s!"# {level} configuration\n{toml}" }

def settingsPath (s : Session) (level : SettingsLevel) : CommandM String := do
  let present := (← get).disk.contains (level.path s.environment s.root)
  let shown := s.shownPath level
  return s.output.success
    { fields := [
        ("level", .text level.name), ("path", .text shown), ("exists", .bool present)]
      text := if present then shown else shown ++ " (missing)" }

/-- Runs a command; the result is what it prints. -/
def run (s : Session) : Command → CommandM String
  | .listFixes l rule => s.output.success <$> s.listFixes l rule
  | .applyFix l index rule execute => s.output.success <$> s.applyFix l index rule execute
  | .listRules => return s.output.success s.listRules
  | .initSettings level force => s.initSettings level force
  | .showSettings globalOnly => s.showSettings globalOnly
  | .settingsPath level => s.settingsPath level

end Session

/-- What a run of the program leaves behind. -/
structure Outcome where
  exitCode : Nat
  output : String
  disk : Disk
  /-- The files that were written, in the order of writing. -/
  written : List FileChange

namespace Machine

def failureCode : Nat := 2

/-- Runs the program with the arguments behind its name. -/
def run (m : Machine) (args : List String) : Outcome :=
  match Invocation.ofArguments m.environment Serialization.rule args with
  | .error stop => ⟨stop.exitCode, "", m.disk, []⟩
  | .ok invocation =>
    match (Session.start m invocation).run invocation.command ⟨.start, m.disk, []⟩ with
    | .ok output s => ⟨0, output, s.disk, s.written⟩
    | .error e s =>
      ⟨failureCode, Data.json (OutputContext.failureData e.message) ++ "\n", s.disk, s.written⟩

end Machine

/-! ## The program as it is installed -/

/-- The libraries that come with the program. A walk also follows the rules that the user keeps,
which are seen from the directory that the program was started in. -/
def Toolkit.installed (env : Environment) (directory : PathName) : Toolkit where
  parser := .ok CSharp.parser
  walk options d root := Ignore.walk (.find d env directory) options d root
  matcher? := Ignore.matcher?

/-- The machine on which a run uses these libraries. -/
def Machine.installed (d : Disk) (env : Environment) (directory : PathName) : Machine :=
  ⟨d, env, directory, .installed env directory⟩

end CodeFix
