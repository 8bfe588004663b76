import CodeFix.Settings.Basic
import CodeFix.Toml.Printer
import CodeFix.Toml.Reader
import CodeFix.Settings.Encoding
import CodeFix.Workspace.Discovery

/-!
# Settings files

The settings of a user are kept below the directory for configuration, those of a project in a
directory of its own below the root. A file that is not there has the initial settings; one that is
there has to be readable.
-/

namespace CodeFix

/-- Whose settings are meant. -/
inductive SettingsLevel where
  /-- The settings of a user. -/
  | global
  | project
deriving DecidableEq, Repr

def SettingsLevel.name : SettingsLevel → String
  | global => "global"
  | project => "project"

/-- The directory for configuration: the one that is set, or else the usual one of the user. -/
def configurationDirectory (env : Environment) : PathName :=
  match env "XDG_CONFIG_HOME" with
  | some dir => ⟨dir⟩
  | none =>
    match env "HOME" with
    | some home => if home.isEmpty then ⟨"."⟩ else (PathName.mk home).join ⟨".config"⟩
    | none => ⟨"."⟩

/-- The directory that holds the settings file. -/
def SettingsLevel.directory (env : Environment) (root : PathName) : SettingsLevel → PathName
  | global => (configurationDirectory env).join ⟨"fixforge"⟩
  | project => root.join ⟨FileFilter.projectDirectory⟩

/-- The path of the settings file. -/
def SettingsLevel.path (env : Environment) (root : PathName) (level : SettingsLevel) : PathName :=
  (level.directory env root).join ⟨"config.toml"⟩

namespace Settings

/-- What is said about a file whose text is no settings. -/
def unreadable : String := "TOML parse error"

def ofToml? (text : String) : Option Settings := do
  Settings.ofData? DataDialect.toml (← Toml.read? text)

/-- Reads a settings file, if it is there. -/
def readFile? (d : Disk) (path : PathName) : Except SettingsError (Option Settings) :=
  if !d.contains path then .ok none
  else
    match d.readText path with
    | .error e => .error (.disk e)
    | .ok text =>
      match ofToml? text with
      | some s => .ok (some s)
      | none => .error (.parse s!"{path.text}: {unreadable}")

/-- The settings of a user. -/
def loadGlobal (d : Disk) (env : Environment) (root : PathName) :
    Except SettingsError Settings := do
  return (← readFile? d (SettingsLevel.global.path env root)).getD .initial

/-- The settings that hold for a project. -/
def load (d : Disk) (env : Environment) (root : PathName) : Except SettingsError Settings := do
  let global ← loadGlobal d env root
  let settings := match ← readFile? d (SettingsLevel.project.path env root) with
    | some project => global.merge project
    | none => global
  settings.withEnvironment env

def initialToml : String := (Toml.ofSettings? .initial).getD ""

/-- The disk with a file of initial settings; one that is there already stays, unless `force` says
to write over it. -/
def writeInitial (d : Disk) (env : Environment) (root : PathName) (level : SettingsLevel)
    (force : Bool) : Except SettingsError Disk := do
  let path := level.path env root
  if d.contains path && !force then
    throw (.invalidValue "config"
      s!"Config already exists: {path.text}. Use --force to overwrite.")
  let written := do
    let d ← d.makeDirectories (level.directory env root)
    d.write path initialToml.toUTF8
  match written with
  | .ok d => return d
  | .error e => throw (.disk e)

end Settings

end CodeFix
