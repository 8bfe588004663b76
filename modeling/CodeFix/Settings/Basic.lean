import CodeFix.Attribute.Basic
import CodeFix.Disk.Basic

/-!
# Settings and their layers

What a user can configure, in four sections, with the values that hold where nothing is configured.
Numbers are bounded by the sizes that files may give them: times are 64-bit, sizes 32-bit numbers.

The settings of a user and those of a project are two layers, and environment variables are a third
one. The upper layer wins, except that ignored paths accumulate and that a missing name or an empty
list of extensions leaves the lower layer's value standing.
-/

namespace CodeFix

/-! ## Settings -/

/-- Which files belong to the project. -/
structure ProjectSettings where
  /-- The project's name; without one the directory's name is used. -/
  name : Option String
  /-- File name extensions of sources; any extension if there is none. -/
  extensions : List String
  /-- Names of directories and files that are left out wherever they occur. -/
  ignoredPaths : List String
deriving DecidableEq, Repr

/-- How fixes are computed. -/
structure FixSettings where
  /-- How long to wait for the tree of another document, in milliseconds. -/
  fetchTimeout : Nat
  attributeNames : NameStylePreference
deriving DecidableEq, Repr

/-- How a workspace is loaded. -/
structure WorkspaceSettings where
  /-- The largest file that is read, in megabytes; zero for any size. -/
  maxFileSize : Nat
  respectGitignore : Bool
deriving DecidableEq, Repr

/-- How answers are written. -/
structure OutputSettings where
  format : String
deriving DecidableEq, Repr

/-- All settings. -/
structure Settings where
  project : ProjectSettings
  fixes : FixSettings
  workspace : WorkspaceSettings
  output : OutputSettings
deriving DecidableEq, Repr

def ProjectSettings.initial : ProjectSettings where
  name := none
  extensions := ["cs"]
  ignoredPaths := ["bin", "obj", "packages", ".git", ".vs", "node_modules", ".fixforge"]

def FixSettings.initial : FixSettings := ⟨5000, .auto⟩

def WorkspaceSettings.initial : WorkspaceSettings := ⟨5, true⟩

def OutputSettings.initial : OutputSettings := ⟨"json"⟩

def Settings.initial : Settings := ⟨.initial, .initial, .initial, .initial⟩

def maxWord : Nat := UInt64.size - 1

/-- The largest file that is read, in bytes. -/
def WorkspaceSettings.maxFileBytes (w : WorkspaceSettings) : Nat :=
  if w.maxFileSize = 0 then maxWord else w.maxFileSize * 1024 * 1024

/-! ## Merging -/

/-- The texts of the second list that are new, appended to the first list one after another. -/
def appendNew : List String → List String → List String
  | base, [] => base
  | base, s :: ss => if base.contains s then appendNew base ss else appendNew (base ++ [s]) ss

/-- The settings of two layers, the second one above the first. -/
def Settings.merge (base overlay : Settings) : Settings where
  project :=
    { name := overlay.project.name.or base.project.name
      extensions :=
        if overlay.project.extensions.isEmpty then base.project.extensions
        else overlay.project.extensions
      ignoredPaths := appendNew base.project.ignoredPaths overlay.project.ignoredPaths }
  fixes := overlay.fixes
  workspace := overlay.workspace
  output := overlay.output

/-! ## Environment variables -/

/-- The values of environment variables. -/
abbrev Environment := String → Option String

inductive SettingsError where
  /-- The text of a file is no settings. -/
  | parse (message : String)
  /-- A setting has a value that it cannot have. -/
  | invalidValue (key message : String)
  /-- The disk refuses. -/
  | disk (e : DiskError)
deriving DecidableEq, Repr

def SettingsError.message : SettingsError → String
  | parse m => s!"Config parse error: {m}"
  | invalidValue key m => s!"Invalid value for '{key}': {m}"
  | disk e => e.message

/-- Reads a decimal number up to a limit; a plus sign may precede the digits. -/
def readCount? (limit : Nat) (s : String) : Option Nat :=
  let digits :=
    match s.toList with
    | '+' :: cs => cs
    | cs => cs
  if digits.isEmpty || !digits.all Char.isDigit then none
  else
    let n := digits.foldl (fun n c ↦ 10 * n + (c.toNat - '0'.toNat)) 0
    if n ≤ limit then some n else none

/-- Overrides how long to wait for a tree. -/
def fetchTimeoutVariable : String := "FIXFORGE_FETCH_TIMEOUT_MS"

/-- Overrides the size of the largest file. -/
def maxFileSizeVariable : String := "FIXFORGE_MAX_FILE_SIZE_MB"

/-- Overrides how attribute names are spelled. -/
def attributeNamesVariable : String := "FIXFORGE_ATTRIBUTE_NAMES"

/-- Overrides how answers are written. -/
def outputFormatVariable : String := "FIXFORGE_OUTPUT_FORMAT"

/-- Applies the value of a variable, if it is set. -/
def overriding (env : Environment) (key : String)
    (apply : String → Except SettingsError Settings) (s : Settings) :
    Except SettingsError Settings :=
  match env key with
  | none => .ok s
  | some value => apply value

/-- The settings with those overridden for which a variable is set. -/
def Settings.withEnvironment (s : Settings) (env : Environment) :
    Except SettingsError Settings := do
  let s ← overriding env fetchTimeoutVariable (fun v ↦
    match readCount? maxWord v with
    | some n => .ok { s with fixes.fetchTimeout := n }
    | none =>
      .error (.invalidValue fetchTimeoutVariable s!"expected milliseconds, got '{v}'")) s
  let s ← overriding env maxFileSizeVariable (fun v ↦
    match readCount? (UInt32.size - 1) v with
    | some n => .ok { s with workspace.maxFileSize := n }
    | none =>
      .error (.invalidValue maxFileSizeVariable s!"expected megabytes, got '{v}'")) s
  let s ← overriding env attributeNamesVariable (fun v ↦
    match NameStylePreference.parse v with
    | .ok p => .ok { s with fixes.attributeNames := p }
    | .error m => .error (.invalidValue attributeNamesVariable m)) s
  overriding env outputFormatVariable (fun v ↦ .ok { s with output.format := v }) s

end CodeFix
