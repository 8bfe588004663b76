import CodeFix.Data.Basic
import CodeFix.Settings.Basic

/-!
# Settings as data

Settings are written as a record of four sections. Sections and settings that are missing have their
initial values, names that mean nothing are passed over, and a section may also be given as the list
of its settings in order. A name style is given by its name, or as a record with that name as the
only field.

Two notations carry settings and differ in small ways: what the field of such a record may hold, and
whether a list may be longer than its section. `DataDialect` says which way it is.
-/

namespace CodeFix

/-- What a notation for data admits. -/
structure DataDialect where
  /-- What stands behind the name of a choice without contents. -/
  isUnit : Data → Bool
  /-- A list for a record must not be longer than the record. -/
  exactLists : Bool

namespace DataDialect

/-- Behind the name of a choice stands null; lists have the length of their record. -/
def json : DataDialect where
  isUnit
    | .null => true
    | _ => false
  exactLists := true

/-- Behind the name of a choice stands an empty record or list; items behind the last field are
passed over. -/
def toml : DataDialect where
  isUnit
    | .list items => items.isEmpty
    | .record fields => fields.isEmpty
    | _ => false
  exactLists := false

def choice? {α : Type} (dialect : DataDialect) (ofName? : String → Option α) : Data → Option α
  | .text s => ofName? s
  | .record [(s, d)] => if dialect.isUnit d then ofName? s else none
  | _ => none

/-- How a record can be read: by the names of its fields or by their positions. -/
inductive Source where
  | named (fields : List (String × Data))
  | positional (items : List Data)

/-- The way to read a value as a record with the given number of fields. -/
def source? (dialect : DataDialect) (width : Nat) : Data → Option Source
  | .record fields => some (.named fields)
  | .list items =>
    if dialect.exactLists && decide (width < items.length) then none else some (.positional items)
  | _ => none

end DataDialect

namespace DataDialect.Source

/-- The value of a field, by its name or its position. -/
def get? (s : Source) (position : Nat) (name : String) : Option Data :=
  match s with
  | named fields => Data.field? fields name
  | positional items => items[position]?

/-- Reads a field that may be missing. -/
def withDefault? {α : Type} (s : Source) (position : Nat) (name : String)
    (read : Data → Option α) (initial : α) : Option α :=
  match s.get? position name with
  | none => some initial
  | some d => read d

/-- Reads a field that may be null, and missing too if fields go by names. -/
def optional? {α : Type} (s : Source) (position : Nat) (name : String)
    (read : Data → Option α) : Option (Option α) :=
  match s.get? position name, s with
  | some d, _ => Data.asOptional? read d
  | none, named _ => some none
  | none, positional _ => none

def required? {α : Type} (s : Source) (position : Nat) (name : String)
    (read : Data → Option α) : Option α :=
  (s.get? position name).bind read

end DataDialect.Source

open DataDialect

/-! ## Reading -/

def ProjectSettings.ofData? (dialect : DataDialect) (d : Data) : Option ProjectSettings := do
  let s ← dialect.source? 3 d
  return {
    name := ← s.optional? 0 "name" Data.asText?
    extensions := ← s.withDefault? 1 "extensions" Data.asTexts? initial.extensions
    ignoredPaths := ← s.withDefault? 2 "ignored_paths" Data.asTexts? initial.ignoredPaths }

def FixSettings.ofData? (dialect : DataDialect) (d : Data) : Option FixSettings := do
  let s ← dialect.source? 2 d
  return {
    fetchTimeout :=
      ← s.withDefault? 0 "fetch_timeout_ms" (Data.asNatBelow? UInt64.size) initial.fetchTimeout
    attributeNames :=
      ← s.withDefault? 1 "attribute_names" (dialect.choice? NameStylePreference.ofName?)
        initial.attributeNames }

def WorkspaceSettings.ofData? (dialect : DataDialect) (d : Data) : Option WorkspaceSettings := do
  let s ← dialect.source? 2 d
  return {
    maxFileSize :=
      ← s.withDefault? 0 "max_file_size_mb" (Data.asNatBelow? UInt32.size) initial.maxFileSize
    respectGitignore :=
      ← s.withDefault? 1 "respect_gitignore" Data.asBool? initial.respectGitignore }

def OutputSettings.ofData? (dialect : DataDialect) (d : Data) : Option OutputSettings := do
  let s ← dialect.source? 1 d
  return { format := ← s.withDefault? 0 "format" Data.asText? initial.format }

def Settings.ofData? (dialect : DataDialect) (d : Data) : Option Settings := do
  let s ← dialect.source? 4 d
  return {
    project := ← s.withDefault? 0 "project" (ProjectSettings.ofData? dialect) .initial
    fixes := ← s.withDefault? 1 "fixes" (FixSettings.ofData? dialect) .initial
    workspace := ← s.withDefault? 2 "workspace" (WorkspaceSettings.ofData? dialect) .initial
    output := ← s.withDefault? 3 "output" (OutputSettings.ofData? dialect) .initial }

/-! ## Writing -/

/-- The sections as a record of records. -/
def Settings.toData (s : Settings) : Data :=
  .record [
    ("project", .record [
      ("name", (s.project.name.map Data.text).getD .null),
      ("extensions", .texts s.project.extensions),
      ("ignored_paths", .texts s.project.ignoredPaths)]),
    ("fixes", .record [
      ("fetch_timeout_ms", .nat s.fixes.fetchTimeout),
      ("attribute_names", .text s.fixes.attributeNames.name)]),
    ("workspace", .record [
      ("max_file_size_mb", .nat s.workspace.maxFileSize),
      ("respect_gitignore", .bool s.workspace.respectGitignore)]),
    ("output", .record [("format", .text s.output.format)])]

end CodeFix
