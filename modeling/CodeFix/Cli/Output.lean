import CodeFix.Data.Basic
import CodeFix.Path

/-!
# Output of commands

A command answers with a report: fields for programs and a text for people. The format says which of
the two is written. Reports of success carry a field that says so, next to their own fields.

Files inside the project are shown by their path below its root, all others as they are.
-/

namespace CodeFix

/-- How reports are written. -/
inductive OutputFormat where
  | json
  | text
deriving DecidableEq, Repr

namespace OutputFormat

def name : OutputFormat → String
  | json => "json"
  | text => "text"

def ofName? : String → Option OutputFormat
  | "json" => some json
  | "text" => some text
  | _ => none

private def asciiLower (c : Char) : Char := if c.isUpper then Char.ofNat (c.toNat + 32) else c

/-- Reads a format from the settings, without regard to case; an unknown name means JSON. -/
def ofSetting (s : String) : OutputFormat :=
  if s.toList.map asciiLower == "text".toList then text else json

end OutputFormat

/-- Where and how a command writes. -/
structure OutputContext where
  /-- The root of the project, as the user named it. -/
  root : PathName
  format : OutputFormat

/-- The path of a file as it is shown. -/
def OutputContext.relative (c : OutputContext) (p : PathName) : PathName := (p.below? c.root).getD p

/-- What a command has to say. -/
structure Report where
  fields : List (String × Data)
  text : String

namespace OutputContext

/-- The output of a command that succeeded. -/
def success (c : OutputContext) (r : Report) : String :=
  match c.format with
  | .json => Data.json (.record (r.fields ++ [("success", .bool true)])) ++ "\n"
  | .text => r.text ++ "\n"

/-- The fields of a failure. -/
def failureData (message : String) : Data :=
  .record [("success", .bool false), ("error", .text message)]

/-- The output of a command that failed in a way a user has to expect. -/
def failure (c : OutputContext) (message : String) : String :=
  match c.format with
  | .json => Data.json (failureData message) ++ "\n"
  | .text => "error: " ++ message ++ "\n"

end OutputContext

end CodeFix
