import CodeFix.Path
import CodeFix.Settings.Encoding

/-!
# Diagnostics

A diagnostic is a finding of an analyzer: the id of the violated rule and the position it was
reported at, with line and column counted from one.

A diagnostic is exchanged as a record. Everything but the message has to be there; lines and columns
are 32-bit numbers, and a missing message is not written at all.
-/

namespace CodeFix

/-- How grave a finding is. -/
inductive Severity where
  | error
  | warning
  | information
  | hint
deriving DecidableEq, Repr

namespace Severity

def name : Severity → String
  | error => "error"
  | warning => "warning"
  | information => "information"
  | hint => "hint"

/-- The severity as it is shown to a user. -/
def label : Severity → String
  | information => "info"
  | s => s.name

def ofName? : String → Option Severity
  | "error" => some error
  | "warning" => some warning
  | "information" => some information
  | "hint" => some hint
  | _ => none

end Severity

/-- A finding of an analyzer. -/
structure Diagnostic where
  /-- The id of the violated rule. -/
  id : String
  file : PathName
  line : Nat
  column : Nat
  severity : Severity := .warning
  message : Option String := none
deriving DecidableEq, Repr

/-! ## Diagnostics as data -/

open DataDialect

def Diagnostic.ofData? (d : Data) : Option Diagnostic := do
  let s ← DataDialect.json.source? 6 d
  return {
    id := ← s.required? 0 "id" Data.asText?
    file := ⟨← s.required? 1 "file_path" Data.asText?⟩
    line := ← s.required? 2 "line" (Data.asNatBelow? UInt32.size)
    column := ← s.required? 3 "column" (Data.asNatBelow? UInt32.size)
    severity := ← s.required? 4 "severity" (DataDialect.json.choice? Severity.ofName?)
    message := ← s.optional? 5 "message" Data.asText? }

def Diagnostic.toData (d : Diagnostic) : Data :=
  .record <|
    [("id", .text d.id), ("file_path", .text d.file.text), ("line", .nat d.line),
      ("column", .nat d.column), ("severity", .text d.severity.name)] ++
    (d.message.map fun m ↦ ("message", Data.text m)).toList

end CodeFix
