import CodeFix.Path
import CodeFix.Text.Basic

/-!
# Locations

A location names a file and a position in it: `file:line` or `file:line:column`, counted from one.
The numbers are taken from the right, so a file name may hold colons of its own. Without a column
the first one is meant; a last number behind something that is no number is always a line.

A number that a position cannot have is an error and never makes the text mean something else.
-/

namespace CodeFix

/-- A position in a file. -/
structure Location where
  file : PathName
  line : Nat
  column : Nat
deriving DecidableEq, Repr

/-- The numbers of a position. -/
inductive Coordinate where
  | line
  | column
deriving DecidableEq, Repr

def Coordinate.name : Coordinate → String
  | line => "line"
  | column => "column"

/-- Why a text is no location. -/
inductive LocationError where
  | empty
  /-- There is a negative number where a coordinate is expected. -/
  | negative (input : String)
  /-- There is no number where a coordinate is expected. -/
  | malformed (input : String)
  /-- The number is too large. -/
  | tooLarge (coordinate : Coordinate) (digits : String)
  | zero (coordinate : Coordinate)
  | noFile (input : String)
deriving DecidableEq, Repr

def LocationError.message : LocationError → String
  | empty => "Location cannot be empty"
  | negative input =>
    s!"Invalid position in '{input}': negative values not allowed, positions are 1-indexed"
  | malformed input =>
    s!"Invalid location '{input}'. Expected: file:line[:column]\nExample: src/Foo.cs:10:5"
  | tooLarge coordinate digits => s!"Invalid {coordinate.name} number '{digits}'"
  | zero coordinate => s!"{coordinate.name} must be >= 1 (got 0); positions are 1-indexed"
  | noFile input => s!"Location '{input}' has no file"

namespace Location

/-- Coordinates are smaller than this. -/
def coordinateBound : Nat := UInt32.size

/-- Decimal digits and nothing else. -/
def isNumeral (cs : List Char) : Bool := !cs.isEmpty && cs.all Char.isDigit

/-- A minus sign before decimal digits. -/
def isNegativeNumeral : List Char → Bool
  | '-' :: cs => isNumeral cs
  | _ => false

/-- The number that digits spell. -/
def numeralValue (cs : List Char) : Nat :=
  cs.foldl (fun n c ↦ 10 * n + (c.toNat - '0'.toNat)) 0

def readCoordinate (coordinate : Coordinate) (digits : List Char) : Except LocationError Nat :=
  let n := numeralValue digits
  if coordinateBound ≤ n then .error (.tooLarge coordinate (String.ofList digits))
  else if n = 0 then .error (.zero coordinate)
  else .ok n

/-- Splits at the last colon. -/
def splitLastColon? (cs : List Char) : Option (List Char × List Char) :=
  let reversed := cs.reverse
  let last := reversed.takeWhile (· != ':')
  match reversed.dropWhile (· != ':') with
  | [] => none
  | _ :: before => some (before.reverse, last.reverse)

/-- The file and the digits of line and column, if there is a column. -/
structure Parts where
  file : List Char
  line : List Char
  column : Option (List Char)

/-- Takes a location apart. -/
def parts (cs : List Char) : Except LocationError Parts :=
  let input := String.ofList cs
  match splitLastColon? cs with
  | none => .error (if isNegativeNumeral cs then .negative input else .malformed input)
  | some (before, last) =>
    if isNegativeNumeral last then .error (.negative input)
    else
      match splitLastColon? before with
      | none =>
        if isNegativeNumeral before then .error (.negative input)
        else if isNumeral last then .ok ⟨before, last, none⟩
        else .error (.malformed input)
      | some (file, middle) =>
        if isNegativeNumeral middle then .error (.negative input)
        else if !isNumeral last then .error (.malformed input)
        else if isNumeral middle then .ok ⟨file, middle, some last⟩
        else .ok ⟨before, last, none⟩

/-- Reads a location from text without blanks around it. -/
def parseChars (cs : List Char) : Except LocationError Location := do
  if cs.isEmpty then throw .empty
  let p ← parts cs
  let line ← readCoordinate .line p.line
  let column ← match p.column with
    | some digits => readCoordinate .column digits
    | none => pure 1
  if p.file.isEmpty then throw (.noFile (String.ofList cs))
  return ⟨⟨String.ofList p.file⟩, line, column⟩

/-- Reads a location; blanks around it make no difference. -/
def parse (s : String) : Except LocationError Location := parseChars (Text.trimChars s.toList)

def text (l : Location) : String := s!"{l.file.text}:{l.line}:{l.column}"

end Location

end CodeFix
