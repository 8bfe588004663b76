import CodeFix.Toml.Scalar
import CodeFix.Toml.Table

/-!
# Reading TOML documents

A document is a sequence of lines: headers, assignments, comments and empty lines. It is read line
by line into the table that the last header opened, and refused as a whole if any line is malformed
or breaks a rule of tables. Values nest at most `maxDepth` deep, and no key has more segments than
that.
-/

namespace CodeFix.Toml

open Scan

/-- How deep values may nest, and how many segments a key may have. -/
def maxDepth : Nat := 79

/-! ## Keys and values -/

/-- May stand in a key without quotes. -/
def isBareKeyChar (c : Char) : Bool := c.isAlphanum || c == '_' || c == '-'

/-- One segment of a key. -/
def keySegment : Scan String :=
  basicText <|> literalText <|> (String.ofList <$> someWhile isBareKeyChar)

/-- A key: the segments before the last one, and the last one. -/
def key : Scan (List String × String) := do
  let segments ← separated (exactly ".") (do spaces; let s ← keySegment; spaces; return s)
  match segments.getLast? with
  | some last => if segments.length ≤ maxDepth then return (segments.dropLast, last) else failure
  | none => failure

def comment : Scan Unit := do exactly "#"; discard (charsWhile isCommentChar)

/-- Blanks, comments and line breaks between the items of an array. -/
def gaps : Scan Unit :=
  discard <| repeatedly <|
    discard (someWhile isSpace) <|> newline <|> do comment; newline

/-- A value that nests at most so deep. -/
def value : Nat → Scan Data
  | 0 => scalar
  | depth + 1 =>
    (do
      exactly "["
      let item : Scan Data := do gaps; let d ← value depth; gaps; return d
      let items ← (separated (exactly ",") item) <|> pure []
      if !items.isEmpty then discard (optionally (exactly ","))
      gaps
      exactly "]"
      return .list items) <|>
    (do
      exactly "\x7b"
      let field : Scan ((List String × String) × Data) := do
        let k ← key
        exactly "="
        spaces
        let d ← value depth
        spaces
        return (k, d)
      let fields ← (separated (exactly ",") field) <|> pure []
      spaces
      exactly "\x7d"
      match fields.foldlM (fun t f ↦ t.addValue f.1.1 f.1.2 f.2) (Table.empty .header) with
      | some t => return t.toData
      | none => failure) <|>
    scalar

/-! ## Lines -/

/-- A line of a document. -/
inductive Line where
  | empty
  /-- The header of a table. -/
  | header (path : List String) (name : String)
  /-- The header of a table in an array of tables. -/
  | arrayHeader (path : List String) (name : String)
  | assignment (path : List String) (name : String) (d : Data)

/-- The rest of a line: blanks, perhaps a comment, and the line break or the end of the text. -/
def lineEnd : Scan Unit := do
  spaces
  discard (optionally comment)
  newline <|> atEnd

def line : Scan Line := do
  spaces
  let read ←
    (do
      exactly "[["
      let (path, name) ← key
      exactly "]]"
      return Line.arrayHeader path name) <|>
    (do
      exactly "["
      let (path, name) ← key
      exactly "]"
      return Line.header path name) <|>
    (do
      let (path, name) ← key
      exactly "="
      spaces
      return Line.assignment path name (← value maxDepth)) <|>
    pure Line.empty
  lineEnd
  return read

/-- A document under construction: all tables, and the path of the table that the last header
opened. -/
structure Draft where
  root : Table
  current : List String

/-- Adds a line to a document. -/
def Draft.add (d : Draft) : Line → Option Draft
  | .empty => some d
  | .header path name => do
    return ⟨← d.root.openTable path name, path ++ [name]⟩
  | .arrayHeader path name => do
    return ⟨← d.root.appendTable path name, path ++ [name]⟩
  | .assignment path name v => do
    return { d with root := ← d.root.changeAt false (·.addValue path name v) d.current }

/-- Adds all lines of a text to a document. There are not more lines than characters. -/
def readLines : Nat → Draft → Scan Draft
  | 0, d => do atEnd; return d
  | n + 1, d => do
    if (← peek).isNone then return d
    let l ← line
    match d.add l with
    | some d' => readLines n d'
    | none => failure

/-- The data of a document, if its text is well formed. A byte order mark at its beginning is passed
over. -/
def read? (text : String) : Option Data :=
  let cs :=
    match text.toList with
    | '\uFEFF' :: cs => cs
    | cs => cs
  (readLines cs.length ⟨Table.empty .header, []⟩ cs).map fun r ↦ r.1.root.toData

end CodeFix.Toml
