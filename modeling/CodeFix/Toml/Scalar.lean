import CodeFix.Data.Basic

/-!
# TOML scalars

A scanner takes characters off the front of a text, or refuses. Choices try their second branch on
the text that the first one was given.

Texts in their four spellings, numbers, truth values and dates. Of fractions and dates only the
shape is read, since no setting has such a value.
-/

namespace CodeFix.Toml

/-- Takes characters off the front of a text, or refuses. -/
abbrev Scan := StateT (List Char) Option

namespace Scan

/-- The next character, left in place. -/
def peek : Scan (Option Char) := fun cs ↦ some (cs.head?, cs)

/-- The next character, if it passes a test. -/
def charWhere (p : Char → Bool) : Scan Char := fun
  | c :: cs => if p c then some (c, cs) else none
  | [] => none

/-- The characters as long as they pass a test. -/
def charsWhile (p : Char → Bool) : Scan (List Char) := fun cs ↦
  some (cs.takeWhile p, cs.dropWhile p)

/-- One character or more that pass a test. -/
def someWhile (p : Char → Bool) : Scan (List Char) := do
  let first ← charWhere p
  return first :: (← charsWhile p)

/-- Exactly the characters of a text. -/
def exactly (s : String) : Scan Unit := fun cs ↦
  (s.toList.isPrefixOf? cs).map fun rest ↦ ((), rest)

/-- Exactly as many characters as told, all of which pass a test. -/
def times (p : Char → Bool) : Nat → Scan (List Char)
  | 0 => return []
  | n + 1 => do
    let first ← charWhere p
    return first :: (← times p n)

/-- What a scanner finds, or nothing. -/
def optionally {α : Type} (s : Scan α) : Scan (Option α) := (some <$> s) <|> pure none

/-- The scanner as often as it succeeds, at most `n` times. -/
def upTo {α : Type} (s : Scan α) : Nat → Scan (List α)
  | 0 => return []
  | n + 1 => (do let first ← s; return first :: (← upTo s n)) <|> pure []

/-- The scanner as often as it succeeds, which is not more often than there are characters. -/
def repeatedly {α : Type} (s : Scan α) : Scan (List α) := do upTo s (← get).length

/-- One item or several, with a separator between them. -/
def separated {α : Type} (mark : Scan Unit) (item : Scan α) : Scan (List α) := do
  let first ← item
  return first :: (← repeatedly (do mark; item))

def atEnd : Scan Unit := fun cs ↦ if cs.isEmpty then some ((), cs) else none

end Scan

open Scan

/-! ## Characters -/

/-- Blanks within a line. -/
def isSpace (c : Char) : Bool := c == ' ' || c == '\t'

/-- May stand in a comment. -/
def isCommentChar (c : Char) : Bool := c == '\t' || (0x20 ≤ c.val && c != '\x7f')

/-- May stand between single quotes. -/
def isLiteralChar (c : Char) : Bool :=
  c == '\t' || (0x20 ≤ c.val && c != '\'' && c != '\x7f')

/-- May stand between double quotes for itself. -/
def isPlainChar (c : Char) : Bool :=
  c == '\t' || (0x20 ≤ c.val && c != '"' && c != '\\' && c != '\x7f')

def newline : Scan Unit := exactly "\n" <|> exactly "\r\n"

def spaces : Scan Unit := do discard (charsWhile isSpace)

def isDigitOf (base : Nat) (c : Char) : Bool :=
  if base ≤ 10 then c.isDigit && c.toNat - '0'.toNat < base
  else c.isDigit || ('a' ≤ c && c ≤ 'f') || ('A' ≤ c && c ≤ 'F')

def digitValue (c : Char) : Nat :=
  if c.isDigit then c.toNat - '0'.toNat
  else if 'a' ≤ c then c.toNat - 'a'.toNat + 10
  else c.toNat - 'A'.toNat + 10

def digitsValue (base : Nat) (cs : List Char) : Nat :=
  cs.foldl (fun n c ↦ base * n + digitValue c) 0

/-! ## Texts -/

/-- The character with a code point in hexadecimal digits. -/
def codePoint (digits : Nat) : Scan Char := do
  let n := digitsValue 16 (← times (isDigitOf 16) digits)
  if n < 0xD800 ∨ (0xDFFF < n ∧ n ≤ 0x10FFFF) then return Char.ofNat n else failure

/-- An escape behind its backslash. -/
def escape : Scan Char := do
  match ← charWhere fun _ ↦ true with
  | 'b' => return '\x08'
  | 't' => return '\t'
  | 'n' => return '\n'
  | 'f' => return '\x0c'
  | 'r' => return '\r'
  | '"' => return '"'
  | '\\' => return '\\'
  | 'u' => codePoint 4
  | 'U' => codePoint 8
  | _ => failure

/-- A piece of a text between double quotes. -/
def plainPiece : Scan (List Char) :=
  someWhile isPlainChar <|> do exactly "\\"; return [← escape]

def basicText : Scan String := do
  exactly "\""
  let pieces ← repeatedly plainPiece
  exactly "\""
  return String.ofList pieces.flatten

def literalText : Scan String := do
  exactly "'"
  let cs ← charsWhile isLiteralChar
  exactly "'"
  return String.ofList cs

/-- One or two quotes that do not end a text of several lines. -/
def innerQuotes (quote : Char) : Scan (List Char) := fun cs ↦
  let run := cs.takeWhile (· == quote)
  if run.isEmpty || 3 ≤ run.length then none else some (run, cs.drop run.length)

/-- The three quotes at the end of a text of several lines, and up to two that belong to the text.
-/
def closingQuotes (quote : Char) : Scan (List Char) := fun cs ↦
  let run := cs.takeWhile (· == quote)
  if 3 ≤ run.length ∧ run.length ≤ 5 then some (run.drop 3, cs.drop run.length) else none

/-- A line break within a text counts as a line feed. -/
def innerNewline : Scan (List Char) := do newline; return ['\n']

/-- A backslash at the end of a line, which takes the following blanks and line breaks with it. -/
def lineContinuation : Scan (List Char) := do
  exactly "\\"
  spaces
  newline
  discard (repeatedly (newline <|> discard (someWhile isSpace)))
  return []

/-- A text of several lines between double quotes. -/
def basicLines : Scan String := do
  exactly "\"\"\""
  discard (optionally newline)
  let pieces ← repeatedly
    (lineContinuation <|> plainPiece <|> innerNewline <|> innerQuotes '"')
  let rest ← closingQuotes '"'
  return String.ofList (pieces.flatten ++ rest)

/-- A text of several lines between single quotes. -/
def literalLines : Scan String := do
  exactly "'''"
  discard (optionally newline)
  let pieces ← repeatedly (someWhile isLiteralChar <|> innerNewline <|> innerQuotes '\'')
  let rest ← closingQuotes '\''
  return String.ofList (pieces.flatten ++ rest)

/-- A text in any spelling. -/
def anyText : Scan String := basicLines <|> literalLines <|> basicText <|> literalText

/-! ## Numbers -/

/-- Digits of a base; single underscores may stand between them. -/
def digits (base : Nat) : Scan (List Char) := do
  let first ← someWhile (isDigitOf base)
  let more ← repeatedly (do exactly "_"; someWhile (isDigitOf base))
  return first ++ more.flatten

/-- A sign; true for minus. -/
def sign : Scan Bool := do
  match ← peek with
  | some '+' => exactly "+"; return false
  | some '-' => exactly "-"; return true
  | _ => return false

/-- A decimal number without leading zeros. -/
def decimal : Scan Int := do
  let negative ← sign
  let ds ← (do exactly "0"; return ['0']) <|> digits 10
  let n : Int := digitsValue 10 ds
  return if negative then -n else n

/-- A number with the sign of its base in front. -/
def based (mark : String) (base : Nat) : Scan Int := do
  exactly mark
  return digitsValue base (← digits base)

/-- An integer that fits into a signed 64-bit number. -/
def integer : Scan Data := do
  let n ← based "0x" 16 <|> based "0o" 8 <|> based "0b" 2 <|> decimal
  if Int64.minValue.toInt ≤ n ∧ n ≤ Int64.maxValue.toInt then return .int n else failure

/-- A number with a fraction or an exponent. -/
def fraction : Scan Data := do
  discard decimal
  let exponent : Scan Unit := do
    exactly "e" <|> exactly "E"
    discard sign
    discard (digits 10)
  exponent <|> do
    exactly "."
    discard (digits 10)
    discard (optionally exponent)
  return .other

/-- Infinity or no number. -/
def specialNumber : Scan Data := do
  discard sign
  exactly "inf" <|> exactly "nan"
  return .other

/-! ## Dates and times -/

/-- A number of so many digits, between two bounds. -/
def field (width low high : Nat) : Scan Nat := do
  let n := digitsValue 10 (← times Char.isDigit width)
  if low ≤ n ∧ n ≤ high then return n else failure

/-- The number of days of a month. -/
def daysOf (year month : Nat) : Nat :=
  if month == 2 then
    if year % 4 == 0 && (year % 100 != 0 || year % 400 == 0) then 29 else 28
  else if [4, 6, 9, 11].contains month then 30
  else 31

def date : Scan Unit := do
  let year ← field 4 0 9999
  exactly "-"
  let month ← field 2 1 12
  exactly "-"
  discard (field 2 1 (daysOf year month))

def time : Scan Unit := do
  discard (field 2 0 23)
  exactly ":"
  discard (field 2 0 59)
  exactly ":"
  discard (field 2 0 60)
  discard (optionally do exactly "."; someWhile Char.isDigit)

/-- The distance of a time from the world's time. -/
def offset : Scan Unit :=
  exactly "Z" <|> exactly "z" <|> do
    exactly "+" <|> exactly "-"
    discard (field 2 0 23)
    exactly ":"
    discard (field 2 0 59)

/-- A date, a time, or both. -/
def dateTime : Scan Data := do
  (do
    date
    discard <| optionally do
      exactly "T" <|> exactly "t" <|> exactly " "
      time
      discard (optionally offset)) <|> time
  return .other

/-! ## Scalars -/

def truth : Scan Data :=
  (do exactly "true"; return .bool true) <|> (do exactly "false"; return .bool false)

def scalar : Scan Data :=
  (Data.text <$> anyText) <|> dateTime <|> fraction <|> specialNumber <|> integer <|> truth

end CodeFix.Toml
