import CodeFix.Settings.Basic

/-!
# Settings as TOML text

The sections follow each other with an empty line between them, a setting to a line. A list of two
or more texts has one text to a line.

A text is written in the first of five ways that suits it. Between double quotes nothing may be left
to escape but tabs; between single quotes nothing can be escaped at all; three quotes of either sort
admit line breaks and up to two of the same quotes in a row. A text that none of these ways suits is
escaped, between three quotes if it has several lines. A text of several lines begins on a line of
its own.
-/

namespace CodeFix.Toml

/-! ## Texts -/

/-- Has to be written as an escape code; tabs and line feeds need none. -/
def needsEscape (c : Char) : Bool :=
  (c.val < 0x20 && c != '\t' && c != '\n') || c == '\x7f'

/-- The length of the longest run of a character, behind a run of the given length. -/
def longestRun (q : Char) : Nat → List Char → Nat
  | run, [] => run
  | run, c :: cs => if c = q then longestRun q (run + 1) cs else max run (longestRun q 0 cs)

/-- The quotes around a text. -/
inductive QuoteStyle where
  /-- Double quotes, with escapes. -/
  | basic
  /-- Single quotes, without escapes. -/
  | literal
  /-- Three double quotes, with escapes. -/
  | basicLines
  /-- Three single quotes, without escapes. -/
  | literalLines
deriving DecidableEq, Repr

namespace QuoteStyle

/-- The style that suits a text. -/
def ofChars (cs : List Char) : QuoteStyle :=
  let plain := !cs.any needsEscape
  let lines := cs.contains '\n'
  let backslash := cs.contains '\\'
  let doubles := longestRun '"' 0 cs
  let singles := longestRun '\'' 0 cs
  if plain && !backslash && doubles == 0 && !lines then basic
  else if plain && singles == 0 && !lines then literal
  else if plain && !backslash && doubles ≤ 2 then basicLines
  else if plain && singles ≤ 2 then literalLines
  else if lines then basicLines
  else basic

def delimiter : QuoteStyle → String
  | basic => "\""
  | literal => "'"
  | basicLines => "\"\"\""
  | literalLines => "'''"

/-- The text may have several lines. -/
def admitsLines : QuoteStyle → Bool
  | basicLines | literalLines => true
  | _ => false

/-- How many double quotes in a row need no escape. -/
def freeQuotes : QuoteStyle → Nat
  | basicLines => 2
  | _ => 0

end QuoteStyle

/-- A character between double quotes that is no double quote. -/
def escapeChar (style : QuoteStyle) (c : Char) : List Char :=
  if c = '\x08' then ['\\', 'b']
  else if c = '\t' then ['\\', 't']
  else if c = '\n' then if style.admitsLines then ['\n'] else ['\\', 'n']
  else if c = '\x0c' then ['\\', 'f']
  else if c = '\r' then ['\\', 'r']
  else if c = '\\' then ['\\', '\\']
  else if needsEscape c then
    ['\\', 'u', '0', '0'] ++ (Nat.toDigits 16 (c.val.toNat / 16)).map Char.toUpper ++
      (Nat.toDigits 16 (c.val.toNat % 16)).map Char.toUpper
  else [c]

/-- A text between double quotes, behind a run of so many double quotes without escapes. -/
def escapeChars (style : QuoteStyle) : Nat → List Char → List Char
  | _, [] => []
  | run, c :: cs =>
    if c = '"' then
      if run < style.freeQuotes then '"' :: escapeChars style (run + 1) cs
      else '\\' :: '"' :: escapeChars style 0 cs
    else escapeChar style c ++ escapeChars style 0 cs

/-- What stands between the quotes. -/
def quotedBody (style : QuoteStyle) (cs : List Char) : List Char :=
  match style with
  | .literal | .literalLines => cs
  | .basic | .basicLines => escapeChars style 0 cs

/-- A text with its quotes. -/
def quoteText (s : String) : String :=
  let cs := s.toList
  let style := QuoteStyle.ofChars cs
  let start := if style.admitsLines && cs.contains '\n' then "\n" else ""
  style.delimiter ++ start ++ String.ofList (quotedBody style cs) ++ style.delimiter

def quoteTexts : List String → String
  | [] => "[]"
  | [s] => "[" ++ quoteText s ++ "]"
  | ss => "[" ++ String.join (ss.map fun s ↦ "\n    " ++ quoteText s ++ ",") ++ "\n]"

/-! ## Settings -/

def assignment (name value : String) : String := name ++ " = " ++ value ++ "\n"

def sectionText (name : String) (lines : List String) : String :=
  "[" ++ name ++ "]\n" ++ String.join lines

def flagText (b : Bool) : String := if b then "true" else "false"

/-- The text of settings. There is none if a time does not fit into a signed 64-bit number, which is
the only sort of number that the format has. -/
def ofSettings? (s : Settings) : Option String :=
  if Int64.maxValue.toNatClampNeg < s.fixes.fetchTimeout then none
  else some <| String.intercalate "\n" [
    sectionText "project" <|
      ((s.project.name.map fun n ↦ assignment "name" (quoteText n)).toList) ++
      [assignment "extensions" (quoteTexts s.project.extensions),
        assignment "ignored_paths" (quoteTexts s.project.ignoredPaths)],
    sectionText "fixes" [
      assignment "fetch_timeout_ms" (toString s.fixes.fetchTimeout),
      assignment "attribute_names" (quoteText s.fixes.attributeNames.name)],
    sectionText "workspace" [
      assignment "max_file_size_mb" (toString s.workspace.maxFileSize),
      assignment "respect_gitignore" (flagText s.workspace.respectGitignore)],
    sectionText "output" [assignment "format" (quoteText s.output.format)]]

end CodeFix.Toml
