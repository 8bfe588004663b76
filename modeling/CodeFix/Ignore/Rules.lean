import CodeFix.Ignore.Matching
import CodeFix.Text.Basic
import CodeFix.Workspace.Discovery

/-!
# Ignore rules

An ignore file holds one rule a line. A rule ignores the paths that its pattern matches, or takes
them back if `!` stands before the pattern. A slash at the end restricts the rule to directories. A
pattern with a slash elsewhere is matched against the path as seen from the directory of the file,
any other one against every name. The last rule that matches decides.

Lines that are empty or begin with `#` hold no rule, and lines whose pattern is invalid are passed
over. Reading stops at the first line that is no text.
-/

namespace CodeFix.Ignore

/-- A line of an ignore file. -/
structure Rule where
  tokens : List Token
  verdict : Verdict
  directoriesOnly : Bool

/-- The rules of an ignore file in the order of lines. -/
abbrev Rules := List Rule

/-! ## Reading -/

/-- The parts of a rule: its verdict, whether its pattern begins at the directory of the file, and
the pattern. -/
structure RuleParts where
  verdict : Verdict
  anchored : Bool
  pattern : List Char

/-- Takes the signs off the beginning of a rule. A backslash makes them ordinary characters. -/
def ruleParts : List Char → RuleParts
  | '\\' :: '!' :: cs => ⟨.ignored, false, '!' :: cs⟩
  | '\\' :: '#' :: cs => ⟨.ignored, false, '#' :: cs⟩
  | '!' :: '/' :: cs => ⟨.kept, true, cs⟩
  | '!' :: cs => ⟨.kept, false, cs⟩
  | '/' :: cs => ⟨.ignored, true, cs⟩
  | cs => ⟨.ignored, false, cs⟩

/-- The pattern without a slash at the end, and a backslash before it, if it ends with a slash. -/
def withoutLastSlash? (cs : List Char) : Option (List Char) :=
  match cs.reverse with
  | '/' :: '\\' :: rest => some rest.reverse
  | '/' :: rest => some rest.reverse
  | _ => none

/-- The pattern for the whole path: one without slashes may stand behind any directories, and one
that ends in two stars needs a name below the directory. -/
def fullPattern (anchored : Bool) (cs : List Char) : List Char :=
  let startsAnywhere := "**/".toList.isPrefixOf cs || cs == "**".toList
  let cs :=
    if !anchored && !cs.contains '/' && !startsAnywhere then "**/".toList ++ cs else cs
  if "/**".toList.isSuffixOf cs then cs ++ "/*".toList else cs

/-- The line without blanks at the end, unless a backslash keeps them. -/
def trimLine (cs : List Char) : List Char :=
  if "\\ ".toList.isSuffixOf cs then cs else Text.trimEndChars cs

/-- The rule of a line, if it holds a valid one. -/
def Rule.ofLine? (line : List Char) : Option Rule :=
  if line.head? == some '#' then none
  else
    let line := trimLine line
    if line.isEmpty then none
    else do
      let parts := ruleParts line
      let short := withoutLastSlash? parts.pattern
      let tokens ← tokens? (fullPattern parts.anchored (short.getD parts.pattern))
      return ⟨tokens, parts.verdict, short.isSome⟩

/-- Lines of bytes, without their line breaks. A carriage return counts only before a line feed. -/
def lines (content : ByteArray) : List (List UInt8) :=
  let lineFeed : UInt8 := '\n'.toNat.toUInt8
  let carriageReturn : UInt8 := '\r'.toNat.toUInt8
  let split := content.toList.foldr
    (fun b acc ↦
      if b = lineFeed then [] :: acc
      else match acc with
        | [] => [[b]]
        | l :: ls => (b :: l) :: ls) [[]]
  let ended := split.dropLast.map fun l ↦
    if l.getLast? = some carriageReturn then l.dropLast else l
  ended ++ split.getLast?.toList

/-- The texts of lines up to the first one that is no text. -/
def textLines : List (List UInt8) → List (List Char)
  | [] => []
  | l :: ls =>
    match String.fromUTF8? ⟨l.toArray⟩ with
    | some s => s.toList :: textLines ls
    | none => []

def byteOrderMark : Char := '\ufeff'

/-- The rules of an ignore file; byte order marks at the beginning are passed over. -/
def Rules.ofBytes (content : ByteArray) : Rules :=
  match textLines (lines content) with
  | [] => []
  | first :: rest =>
    (first.dropWhile (· == byteOrderMark) :: rest).filterMap Rule.ofLine?

/-! ## Deciding -/

def Rule.applies (r : Rule) (path : String) (isDirectory : Bool) : Bool :=
  (!r.directoriesOnly || isDirectory) && matchesPath r.tokens path

/-- The verdict of the last rule that applies to a path. -/
def Rules.verdict? (rules : Rules) (path : String) (isDirectory : Bool) : Option Verdict :=
  (rules.reverse.find? fun r ↦ r.applies path isDirectory).map Rule.verdict

/-- The directories above a path without detours, nearest one first; the last one is the empty path.
-/
def parents (path : String) : List String :=
  let names := (Text.segments '/' path).filter fun s ↦ s != "" && s != "."
  (List.range names.length).reverse.map fun k ↦ String.intercalate "/" (names.take k)

/-- The verdict on a path, or else on the nearest directory above it on which there is one. -/
def Rules.verdictWithParents? (rules : Rules) (path : String) (isDirectory : Bool) :
    Option Verdict :=
  (rules.verdict? path isDirectory).or
    ((parents path).findSome? fun p ↦ rules.verdict? p true)

/-- A path without `./` at the beginning. -/
def withoutCurrent (p : PathName) : PathName :=
  match p.text.toList with
  | '.' :: '/' :: cs => ⟨String.ofList cs⟩
  | _ => p

/-- The rules in a file match paths below the directory that the file is about; a file that cannot
be read holds none. -/
def matcher? (d : Disk) (_root file : PathName) : Option Matcher :=
  let rules := ((d.readBytes file).toOption.map Rules.ofBytes).getD []
  some fun p isDirectory ↦ rules.verdictWithParents? (withoutCurrent p).text isDirectory

end CodeFix.Ignore
