import CodeFix.Path

/-!
# Patterns of ignore rules

The pattern of an ignore rule is a path with wildcards. `?` stands for one byte and `*` for any
number of bytes of one segment; `**` as a whole segment stands for any number of segments. Brackets
list the characters that fit, or those that do not fit behind `!` or `^`, and braces list
alternatives. A backslash takes the next character literally. A bracket that is never closed is an
ordinary character, whereas an unclosed brace or a range from a higher to a lower character makes
the pattern invalid.

A pattern is read in two passes: first into symbols, where brackets and backslashes are resolved,
then into tokens, where runs of stars and braces are.
-/

namespace CodeFix.Ignore

/-! ## Symbols -/

/-- A symbol of a pattern. -/
inductive Symbol where
  | plain (c : Char)
  | escaped (c : Char)
  /-- Characters by ranges. -/
  | oneOf (negated : Bool) (ranges : List (Char × Char))
deriving DecidableEq, Repr

def Symbol.first : Symbol → Char
  | plain c => c
  | escaped _ => '\\'
  | oneOf _ _ => '['

/-- What follows an opening bracket. -/
inductive BracketList where
  /-- The ranges, and how many characters they take with the closing bracket. -/
  | closed (ranges : List (Char × Char)) (taken : Nat)
  | unclosed
  /-- A range whose end is below its start. -/
  | reversed
deriving DecidableEq, Repr

/-- Puts an end to the last range. -/
def endRange (c : Char) : List (Char × Char) → Option (List (Char × Char))
  | [] => none
  | (a, _) :: rest => if c < a then none else some ((a, c) :: rest)

/-- Reads the ranges up to a closing bracket. A closing bracket or a minus sign that comes first is
one of the characters, and so is a minus sign that comes last. The ranges come last one first. -/
def bracketList (isFirst inRange : Bool) (ranges : List (Char × Char)) (taken : Nat) :
    List Char → BracketList
  | [] => .unclosed
  | c :: cs =>
    if c == ']' && !isFirst then
      .closed ((if inRange then ('-', '-') :: ranges else ranges).reverse) (taken + 1)
    else if c == '-' && !isFirst && !inRange then bracketList false true ranges (taken + 1) cs
    else if inRange then
      match endRange c ranges with
      | none => .reversed
      | some rs => bracketList false false rs (taken + 1) cs
    else bracketList false false ((c, c) :: ranges) (taken + 1) cs

/-- The sign that negates a bracket list, if it is there. -/
def isNegation : List Char → Bool
  | '!' :: _ | '^' :: _ => true
  | _ => false

/-- The symbols of a pattern; nothing if a backslash comes last or a range is reversed. -/
def symbols? (brackets : Bool) : List Char → Option (List Symbol)
  | [] => some []
  | '\\' :: [] => none
  | '\\' :: c :: cs => (symbols? brackets cs).map (.escaped c :: ·)
  | c :: cs =>
    if c == '[' && brackets then
      let negated := isNegation cs
      let skipped := if negated then 1 else 0
      match bracketList true false [] skipped (cs.drop skipped) with
      | .closed ranges taken => (symbols? true (cs.drop taken)).map (.oneOf negated ranges :: ·)
      | .unclosed => (symbols? false cs).map (.plain '[' :: ·)
      | .reversed => none
    else (symbols? brackets cs).map (.plain c :: ·)
termination_by cs => cs.length
decreasing_by all_goals simp only [List.length_cons, List.length_drop]; omega

/-! ## Tokens -/

/-- A token of a pattern. -/
inductive Token where
  | literal (c : Char)
  /-- One byte that is no slash. -/
  | anyByte
  /-- Any bytes that are no slashes. -/
  | anyBytes
  /-- Any directories at the beginning of the path. -/
  | directoriesBefore
  /-- Everything below a directory. -/
  | everythingBelow
  /-- Any directories between two names. -/
  | directoriesBetween
  | oneOf (negated : Bool) (ranges : List (Char × Char))
  | choice (branches : List (List Token))

/-- A choice under construction: the tokens before it and its finished branches, last ones first. -/
structure OpenChoice where
  before : List Token
  branches : List (List Token)

/-- Tokens under construction, last one first, and the choices around them, innermost one first. -/
structure Draft where
  tokens : List Token
  choices : List OpenChoice

namespace Draft

def push (d : Draft) (t : Token) : Draft := { d with tokens := t :: d.tokens }

/-- Adds the token for a run of two stars that is no segment of its own. -/
def pushStars (d : Draft) : Draft := (d.push .anyBytes).push .anyBytes

/-- The token for two stars as a segment takes the place of the slash before them. -/
def pushDirectories (d : Draft) (isLast : Bool) : Draft :=
  match d.tokens with
  | .directoriesBefore :: _ => d
  | .everythingBelow :: _ => d
  | ts => { d with tokens := (if isLast then .everythingBelow else .directoriesBetween) :: ts.tail }

def openChoice (d : Draft) : Draft := ⟨[], ⟨d.tokens, []⟩ :: d.choices⟩

/-- Begins the next branch; outside of a choice the comma is an ordinary character. -/
def nextBranch (d : Draft) : Draft :=
  match d.choices with
  | [] => d.push (.literal ',')
  | c :: cs => ⟨[], ⟨c.before, d.tokens.reverse :: c.branches⟩ :: cs⟩

/-- Ends a choice; there has to be one. -/
def closeChoice? (d : Draft) : Option Draft :=
  match d.choices with
  | [] => none
  | c :: cs => some ⟨.choice (d.tokens.reverse :: c.branches).reverse :: c.before, cs⟩

/-- Two stars may be a segment: a slash comes before them, or the beginning of a branch. -/
def mayBeSegment (d : Draft) (previous : Option Char) : Bool :=
  previous == some '/' ||
    (!d.choices.isEmpty && (previous == some ',' || previous == some '{'))

def endsBranch (d : Draft) (next : Option Char) : Bool :=
  !d.choices.isEmpty && (next == some ',' || next == some '}')

end Draft

/-- Adds the tokens of symbols to a draft; nothing if braces do not match. -/
def tokensFrom? (d : Draft) (previous : Option Char) : List Symbol → Option (List Token)
  | [] => if d.choices.isEmpty then some d.tokens.reverse else none
  | .plain '*' :: .plain '*' :: .plain '/' :: rest =>
    if d.tokens.isEmpty then tokensFrom? (d.push .directoriesBefore) (some '/') rest
    else if d.mayBeSegment previous then tokensFrom? (d.pushDirectories false) (some '/') rest
    else tokensFrom? (d.pushStars.push (.literal '/')) (some '/') rest
  | .plain '*' :: .plain '*' :: rest =>
    let next := rest.head?.map Symbol.first
    if d.tokens.isEmpty then
      if rest.isEmpty then tokensFrom? (d.push .directoriesBefore) (some '*') rest
      else tokensFrom? d.pushStars (some '*') rest
    else if d.mayBeSegment previous && (next.isNone || d.endsBranch next) then
      tokensFrom? (d.pushDirectories true) (some '*') rest
    else tokensFrom? d.pushStars (some '*') rest
  | .plain '*' :: rest => tokensFrom? (d.push .anyBytes) (some '*') rest
  | .plain '?' :: rest => tokensFrom? (d.push .anyByte) (some '?') rest
  | .plain '{' :: rest => tokensFrom? d.openChoice (some '{') rest
  | .plain ',' :: rest => tokensFrom? d.nextBranch (some ',') rest
  | .plain '}' :: rest => do tokensFrom? (← d.closeChoice?) (some '}') rest
  | .plain c :: rest => tokensFrom? (d.push (.literal c)) (some c) rest
  | .escaped c :: rest => tokensFrom? (d.push (.literal c)) (some c) rest
  | .oneOf negated ranges :: rest =>
    tokensFrom? (d.push (.oneOf negated ranges)) (some ']') rest

/-- The tokens of a pattern, if it is valid. -/
def tokens? (pattern : List Char) : Option (List Token) := do
  tokensFrom? ⟨[], []⟩ none (← symbols? true pattern)

end CodeFix.Ignore
