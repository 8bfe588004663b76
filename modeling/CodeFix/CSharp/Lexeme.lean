import CodeFix.Text.Basic

/-!
# Lexemes of C#

A source is cut into words, numbers, string literals, punctuation marks and comments; blanks between
them are skipped. Words include keywords, which only the grammar tells from identifiers, and
identifiers may begin with `@`. A character that begins no lexeme stands alone as a stray one, which
the grammar refuses.
-/

namespace CodeFix.CSharp

inductive LexemeSort where
  | word
  | number
  | string
  | mark
  | comment
  | stray
deriving DecidableEq, Repr

/-- A piece of a source: its sort, its text and the offset of its first byte. -/
structure Lexeme where
  sort : LexemeSort
  text : String
  start : Nat
deriving DecidableEq, Repr

def Lexeme.stop (l : Lexeme) : Nat := l.start + l.text.utf8ByteSize

/-! ## Character classes -/

/-- Separates lexemes and belongs to none. -/
def isGap (c : Char) : Bool := Text.isBlank c || c == '\uFEFF'

/-- Begins a word: a letter, an underscore or a character outside ASCII. -/
def beginsWord (c : Char) : Bool := c.isAlpha || c == '_' || (c.val ≥ 0x80 && !isGap c)

def continuesWord (c : Char) : Bool := beginsWord c || c.isDigit

/-- Stands for itself in the grammar. -/
def isMark (c : Char) : Bool := "\x7b\x7d[]()<>,;:.=?".toList.contains c

/-! ## Lengths of lexemes -/

/-- The number of characters of a block comment behind its first two, if it is closed. -/
def blockCommentLength? : List Char → Option Nat
  | '*' :: '/' :: _ => some 2
  | _ :: cs => (blockCommentLength? cs).map (· + 1)
  | [] => none

/-- The number of characters of a string literal behind its opening quote, if it is closed on its
line. -/
def stringLength? : List Char → Option Nat
  | '"' :: _ => some 1
  | '\\' :: c :: cs => if c == '\n' then none else (stringLength? cs).map (· + 2)
  | c :: cs => if c == '\n' || c == '\r' then none else (stringLength? cs).map (· + 1)
  | [] => none

/-- The sort of the lexeme that begins with a character, and how many of the following characters
belong to it. -/
def classify (c : Char) (rest : List Char) : LexemeSort × Nat :=
  if beginsWord c then (.word, (rest.takeWhile continuesWord).length)
  else if c.isDigit then (.number, (rest.takeWhile continuesWord).length)
  else
    match c, rest with
    | '@', d :: ds =>
      if beginsWord d then (.word, 1 + (ds.takeWhile continuesWord).length) else (.stray, 0)
    | '/', '/' :: ds =>
      (.comment, 1 + (ds.takeWhile fun d ↦ d != '\n' && d != '\r').length)
    | '/', '*' :: ds =>
      match blockCommentLength? ds with
      | some n => (.comment, 1 + n)
      | none => (.stray, 0)
    | '"', ds =>
      match stringLength? ds with
      | some n => (.string, n)
      | none => (.stray, 0)
    | ':', ':' :: _ => (.mark, 1)
    | c, _ => if isMark c then (.mark, 0) else (.stray, 0)

/-- The lexemes of a text that begins at an offset, behind the lexemes found so far, which are given
backwards. -/
def lexemesFrom (found : List Lexeme) (start : Nat) (cs : List Char) : List Lexeme :=
  match cs with
  | [] => found.reverse
  | c :: rest =>
    if isGap c then lexemesFrom found (start + c.utf8Size) rest
    else
      let (sort, more) := classify c rest
      let text := String.ofList (c :: rest.take more)
      lexemesFrom (⟨sort, text, start⟩ :: found) (start + text.utf8ByteSize) (rest.drop more)
termination_by cs.length
decreasing_by all_goals simp only [List.length_cons, List.length_drop]; omega

def lexemes (source : String) : List Lexeme := lexemesFrom [] 0 source.toList

end CodeFix.CSharp
