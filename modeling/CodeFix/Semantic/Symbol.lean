import CodeFix.Attribute.Basic
import CodeFix.Identity
import CodeFix.Syntax.Node
import CodeFix.Text.Basic

/-!
# Symbols and type spellings

A symbol is what a name means: a field or a type, with the places where it is declared and the names
of the attributes on its declarations as they are spelled there. A type that no document declares
has a location in metadata.

A field's type is spelled with suffixes, type arguments and qualifiers around the name that a type
declaration introduces. Suffixes are taken off from the right: a question mark makes the type
nullable, a pair of brackets makes it an array. Then everything from the first angle bracket on
goes, and of the rest the last segment behind `::` and `.` is the name.
-/

namespace CodeFix

/-! ## Symbols -/

inductive SymbolKind where
  | field
  | type
deriving DecidableEq, Repr

def SymbolKind.name : SymbolKind → String
  | field => "field"
  | type => "type"

/-- Where a symbol is declared. -/
inductive SymbolLocation where
  /-- By a node of a document. -/
  | inSource (document : DocumentId) (node : NodeId)
  /-- Outside of all documents. -/
  | metadata (assembly : String)
deriving DecidableEq, Repr

/-- The symbol is declared by a node of a document. -/
def SymbolLocation.isInSource : SymbolLocation → Bool
  | inSource .. => true
  | metadata .. => false

/-- The meaning of a name. -/
structure Symbol where
  name : String
  kind : SymbolKind
  locations : List SymbolLocation := []
  /-- Attribute names on the declarations, as spelled. -/
  attributes : List String := []
  /-- The type of a field, as spelled. -/
  typeName : Option String := none
  /-- The type that a field is declared in. -/
  container : Option String := none
deriving DecidableEq, Repr

namespace Symbol

/-- Some declaration of the symbol stands in a document. -/
def hasSourceLocation (s : Symbol) : Bool := s.locations.any SymbolLocation.isInSource

/-- An attribute of the symbol has the name, possibly qualified, possibly with the conventional
suffix. -/
def hasAttribute (s : Symbol) (shortName : String) : Bool :=
  s.attributes.any fun name ↦
    let last := Text.lastSegment '.' name
    last == shortName || last == shortName ++ attributeSuffix

end Symbol

/-- A declaring node and the document that holds it. -/
structure SyntaxReference where
  document : DocumentId
  node : Node
deriving DecidableEq

/-! ## Type spellings -/

/-- A type spelling, reduced to the name it is declared under. -/
structure TypeName where
  name : String
  /-- The spelling has at least one bracket suffix. -/
  array : Bool
  /-- The spelling has at least one question mark suffix. -/
  nullable : Bool
deriving DecidableEq, Repr

namespace TypeName

/-- The text in front of its last opening bracket, if there is one. The text is given backwards. -/
def beforeBracket? : List Char → Option (List Char)
  | [] => none
  | c :: cs => if c = '[' then some cs else beforeBracket? cs

private theorem beforeBracket?_length {cs ds : List Char} (h : beforeBracket? cs = some ds) :
    ds.length < cs.length := by
  induction cs with
  | nil => simp [beforeBracket?] at h
  | cons c cs ih =>
    rw [beforeBracket?] at h
    split at h
    · simp only [Option.some.injEq] at h; subst h; simp
    · have := ih h; simp; omega

/-- The trailing part of a backwards text without blanks is not longer. -/
private theorem length_dropBlanks (cs : List Char) :
    (cs.dropWhile Text.isBlank).length ≤ cs.length :=
  (List.dropWhile_sublist _).length_le

/-- Takes the suffixes off a backwards spelling; the flags say which were seen. -/
def stripSuffixes (cs : List Char) (array nullable : Bool) : List Char × Bool × Bool :=
  match cs with
  | [] => ([], array, nullable)
  | c :: rest =>
    if c = '?' then stripSuffixes (rest.dropWhile Text.isBlank) array true
    else if c = ']' then
      match _h : beforeBracket? (c :: rest) with
      | some before => stripSuffixes (before.dropWhile Text.isBlank) true nullable
      | none => (c :: rest, array, nullable)
    else (c :: rest, array, nullable)
termination_by cs.length
decreasing_by
  · have := length_dropBlanks rest; simp; omega
  · have h₁ := beforeBracket?_length _h
    have h₂ := length_dropBlanks before
    simp at h₁ ⊢; omega

/-- What stands behind the last pair of colons; `kept` is what stands behind the last pair so far.
-/
def afterColons (kept : List Char) : List Char → List Char
  | [] => kept
  | c :: cs =>
    match c, cs with
    | ':', ':' :: rest => afterColons rest cs
    | _, _ => afterColons kept cs

def afterDot (cs : List Char) : List Char :=
  (cs.reverse.takeWhile (· != '.')).reverse

/-- Reduces a type spelling; nothing if no name is left. -/
def parse (spelled : String) : Option TypeName :=
  let (reversed, array, nullable) :=
    stripSuffixes (Text.trimChars spelled.toList).reverse false false
  let text := reversed.reverse
  let text :=
    if text.contains '<' then Text.trimEndChars (text.takeWhile (· != '<')) else text
  let name := Text.trimChars (afterDot (afterColons text text))
  if name.isEmpty then none else some ⟨String.ofList name, array, nullable⟩

end TypeName

end CodeFix
