import CodeFix.CSharp.Lexeme
import CodeFix.Syntax.Concrete

/-!
# Reading C# sources

Rules read a list of lexemes without comments and answer concrete trees, or fail. The grammar covers
declarations with their attributes, types and initializers, and the few statements that method
bodies in analyzer samples are made of. A node's kind is the name of its rule, a keyword or mark is
a leaf whose kind is its own text, and names nest to the left.

Types, expressions, statements and declarations contain each other; their rules count down a depth
that no source can exhaust, because every level of nesting reads at least one lexeme.

A source that the grammar covers becomes the tree of its declarations. Comments take part in no
rule; each one is placed afterwards as a child of the innermost node that it lies inside of, which
is also where a reader would look for it. Any other source becomes a flat tree of its lexemes, so
that its text is kept and can be written back.

This is the parser of the installed toolkit and covers the part of the language above. What holds of
workspaces holds for every sound parser, and this one is sound.
-/

namespace CodeFix.CSharp

open ConcreteTree

/-- Reads lexemes from the front of a list. -/
abbrev Rule := StateT (List Lexeme) Option

/-- The trees of consecutive siblings. -/
abbrev Trees := List ConcreteTree

/-! ## Leaves and repetition -/

/-- The words that are no identifiers. -/
def reservedWords : List String :=
  ["abstract", "as", "base", "bool", "break", "byte", "case", "catch", "char", "checked", "class",
    "const", "continue", "decimal", "default", "delegate", "do", "double", "else", "enum", "event",
    "explicit", "extern", "false", "finally", "fixed", "float", "for", "foreach", "goto", "if",
    "implicit", "in", "int", "interface", "internal", "is", "lock", "long", "namespace", "new",
    "null", "object", "operator", "out", "override", "params", "private", "protected", "public",
    "readonly", "ref", "return", "sbyte", "sealed", "short", "sizeof", "stackalloc", "static",
    "string", "struct", "switch", "this", "throw", "true", "try", "typeof", "uint", "ulong",
    "unchecked", "unsafe", "ushort", "using", "virtual", "void", "volatile", "while"]

/-- The words that name types of their own. -/
def predefinedTypes : List String :=
  ["bool", "byte", "char", "decimal", "double", "float", "int", "long", "object", "sbyte", "short",
    "string", "uint", "ulong", "ushort", "nint", "nuint", "void"]

/-- The words that modify a declaration. -/
def modifiers : List String :=
  ["abstract", "async", "const", "extern", "file", "fixed", "internal", "new", "override",
    "partial", "private", "protected", "public", "readonly", "required", "sealed", "static",
    "unsafe", "virtual", "volatile"]

def leafOf (kind : String) (l : Lexeme) : ConcreteTree := leaf kind l.start l.stop

/-- The next lexeme, if it passes a test. -/
def lexemeWhere (p : Lexeme → Bool) : Rule Lexeme := fun
  | l :: ls => if p l then some (l, ls) else none
  | [] => none

/-- A keyword or mark, as a leaf of its own kind. -/
def exactly (text : String) : Rule ConcreteTree := do
  let l ← lexemeWhere fun l ↦ (l.sort == .word || l.sort == .mark) && l.text == text
  return leafOf text l

/-- Fails without reading unless the next lexemes begin as the rule says. -/
def ahead (r : Rule Unit) : Rule Unit := fun ls ↦ (r ls).map fun _ ↦ ((), ls)

/-- What the rule reads, or nothing. -/
def optionally (r : Rule Trees) : Rule Trees := r <|> pure []

/-- One tree as a list of siblings. -/
def single (r : Rule ConcreteTree) : Rule Trees := do return [← r]

/-- The rule as often as it succeeds, at most `n` times. -/
def upTo (r : Rule Trees) : Nat → Rule Trees
  | 0 => pure []
  | n + 1 => (do let first ← r; let others ← upTo r n; return first ++ others) <|> pure []

def repeatedly (r : Rule Trees) : Rule Trees := do upTo r (← get).length

/-- One item or several, with a mark between them. -/
def separated (mark : String) (item : Rule Trees) : Rule Trees := do
  let first ← item
  let others ← repeatedly do return (← single (exactly mark)) ++ (← item)
  return first ++ others

def node (kind : String) (r : Rule Trees) : Rule ConcreteTree := do return branch kind (← r)

def between (left right : String) (r : Rule Trees) : Rule Trees := do
  return [← exactly left] ++ (← r) ++ [← exactly right]

/-! ## Names, types and expressions -/

/-- An identifier. -/
def identifier : Rule ConcreteTree := do
  let l ← lexemeWhere fun l ↦ l.sort == .word && !reservedWords.contains l.text
  return leafOf Kind.identifier l

/-- A type that is a keyword. -/
def predefinedType : Rule ConcreteTree := do
  let l ← lexemeWhere fun l ↦ l.sort == .word && predefinedTypes.contains l.text
  return leafOf "predefined_type" l

/-- A name that begins at the global namespace. -/
def aliasQualifiedName : Rule ConcreteTree :=
  node "alias_qualified_name" do
    let start ← node Kind.identifier (single (exactly "global"))
    return [start, ← exactly "::", ← identifier]

/-- The suffixes of a type, put around the type one after another. -/
def typeSuffixes (type : ConcreteTree) : Nat → Rule ConcreteTree
  | 0 => pure type
  | n + 1 =>
    (do
      let mark ← exactly "?"
      typeSuffixes (branch "nullable_type" [type, mark]) n) <|>
    (do
      let rank ← node "array_rank_specifier"
        (between "[" "]" (repeatedly (single (exactly ","))))
      typeSuffixes (branch "array_type" [type, rank]) n) <|>
    pure type

/-- More segments of a dotted name, nested to the left. -/
def moreSegments (segment : Rule ConcreteTree) (name : ConcreteTree) : Nat → Rule ConcreteTree
  | 0 => pure name
  | n + 1 =>
    (do
      let dot ← exactly "."
      let next ← segment
      moreSegments segment (branch Kind.qualifiedName [name, dot, next]) n) <|>
    pure name

mutual

/-- A name with its qualifiers and type arguments. -/
def name : Nat → Rule ConcreteTree
  | 0 => failure
  | depth + 1 => do
    let segment : Rule ConcreteTree :=
      (node "generic_name" do
        let head ← identifier
        let arguments ← node "type_argument_list"
          (between "<" ">" (separated "," (single (type depth))))
        return [head, arguments]) <|> identifier
    let first ← aliasQualifiedName <|> segment
    moreSegments segment first (← get).length

def type : Nat → Rule ConcreteTree
  | 0 => failure
  | depth + 1 => do
    let core ← predefinedType <|> name depth
    typeSuffixes core (← get).length

end

/-- The parts of a string literal between its quotes: runs of plain characters and escapes, as
leaves from an offset on. -/
def literalParts : Nat → List Char → Nat → Trees
  | 0, _, _ => []
  | _, [], _ => []
  | n + 1, '\\' :: c :: cs, start =>
    let stop := start + 1 + c.utf8Size
    leaf "escape_sequence" start stop :: literalParts n cs stop
  | n + 1, cs, start =>
    let plain := cs.takeWhile (· != '\\')
    if plain.isEmpty then []
    else
      let stop := start + (String.ofList plain).utf8ByteSize
      leaf "string_literal_content" start stop :: literalParts n (cs.drop plain.length) stop

def stringLiteral : Rule ConcreteTree := do
  let l ← lexemeWhere fun l ↦ l.sort == .string
  let inner := (l.text.toList.drop 1).dropLast
  return branch "string_literal"
    ([leaf "\"" l.start (l.start + 1)] ++ literalParts inner.length inner (l.start + 1) ++
      [leaf "\"" (l.stop - 1) l.stop])

/-- An initializer or argument. -/
def expression (depth : Nat) : Rule ConcreteTree :=
  (do return leafOf "integer_literal" (← lexemeWhere fun l ↦ l.sort == .number)) <|>
  stringLiteral <|>
  (do return leafOf "null_literal" (← lexemeWhere fun l ↦ l.sort == .word && l.text == "null")) <|>
  node "boolean_literal" (single (exactly "true" <|> exactly "false")) <|>
  (node "object_creation_expression" do
    let keyword ← exactly "new"
    let created ← type depth
    return [keyword, created, ← node "argument_list" (between "(" ")" (pure []))]) <|>
  identifier

/-! ## Parts of declarations -/

def attributeList (depth : Nat) : Rule ConcreteTree :=
  let argument := single (node "attribute_argument" (single (expression depth)))
  let item := node Kind.attributeItem do
    let head ← name depth
    let arguments ← optionally <| single <| node "attribute_argument_list" <|
      between "(" ")" (optionally (separated "," argument))
    return head :: arguments
  node Kind.attributeList (between "[" "]" (separated "," (single item)))

/-- A modifier; it is no modifier unless another word or a bracket of a type follows. -/
def modifier : Rule ConcreteTree := do
  let l ← lexemeWhere fun l ↦ l.sort == .word && modifiers.contains l.text
  ahead (do discard (lexemeWhere fun l ↦ l.sort == .word))
  return branch "modifier" [leafOf l.text l]

/-- The attribute lists and modifiers that a declaration begins with. -/
def preamble (depth : Nat) : Rule Trees := do
  return (← repeatedly (single (attributeList depth))) ++ (← repeatedly (single modifier))

/-- The value behind an equals sign. -/
def initializer (depth : Nat) : Rule Trees := do
  return [← exactly "=", ← expression depth]

/-- A type and the variables declared with it. -/
def variableDeclaration (depth : Nat) : Rule ConcreteTree :=
  node Kind.variableDeclaration do
    let declared ← type depth
    let declarator := node Kind.variableDeclarator do
      return [← identifier] ++ (← optionally (initializer depth))
    return declared :: (← separated "," (single declarator))

/-- The parameters of a method, delegate or record. -/
def parameterList (depth : Nat) : Rule ConcreteTree :=
  let parameter := node "parameter" do return [← type depth, ← identifier]
  node "parameter_list" (between "(" ")" (optionally (separated "," (single parameter))))

def typeParameterList : Rule ConcreteTree :=
  let parameter := node "type_parameter" (single identifier)
  node "type_parameter_list" (between "<" ">" (separated "," (single parameter)))

/-- The base types of a declaration. -/
def baseList (depth : Nat) : Rule ConcreteTree :=
  node "base_list" do
    return (← exactly ":") :: (← separated "," (single (type depth)))

def statement (depth : Nat) : Rule ConcreteTree :=
  (node "return_statement" do
    let keyword ← exactly "return"
    let value ← optionally (single (expression depth))
    return keyword :: value ++ [← exactly ";"]) <|>
  (node "local_declaration_statement" do
    return [← variableDeclaration depth, ← exactly ";"])

/-- The body of a method. -/
def block (depth : Nat) : Rule ConcreteTree :=
  node "block" (between "\x7b" "\x7d" (repeatedly (single (statement depth))))

/-! ## Members -/

def accessorList (depth : Nat) : Rule ConcreteTree :=
  let accessor := node "accessor_declaration" do
    let front ← preamble depth
    let keyword ← exactly "get" <|> exactly "set" <|> exactly "init"
    let body ← exactly ";" <|> block depth
    return front ++ [keyword, body]
  node "accessor_list" (between "\x7b" "\x7d" (repeatedly (single accessor)))

/-- A member that is no type, behind its attribute lists and modifiers. -/
def member (depth : Nat) (front : Trees) : Rule ConcreteTree :=
  (node Kind.eventFieldDeclaration do
    let keyword ← exactly "event"
    let declaration ← variableDeclaration depth
    return front ++ [keyword, declaration, ← exactly ";"]) <|>
  (node "constructor_declaration" do
    let introduced ← identifier
    let parameters ← parameterList depth
    return front ++ [introduced, parameters, ← block depth]) <|>
  (node Kind.methodDeclaration do
    let result ← type depth
    let introduced ← identifier
    let parameters ← parameterList depth
    return front ++ [result, introduced, parameters, ← block depth]) <|>
  (node Kind.propertyDeclaration do
    let result ← type depth
    let introduced ← identifier
    return front ++ [result, introduced, ← accessorList depth]) <|>
  (node Kind.fieldDeclaration do
    let declaration ← variableDeclaration depth
    return front ++ [declaration, ← exactly ";"])

def delegateDeclaration (depth : Nat) (front : Trees) : Rule ConcreteTree :=
  node Kind.delegateDeclaration do
    let keyword ← exactly "delegate"
    let result ← type depth
    let introduced ← identifier
    let parameters ← parameterList depth
    return front ++ [keyword, result, introduced, parameters, ← exactly ";"]

def enumDeclaration (depth : Nat) (front : Trees) : Rule ConcreteTree :=
  node Kind.enumDeclaration do
    let keyword ← exactly "enum"
    let introduced ← identifier
    let bases ← optionally (single (baseList depth))
    let value := node "enum_member_declaration" do
      let lists ← repeatedly (single (attributeList depth))
      let introduced ← identifier
      return lists ++ [introduced] ++ (← optionally (initializer depth))
    let values := do
      return (← separated "," (single value)) ++ (← optionally (single (exactly ",")))
    let body ← node "enum_member_declaration_list" (between "\x7b" "\x7d" (optionally values))
    return front ++ [keyword, introduced] ++ bases ++ [body]

/-! ## Types and namespaces -/

/-- What follows the keyword of a type declaration up to its body. -/
def typeHead (depth : Nat) (parameters : Rule Trees) : Rule Trees := do
  let introduced ← identifier
  let generic ← optionally (single typeParameterList)
  let primary ← parameters
  let bases ← optionally (single (baseList depth))
  return [introduced] ++ generic ++ primary ++ bases

/-- A directive that brings names into scope. -/
def usingDirective (depth : Nat) : Rule ConcreteTree :=
  node Kind.usingDirective do
    let front ← optionally (single (exactly "global"))
    let keyword ← exactly "using"
    let sort ← optionally <| (single (exactly "static")) <|> (do
      let introduced ← identifier
      return [introduced, ← exactly "="])
    let target ← name depth
    return front ++ [keyword] ++ sort ++ [target, ← exactly ";"]

/-- A declaration of any sort. -/
def declaration : Nat → Rule ConcreteTree
  | 0 => failure
  | depth + 1 =>
    let body := node "declaration_list"
      (between "\x7b" "\x7d" (repeatedly (single (declaration depth))))
    let classLike (kind keyword : String) (front : Trees) : Rule ConcreteTree := node kind do
      let first ← exactly keyword
      let head ← typeHead depth (pure [])
      return front ++ [first] ++ head ++ [← body]
    let record (front : Trees) : Rule ConcreteTree := node Kind.recordDeclaration do
      let first ← exactly "record"
      let sort ← optionally (single (exactly "struct" <|> exactly "class"))
      let head ← typeHead depth (optionally (single (parameterList depth)))
      return front ++ [first] ++ sort ++ head ++ [← exactly ";" <|> body]
    let space : Rule ConcreteTree :=
      (node Kind.namespaceDeclaration do
        let keyword ← exactly Kind.namespaceKeyword
        let introduced ← name depth
        return [keyword, introduced, ← body]) <|>
      (node Kind.fileScopedNamespace do
        let keyword ← exactly Kind.namespaceKeyword
        let introduced ← name depth
        return [keyword, introduced, ← exactly ";"])
    space <|> usingDirective depth <|> do
      let front ← preamble depth
      classLike Kind.classDeclaration "class" front <|>
        classLike Kind.structDeclaration "struct" front <|>
        classLike Kind.interfaceDeclaration "interface" front <|>
        enumDeclaration depth front <|> delegateDeclaration depth front <|> record front <|>
        member depth front

/-! ## Comments -/

def commentLeaf (l : Lexeme) : ConcreteTree := leafOf "comment" l

mutual

/-- Places comments that lie inside of a tree. -/
def placeComments : ConcreteTree → List Lexeme → ConcreteTree
  | .mk kind start stop children, comments =>
    .mk kind start stop (placeCommentsAmong children comments)
termination_by structural t => t

/-- Places comments inside of, between and around sibling trees. -/
def placeCommentsAmong : List ConcreteTree → List Lexeme → List ConcreteTree
  | [], comments => comments.map commentLeaf
  | .mk kind start stop children :: ts, comments =>
    let (before, others) := comments.span fun l ↦ decide (l.start < start)
    let (inside, after) := others.span fun l ↦ decide (l.start < stop)
    before.map commentLeaf ++
      placeComments (.mk kind start stop children) inside :: placeCommentsAmong ts after
termination_by structural ts => ts

end

/-! ## Sources -/

/-- The concrete tree of a source. -/
def concreteTree (source : String) : ConcreteTree :=
  let all := lexemes source
  let comments := all.filter fun l ↦ l.sort == .comment
  let read := all.filter fun l ↦ l.sort != .comment
  match repeatedly (single (declaration (read.length + 1))) read with
  | some (ts, []) =>
    .mk Kind.compilationUnit 0 source.utf8ByteSize (placeCommentsAmong ts comments)
  | _ =>
    .mk Kind.compilationUnit 0 source.utf8ByteSize
      (all.map fun l ↦ leafOf (if l.sort == .comment then "comment" else "ERROR") l)

/-- The parser of the installed toolkit. It never gives up. -/
def parser : Parser := fun source ↦ some (concreteTree source)

end CodeFix.CSharp
