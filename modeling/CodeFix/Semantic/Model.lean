import CodeFix.Semantic.Symbol
import CodeFix.Solution.Basic
import CodeFix.Syntax.Kind

/-!
# The semantic model of a solution

A semantic model answers what nodes declare and which type a field has. `SemanticModel` is the
interface that fixes consult: any answers are possible, also none. `Solution.semanticModel` is the
model that knows the types declared in the documents of a snapshot by their simple names; all other
types are taken to be known from metadata.

Types are indexed by document path and, within a document, in pre-order, so the first declaration of
a type does not depend on the order in which files were read.
-/

namespace CodeFix

/-- The questions that fixes ask about a snapshot. -/
structure SemanticModel where
  /-- The symbol declared by a node or by the field declaration around it. -/
  declaredSymbol : Node → Option Symbol
  /-- The declared type of a field. -/
  fieldType : Symbol → Option Symbol
  /-- The nodes that declare a symbol, in the order of its locations. -/
  declaringReferences : Symbol → List SyntaxReference
  /-- The location is in a document. -/
  isInSource : SymbolLocation → Bool
  /-- The class of an attribute, if it can be referred to. -/
  attributeClass : WellKnownAttribute → Option AttributeClass

/-- The assembly that types without a declaration are attributed to. -/
def metadataAssembly : String := "metadata"

/-! ## Names and attributes of declarations -/

/-- The name that a declaration or declarator introduces. -/
def Node.declaredName? (n : Node) : Option String :=
  (n.childToken? Kind.identifier).map Token.text

/-- The attributes of a declaration, as nodes. -/
def Node.attributeItems (n : Node) : List Node :=
  (n.childNodes.filter fun c ↦ c.kind == Kind.attributeList).flatMap fun list ↦
    list.childNodes.filter fun c ↦ c.kind == Kind.attributeItem

/-- The names of a declaration's attributes, as spelled. -/
def Node.attributeNames (n : Node) : List String :=
  n.attributeItems.filterMap fun item ↦ item.children.head?.map Element.trimmedText

/-! ## The index of type declarations -/

structure TypeDeclaration where
  name : String
  document : DocumentId
  node : Node

/-- The named type declarations of a document, in pre-order. -/
def Document.typeDeclarations (d : Document) : List TypeDeclaration :=
  (d.root.descendants.filter fun n ↦ Kind.isTypeDeclaration n.kind).filterMap fun n ↦
    n.declaredName?.map fun name ↦ ⟨name, d.id, n⟩

namespace Solution

/-- The documents in the order of their paths; documents with the same path keep their order. -/
def documentsByPath (s : Solution) : List Document :=
  s.documents.mergeSort fun a b ↦ a.path.le b.path

/-- All named type declarations, by path and then in pre-order. -/
def typeIndex (s : Solution) : List TypeDeclaration :=
  s.documentsByPath.flatMap Document.typeDeclarations

/-- The declarations of a type, in the order of the index. -/
def declarationsOf (s : Solution) (name : String) : List TypeDeclaration :=
  s.typeIndex.filter fun d ↦ d.name == name

/-- A type that is known from metadata only. -/
def metadataType (name : String) : Symbol :=
  { name, kind := .type, locations := [.metadata metadataAssembly] }

/-- The symbol of the type with a name: all its declarations together. -/
def typeSymbol (s : Solution) (name : String) : Symbol :=
  match s.declarationsOf name with
  | [] => metadataType name
  | ds =>
    { name, kind := .type
      attributes := ds.flatMap fun d ↦ d.node.attributeNames
      locations := ds.map fun d ↦ .inSource d.document d.node.id }

/-- The first declaration of the type makes it a value type. -/
def isValueType (s : Solution) (name : String) : Bool :=
  (s.declarationsOf name).head?.any fun d ↦ Kind.isValueTypeDeclaration d.node.kind

/-! ## Fields -/

/-- The symbol of a declarator of a field, given the nodes above the field from the root down. -/
def fieldSymbol? (s : Solution) (field declarator : Node) (above : List Node) : Option Symbol := do
  let name ← declarator.declaredName?
  let declaration ← field.childNode? Kind.variableDeclaration
  let type ← declaration.children.head?
  let document ← s.documentOwning? field.id
  let container :=
    (above.reverse.find? fun n ↦ Kind.isTypeDeclaration n.kind).bind Node.declaredName?
  return {
    name, kind := .field
    typeName := some type.trimmedText
    attributes := field.attributeNames
    locations := [.inSource document.id declarator.id]
    container }

/-- A path from a root, cut in front of its last node of a kind: the nodes above that node, and the
nodes from it on. -/
def cutAtLast? (kind : String) (path : List Node) : Option (List Node × List Node) :=
  let below := path.reverse.takeWhile fun n ↦ n.kind != kind
  let count := path.length - below.length
  if count = 0 then none else some (path.take (count - 1), path.drop (count - 1))

/-- The declarator that a node in a field belongs to, given the nodes from the field down to the
node: the outermost declarator among them, or else the first one of the field. -/
def declaratorFor? (field : Node) (fromField : List Node) : Option Node :=
  (fromField.find? fun n ↦ n.kind == Kind.variableDeclarator).or
    ((field.childNode? Kind.variableDeclaration).bind fun declaration ↦
      declaration.childNode? Kind.variableDeclarator)

/-- The symbol declared by a node: the field around it, or else the type that it declares itself. -/
def declaredSymbol? (s : Solution) (n : Node) : Option Symbol := do
  let document ← s.documentOwning? n.id
  let path ← document.root.pathTo? n.id
  match cutAtLast? Kind.fieldDeclaration path with
  | some (above, field :: rest) =>
    let declarator ← declaratorFor? field (field :: rest)
    s.fieldSymbol? field declarator above
  | _ =>
    if Kind.isTypeDeclaration n.kind then n.declaredName?.map s.typeSymbol else none

/-- The type of a field by its spelling. Arrays and nullable value types are constructed from types
in metadata. -/
def fieldType? (s : Solution) (field : Symbol) : Option Symbol := do
  if field.kind != .field then none
  let spelled := Text.trim (← field.typeName)
  let type ← TypeName.parse spelled
  if type.array || (type.nullable && s.isValueType type.name) then
    return metadataType spelled
  return s.typeSymbol type.name

/-- The nodes at the locations of a symbol that are still there. -/
def declaringReferences (s : Solution) (symbol : Symbol) : List SyntaxReference :=
  symbol.locations.filterMap fun
    | .inSource document node =>
      (s.document? document).bind fun d ↦ (d.root.find? node).map fun n ↦ ⟨document, n⟩
    | .metadata _ => none

/-- The model that knows the types declared in the documents of the snapshot. -/
def semanticModel (s : Solution) : SemanticModel where
  declaredSymbol := s.declaredSymbol?
  fieldType := s.fieldType?
  declaringReferences := s.declaringReferences
  isInSource := SymbolLocation.isInSource
  attributeClass a := some (AttributeClass.wellKnown a)

end Solution

end CodeFix
