import CodeFix.Attribute.Basic
import CodeFix.Fix.Error
import CodeFix.Syntax.Kind
import CodeFix.Syntax.Lookup
import CodeFix.Syntax.Text
import CodeFix.Text.Basic

/-!
# Attributes on declarations

A declaration gets one attribute list per attribute, behind the lists it has and in front of its
modifiers. The result is a new node, marked for layout, whose other children are those of the
declaration. Behind existing lists each new list repeats the trivia of the element it is put in
front of. In front of everything the declaration's own leading trivia move to the first new list, so
that comments and indentation stay above the declaration.

The simple spelling of an attribute resolves where `System` is imported by a using directive, and
inside of the namespace `System` and the namespaces below it. A namespace is entered by a
declaration on the path to the target or, for the form without braces, by a declaration beside it at
the top of the file.
-/

namespace CodeFix

/-! ## Inserting lists -/

/-- The name of an attribute as a syntax element: an identifier, or a qualified name nested to the
left for a dotted name. -/
def attributeNameElement (rendered : String) : StateM Supply Element :=
  match Text.segments '.' rendered with
  | [] => return .token ⟨Kind.identifier, "", rendered⟩
  | first :: rest =>
    rest.foldlM (fun name segment ↦ do
        return .node (← Node.create Kind.qualifiedName
          [name, .token ⟨".", "", "."⟩, .token ⟨Kind.identifier, "", segment⟩]))
      (Element.token ⟨Kind.identifier, "", first⟩)

/-- An attribute list with one attribute, behind the given trivia. -/
def attributeListNode (rendered leading : String) : StateM Supply Node := do
  let name ← attributeNameElement rendered
  let item ← Node.create Kind.attributeItem [name]
  Node.create Kind.attributeList [.token ⟨"[", leading, "["⟩, .node item, .token ⟨"]", "", "]"⟩]

/-- One attribute list per pair of a written name and the trivia in front of it. -/
def attributeListElements : List (String × String) → StateM Supply (List Element)
  | [] => return []
  | (rendered, leading) :: rest => do
    let list ← attributeListNode rendered leading
    return .node list :: (← attributeListElements rest)

/-- The number of children up to and including the last attribute list. -/
def insertionIndex (children : List Element) : Nat :=
  children.length - (children.reverse.takeWhile fun e ↦ e.kind != Kind.attributeList).length

/-- The children of the declaration with the new lists among them. -/
def insertLists (n : Node) (rendered : List String) : StateM Supply (List Element) := do
  let index := insertionIndex n.children
  let before := n.children.take index
  let after := n.children.drop index
  if index = 0 then
    let stamp ← Stamp.fresh
    let trivia := n.leadingTrivia :: List.replicate (rendered.length - 1) ""
    let lists ← attributeListElements (rendered.zip trivia)
    match after with
    | [] => return lists
    | first :: rest => return lists ++ first.withLeadingTrivia stamp "" :: rest
  else
    let separator := (after.head?.map Element.leadingTrivia).getD ""
    let lists ← attributeListElements (rendered.map fun r ↦ (r, separator))
    return before ++ lists ++ after

/-- The declaration with one attribute list per attribute, as a new node marked for layout. Without
attributes it is the declaration itself. -/
def addAttributes (n : Node) (attributes : List AttributeClass) (style : NameStyle) :
    EditM Node := do
  if !Kind.isAttributable n.kind then throw (.unsupportedShape n.kind)
  if attributes.isEmpty then return n
  let children ← insertLists n (attributes.map style.render)
  let created ← Node.create n.kind children
  return { created with head.marked := true }

/-! ## Scope of the attributes -/

def attributeNamespace : String := "System"

/-- The text of a using directive brings the namespace into scope: optionally `global`, then
`using`, the name and a semicolon, with blanks between them. -/
def importsAttributeNamespace (directive : String) : Bool :=
  let text := Text.trimChars directive.toList
  let text :=
    match "global".toList.isPrefixOf? text with
    | some rest => Text.trimStartChars rest
    | none => text
  match "using".toList.isPrefixOf? text with
  | none => false
  | some rest =>
    match [';'].isSuffixOf? (Text.trimChars rest) with
    | none => false
    | some name => Text.trimChars name == attributeNamespace.toList

/-- The name that a namespace declaration enters: the text of the element behind the keyword. -/
def namespaceName? (n : Node) : Option String :=
  ((n.children.dropWhile fun e ↦ e.kind != Kind.namespaceKeyword)[1]?).map Element.trimmedText

/-- The name is that of the attributes' namespace or of a namespace below it. -/
def isWithinAttributeNamespace (name : String) : Bool :=
  name == attributeNamespace || (attributeNamespace ++ ".").toList.isPrefixOf name.toList

/-- The namespace declarations that cover a node. -/
def coveringNamespaces (root : Node) (target : NodeId) : List Node :=
  (((root.pathTo? target).getD []).filter fun n ↦ n.kind == Kind.namespaceDeclaration) ++
    root.childNodes.filter fun n ↦ n.kind == Kind.fileScopedNamespace

/-- The simple spelling resolves at the target. -/
def attributeNamespaceInScope (root : Node) (target : NodeId) : Bool :=
  (root.descendants.any fun n ↦
      n.kind == Kind.usingDirective && importsAttributeNamespace n.trimmedText) ||
    ((coveringNamespaces root target).filterMap namespaceName?).any isWithinAttributeNamespace

/-- The spelling to use for an attribute on a node of a tree. -/
def NameStylePreference.resolve (p : NameStylePreference) (root : Node) (target : NodeId) :
    NameStyle :=
  match p with
  | .simple => .simple
  | .qualified => .qualified
  | .auto => if attributeNamespaceInScope root target then .simple else .qualified

end CodeFix
