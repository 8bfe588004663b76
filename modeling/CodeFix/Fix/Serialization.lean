import CodeFix.Attribute.Insert
import CodeFix.Fix.Context

/-!
# Fields that cannot be serialized (rule CA2235)

A field of a serializable type whose own type is not serializable can be mended in two ways: the
field is excluded with `NonSerialized`, or its type, if a document declares it, is marked
`Serializable`. The two candidates are computed independently. The first one edits the document of
the diagnostic. The second one edits the first declaration of the type, wherever it stands, in the
tree that the host serves for its document.
-/

namespace CodeFix

/-- Finds the declaration that a flagged node belongs to, in a tree. -/
abbrev FieldExtractor := Node → Node → Option Node

/-- The nearest field declaration around a node, the node included. -/
def enclosingField : FieldExtractor := fun root node ↦
  (root.pathTo? node.id).bind fun path ↦
    path.reverse.find? fun n ↦ n.kind == Kind.fieldDeclaration

namespace Serialization

/-- The rule that the provider handles. -/
def rule : String := "CA2235"

/-- A fix that the provider can offer: its title, its key and the attribute that it adds. -/
structure Offer where
  title : String
  key : String
  added : WellKnownAttribute
deriving DecidableEq, Repr

def excludeField : Offer :=
  ⟨"Add NonSerialized attribute", "AddNonSerializedAttribute", .nonSerialized⟩

def markType : Offer :=
  ⟨"Add Serializable attribute", "AddSerializableAttribute", .serializable⟩

/-- The class of the attribute that an offer adds. -/
def Offer.attributeClass (o : Offer) (ctx : FixContext) : Except FixError AttributeClass :=
  match ctx.semantic.attributeClass o.added with
  | some c => .ok c
  | none => .error (.attributeUnavailable o.added.metadataName)

/-- The action that excludes a field of a document. -/
def excludeFieldAction (preference : NameStylePreference) (ctx : FixContext) (d : Document)
    (field : Node) : FixM CodeAction := do
  if !d.root.contains field.id then throw (.nodeNotFound field.id d.path.text)
  let cls ← FixM.ofExcept (excludeField.attributeClass ctx)
  let updated ← addAttributes field [cls] (preference.resolve d.root field.id)
  return {
    title := excludeField.title
    equivalenceKey := excludeField.key
    base := ctx.solution
    producer := return .document (← d.replaceNode field.id updated) }

/-- The type of the flagged field, if a document declares it and it has not got the attribute. -/
def typeToMark? (ctx : FixContext) : Option Symbol := do
  let field ← ctx.semantic.declaredSymbol ctx.node
  let type ← ctx.semantic.fieldType field
  if type.locations.any ctx.semantic.isInSource && !type.hasAttribute "Serializable" then
    return type
  none

/-- The action that marks the first declaration of the field's type, if there is one to mark. -/
def markTypeAction? (preference : NameStylePreference) (ctx : FixContext) :
    FixM (Option CodeAction) := do
  let some reference := (typeToMark? ctx).bind fun type ↦
      (ctx.semantic.declaringReferences type).head?
    | return none
  let id := reference.node.id
  let d ← EditM.ofOption (.nodeNotFound id "solution") (ctx.solution.documentOwning? id)
  let root ← ctx.fetchRoot d
  let declaration ← EditM.ofOption (.nodeNotFound id d.path.text) (root.find? id)
  let cls ← FixM.ofExcept (markType.attributeClass ctx)
  let updated ← addAttributes declaration [cls] (preference.resolve root id)
  return some {
    title := markType.title
    equivalenceKey := markType.key
    base := ctx.solution
    producer := return .solution (← ctx.solution.replaceNode root id updated) }

/-- What the two candidates for a field offer. A candidate that fails does not take the other one
with it; only if nothing is left to offer, the first failure counts. -/
def candidates (preference : NameStylePreference) (ctx : FixContext) (d : Document)
    (field : Node) : FixM (List CodeAction) := do
  let first ← FixM.outcome (excludeFieldAction preference ctx d field)
  let second ← FixM.outcome (markTypeAction? preference ctx)
  match first, second with
  | .ok a, .ok b => return a :: b.toList
  | .ok a, .error _ => return [a]
  | .error e, .ok b => settleActions b.toList (some e)
  | .error e, .error _ => throw e

/-- The offers that a context admits. -/
def fixes (preference : NameStylePreference) (extract : FieldExtractor) (ctx : FixContext) :
    FixM (List CodeAction) := do
  FixM.checkCancelled
  let d ← FixM.ofExcept ctx.document
  match extract d.root ctx.node with
  | none => return []
  | some field => candidates preference ctx d field

/-- The provider of the two fixes. -/
def provider (preference : NameStylePreference) (extract : FieldExtractor) : FixProvider where
  name := "mark-serializable"
  ruleIds := [rule]
  fixes := fixes preference extract

end Serialization

/-- The service with every provider of this library. -/
def FixService.builtIn (preference : NameStylePreference) : FixService :=
  ⟨[Serialization.provider preference enclosingField]⟩

end CodeFix
