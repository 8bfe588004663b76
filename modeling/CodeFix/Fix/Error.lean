import CodeFix.Identity

/-!
# Failures of a fix

Each constructor is one cause, with what its message names. Three classes of causes matter to a
host: the snapshot moved on and the fixes should be computed again; the request could never have
worked; somebody gave up waiting.
-/

namespace CodeFix

/-- Why a fix could not be computed or applied. -/
inductive FixError where
  /-- The node to edit is not in the tree, or in any tree, where it was looked for. -/
  | nodeNotFound (node : NodeId) (location : String)
  /-- The document does not hold the tree any more that the fix was computed from. -/
  | staleSnapshot (path : String) (expected found : Nat)
  /-- No document answers to the description. -/
  | documentNotFound (description : String)
  /-- The node is of a kind that cannot carry attributes. -/
  | unsupportedShape (kind : String)
  /-- The class of the attribute cannot be referred to. -/
  | attributeUnavailable (name : String)
  /-- The computation was cancelled. -/
  | cancelled
  /-- The tree of the document did not arrive in time. -/
  | timeout (path : String)
deriving DecidableEq, Repr

namespace FixError

def message : FixError → String
  | nodeNotFound node location =>
    s!"Edit target {node} not found in {location}. Recompute fixes and retry."
  | staleSnapshot path expected found =>
    s!"{path} changed since the fix was computed (version {expected}, now {found}). " ++
      "Recompute fixes and retry."
  | documentNotFound description => s!"Document not found in solution: {description}"
  | unsupportedShape kind => s!"Node kind '{kind}' cannot carry attributes"
  | attributeUnavailable name => s!"Attribute type not available: {name}"
  | cancelled => "Fix computation cancelled"
  | timeout path => s!"Timed out fetching syntax root for {path}"

/-- The snapshot moved on since the fix was derived from it. -/
def isStale : FixError → Bool
  | nodeNotFound .. | staleSnapshot .. | documentNotFound .. => true
  | _ => false

/-- The request was at fault, not the state of the documents. -/
def isPrecondition : FixError → Bool
  | unsupportedShape .. | attributeUnavailable .. => true
  | _ => false

/-- Somebody gave up waiting. -/
def isCancelled : FixError → Bool
  | cancelled | timeout .. => true
  | _ => false

end FixError

/-- A computation that may fail and that draws identities; what it drew stays drawn if it fails. -/
abbrev EditM := EStateM FixError Supply

def EditM.ofOption {α : Type} (e : FixError) : Option α → EditM α
  | some a => pure a
  | none => throw e

end CodeFix
