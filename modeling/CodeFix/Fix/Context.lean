import CodeFix.Diagnostic
import CodeFix.Fix.Action
import CodeFix.Semantic.Model
import CodeFix.Syntax.Text

/-!
# The context of a fix and who offers fixes

Fixes are computed for one diagnostic in one snapshot. Apart from the snapshot they consult a
semantic model and a host that serves the trees of documents. A host may answer at once or after a
while, or never, and the computation may be cancelled while it is being asked; what it does is part
of the context as a value, so every behaviour of a host can be quantified over.

`FixM` computations carry the supply of identities and the cancellation flag. A flag that was raised
stays raised.

A provider offers actions for the diagnostics of the rules that it names. The service asks every
provider that names the rule of a diagnostic, in the order of registration, and strings their
actions together. A failure of one provider is reported only if no provider had anything to offer.
-/

namespace CodeFix

/-! ## Hosts -/

/-- When and what a host answers. -/
inductive HostAnswer where
  /-- The answer is there as soon as the host is asked. -/
  | atOnce (result : Except FixError Node)
  /-- The answer comes after a while, before the time limit. -/
  | later (result : Except FixError Node)
  /-- No answer comes before the time limit. -/
  | never

/-- What happens when a host is asked for the tree of a document. -/
structure HostReply where
  answer : HostAnswer
  /-- The computation is cancelled while the host is being asked. -/
  cancels : Bool

/-- Serves trees of documents. -/
abbrev DocumentHost := Document → HostReply

/-- Serves each document the tree that it has in the snapshot. -/
def snapshotHost : DocumentHost := fun d ↦ ⟨.later (.ok d.root), false⟩

/-! ## Contexts -/

/-- Everything a fix may consult. -/
structure FixContext where
  solution : Solution
  documentId : DocumentId
  /-- The innermost node at the position of the diagnostic. -/
  node : Node
  diagnostic : Diagnostic
  semantic : SemanticModel
  host : DocumentHost

namespace FixContext

/-- Locates the node that a diagnostic flags. -/
def atDiagnostic (solution : Solution) (diagnostic : Diagnostic) (semantic : SemanticModel)
    (host : DocumentHost) : Except FixError FixContext :=
  let path := diagnostic.file.text
  match solution.documentAt? diagnostic.file with
  | none => .error (.documentNotFound path)
  | some d =>
    match d.offsetAt? diagnostic.line diagnostic.column with
    | none => .error (.documentNotFound s!"{path}:{diagnostic.line}:{diagnostic.column}")
    | some offset =>
      .ok ⟨solution, d.id, (d.root.covering? offset).getD d.root, diagnostic, semantic, host⟩

/-- The document that the diagnostic was reported in. -/
def document (ctx : FixContext) : Except FixError Document :=
  match ctx.solution.document? ctx.documentId with
  | some d => .ok d
  | none => .error (.documentNotFound (toString ctx.documentId))

end FixContext

/-! ## Computations that can be cancelled -/

/-- What a running computation of fixes carries along. -/
structure FixState where
  supply : Supply
  /-- Somebody cancelled the computation. -/
  cancelled : Bool

/-- A computation of fixes. -/
abbrev FixM := EStateM FixError FixState

namespace FixM

/-- An edit does not look at the cancellation flag. -/
def ofEdit {α : Type} (x : EditM α) : FixM α := fun s ↦
  match x s.supply with
  | .ok a supply => .ok a { s with supply }
  | .error e supply => .error e { s with supply }

instance : MonadLift EditM FixM := ⟨ofEdit⟩

def ofExcept {α : Type} : Except FixError α → FixM α
  | .ok a => pure a
  | .error e => throw e

/-- The outcome of a computation, as a value. -/
def outcome {α : Type} (x : FixM α) : FixM (Except FixError α) := fun s ↦
  match x s with
  | .ok a s' => .ok (.ok a) s'
  | .error e s' => .ok (.error e) s'

def checkCancelled : FixM Unit := do
  if (← get).cancelled then throw .cancelled

end FixM

/-- Asks the host for the tree of a document. A cancellation wins over an answer that is not there
yet, and the time limit ends the waiting for an answer that never comes. -/
def FixContext.fetchRoot (ctx : FixContext) (d : Document) : FixM Node := do
  FixM.checkCancelled
  let reply := ctx.host d
  modify fun s ↦ { s with cancelled := s.cancelled || reply.cancels }
  match reply.answer with
  | .atOnce result => FixM.ofExcept result
  | .later result => do
    FixM.checkCancelled
    FixM.ofExcept result
  | .never => do
    FixM.checkCancelled
    throw (.timeout d.path.text)

/-! ## Providers -/

/-- Offers actions for the diagnostics of some rules. -/
structure FixProvider where
  name : String
  /-- The rules whose diagnostics the provider can fix. -/
  ruleIds : List String
  fixes : FixContext → FixM (List CodeAction)

/-- A provider and the rules it handles. -/
structure RuleInfo where
  provider : String
  ruleIds : List String
deriving DecidableEq, Repr

/-- The first of some failures, unless an action was found. -/
def settleActions (actions : List CodeAction) (firstError : Option FixError) :
    FixM (List CodeAction) :=
  match actions, firstError with
  | [], some e => throw e
  | actions, _ => pure actions

/-- The registered providers, in the order of registration. -/
structure FixService where
  providers : List FixProvider

namespace FixService

def rules (s : FixService) : List RuleInfo :=
  s.providers.map fun p ↦ ⟨p.name, p.ruleIds⟩

/-- The providers that handle a rule. -/
def providersFor (s : FixService) (ruleId : String) : List FixProvider :=
  s.providers.filter fun p ↦ p.ruleIds.contains ruleId

/-- The actions of some providers, and the first failure among them. -/
def collect (ctx : FixContext) : List FixProvider → FixM (List CodeAction × Option FixError)
  | [] => return ([], none)
  | p :: ps => do
    let here ← FixM.outcome (p.fixes ctx)
    let (actions, firstError) ← collect ctx ps
    match here with
    | .ok found => return (found ++ actions, firstError)
    | .error e => return (actions, some e)

/-- The actions of all providers that handle the rule of the diagnostic. -/
def fixesFor (s : FixService) (ctx : FixContext) : FixM (List CodeAction) := do
  let (actions, firstError) ← collect ctx (s.providersFor ctx.diagnostic.id)
  settleActions actions firstError

end FixService

end CodeFix
