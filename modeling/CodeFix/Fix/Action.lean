import CodeFix.Fix.Error
import CodeFix.Layout
import CodeFix.Solution.Basic
import CodeFix.Text.Quoted

/-!
# Edits and actions

The edit of a document replaces one node of its tree. The edit of a solution finds the document that
owns the node and replaces the node in a given tree of that document, which need not be the tree of
the snapshot; all other documents are carried over.

A code action offers a change of the snapshot it was derived from. What it changes is computed only
when somebody asks, and anew each time: the producer runs, and the documents it touched are laid
out.

An action is applied to a solution that may have moved on. Every document that the action touches
must still hold the very tree that it had in the base; then the computed documents replace them all,
and otherwise nothing is replaced. Version numbers cannot decide this, because two snapshots derived
from one base use the same numbers for different trees.
-/

namespace CodeFix

/-- The next version of the document, whose tree is `root` with one node replaced. -/
def Document.replaceIn (d : Document) (root : Node) (old : NodeId) (new : Node) :
    EditM Document := do
  let stamp ← Stamp.fresh
  match Node.replace? stamp old new root with
  | some root' => return d.withRoot root'
  | none => throw (.nodeNotFound old d.path.text)

/-- The next version of the document, with one node of its tree replaced. -/
def Document.replaceNode (d : Document) (old : NodeId) (new : Node) : EditM Document :=
  d.replaceIn d.root old new

/-- The solution in which the document owning a node holds `root` with that node replaced. -/
def Solution.replaceNode (s : Solution) (root : Node) (old : NodeId) (new : Node) :
    EditM Solution := do
  let d ← EditM.ofOption (.nodeNotFound old "solution") (s.documentOwning? old)
  let updated ← d.replaceIn root old new
  EditM.ofOption (.documentNotFound d.path.text) (s.withDocument? updated)

/-! ## Actions -/

/-- What an action computes. -/
inductive Payload where
  /-- A new version of one document. -/
  | document (d : Document)
  /-- A new snapshot. -/
  | solution (s : Solution)

/-- A titled change of a snapshot, computed on demand. -/
structure CodeAction where
  title : String
  /-- Names the kind of change, the same for all places where it is offered. -/
  equivalenceKey : String
  /-- The snapshot that the change was derived from. -/
  base : Solution
  producer : EditM Payload

namespace CodeAction

/-- What is known of an action without computing it, in one line. -/
def summary (a : CodeAction) : String :=
  "CodeAction \x7b title: " ++ Text.quote a.title ++ ", equivalence_key: " ++
    Text.quote a.equivalenceKey ++ ", .. \x7d"

/-- Lays out the documents with the given ids, one after another. -/
def layoutDocuments (produced : Solution) : List DocumentId → Solution → EditM Solution
  | [], s => return s
  | id :: ids, s =>
    match produced.document? id with
    | none => layoutDocuments produced ids s
    | some d => do
      let laidOut ← d.layout
      let s' ← EditM.ofOption (.documentNotFound (toString id)) (s.withDocument? laidOut)
      layoutDocuments produced ids s'

/-- The payload, with the documents it touches laid out. -/
def compute (a : CodeAction) : EditM Payload := do
  match ← a.producer with
  | .document d => return .document (← d.layout)
  | .solution s => return .solution (← layoutDocuments s (s.changedIds a.base) s)

/-- The base with the payload put in. -/
def changedSolution (a : CodeAction) : EditM Solution := do
  match ← a.compute with
  | .solution s => return s
  | .document d => EditM.ofOption (.documentNotFound d.path.text) (a.base.withDocument? d)

/-- The documents that the action touches, as it leaves them. -/
def changedDocuments (a : CodeAction) : EditM (List Document) := do
  let changed ← a.changedSolution
  return changed.changedDocuments a.base

/-- Why a document must not be put into the current solution, if there is a reason: it is not there,
or it holds another tree than in the base. -/
def obstacle? (a : CodeAction) (current : Solution) (d : Document) : Option FixError :=
  match current.document? d.id with
  | none => some (.documentNotFound d.path.text)
  | some found =>
    match a.base.document? d.id with
    | none => none
    | some base =>
      if base.root = found.root then none
      else some (.staleSnapshot d.path.text base.version found.version)

/-- Puts documents into a solution one after another, unless one of them meets an obstacle in the
current solution. -/
def putDocuments (a : CodeAction) (current : Solution) :
    List Document → Solution → Except FixError Solution
  | [], result => .ok result
  | d :: ds, result =>
    match a.obstacle? current d with
    | some e => .error e
    | none =>
      match result.withDocument? d with
      | none => .error (.documentNotFound d.path.text)
      | some result' => putDocuments a current ds result'

/-- The current solution with the touched documents replaced, all of them or none. -/
def apply (a : CodeAction) (current : Solution) : EditM Solution := do
  let changed ← a.changedDocuments
  match a.putDocuments current changed current with
  | .ok result => return result
  | .error e => throw e

end CodeAction

end CodeFix
