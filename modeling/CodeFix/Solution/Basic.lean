import CodeFix.Path
import CodeFix.Roster
import CodeFix.Syntax.Lookup
import CodeFix.Syntax.Text
import CodeFix.Text.Offset

/-!
# Documents, projects and solutions

A document is one version of a source file: its identity, the project it belongs to, its path, its
tree and a version number. Giving it another tree is the only change there is, and it counts the
version up even when the tree is the same, so that a reader can tell that somebody wrote.

A solution is a snapshot of all documents an edit may see. Projects and documents are filed by id,
so their order is the order of creation, whatever was updated since. Updating a document gives a new
snapshot in which every other document is the same value as before.

A document is looked up by id, by path or by a node of its tree; each look-up answers the first
document, in that order, that fits.
-/

namespace CodeFix

/-- One version of a source file. -/
structure Document where
  id : DocumentId
  project : ProjectId
  path : PathName
  root : Node
  version : Nat
deriving DecidableEq

namespace Document

def create (id : DocumentId) (project : ProjectId) (path : PathName) (root : Node) : Document :=
  ⟨id, project, path, root, 0⟩

def text (d : Document) : String := d.root.text

/-- The next version of the document, with another tree. -/
def withRoot (d : Document) (root : Node) : Document :=
  { d with root := root, version := d.version + 1 }

/-- Byte offset of a line and column counted from one. -/
def offsetAt? (d : Document) (line column : Nat) : Option Nat :=
  Text.offsetAt? d.text line column

/-- Line and column of a byte offset, counted from one. -/
def positionOf? (d : Document) (offset : Nat) : Option (Nat × Nat) :=
  Text.positionOf? d.text offset

@[simp] theorem withRoot_id (d : Document) (root : Node) : (d.withRoot root).id = d.id := rfl

@[simp] theorem withRoot_project (d : Document) (root : Node) :
    (d.withRoot root).project = d.project := rfl

@[simp] theorem withRoot_path (d : Document) (root : Node) : (d.withRoot root).path = d.path := rfl

@[simp] theorem withRoot_root (d : Document) (root : Node) : (d.withRoot root).root = root := rfl

@[simp] theorem withRoot_version (d : Document) (root : Node) :
    (d.withRoot root).version = d.version + 1 := rfl

end Document

/-! ## Projects -/

/-- A named set of documents. -/
structure Project where
  id : ProjectId
  name : String
  documents : Roster Document (·.id.value)
  /-- A document is filed in the project that it names. -/
  filed : ∀ d ∈ documents.toList, d.project = id

namespace Project

/-- A project without documents and with an identity of its own. -/
def create (name : String) : StateM Supply Project := do
  return ⟨⟨← Supply.draw⟩, name, .empty, by simp⟩

/-- Files a document that names the project, in place of its earlier version. -/
def withDocument (p : Project) (d : Document) (h : d.project = p.id) : Project where
  id := p.id
  name := p.name
  documents := p.documents.insert d
  filed x hx := by
    rcases Roster.mem_insert.1 hx with rfl | ⟨hx, _⟩
    · exact h
    · exact p.filed x hx

/-- Files a new document under an identity of its own. -/
def addDocument (p : Project) (path : PathName) (root : Node) :
    StateM Supply (Project × Document) := do
  let d := Document.create ⟨← Supply.draw⟩ p.id path root
  return (p.withDocument d rfl, d)

end Project

/-- A snapshot of all documents that an edit may see. -/
structure Solution where
  projects : Roster Project (·.id.value)

namespace Solution

def empty : Solution := ⟨.empty⟩

/-- Files a project, in place of its earlier version. -/
def withProject (s : Solution) (p : Project) : Solution := ⟨s.projects.insert p⟩

/-- The project with an id. -/
def project? (s : Solution) (id : ProjectId) : Option Project := s.projects.get? id.value

/-- All documents, by project and then by document in the order of creation. -/
def documents (s : Solution) : List Document :=
  s.projects.toList.flatMap fun p ↦ p.documents.toList

/-- The document with an id. -/
def document? (s : Solution) (id : DocumentId) : Option Document :=
  s.documents.find? fun d ↦ d.id == id

/-- The document whose path has the same steps. -/
def documentAt? (s : Solution) (path : PathName) : Option Document :=
  s.documents.find? fun d ↦ d.path.same path

/-- The document whose tree holds a node with the id. -/
def documentOwning? (s : Solution) (id : NodeId) : Option Document :=
  s.documents.find? fun d ↦ d.root.contains id

theorem project?_eq_some_iff {s : Solution} {id : ProjectId} {p : Project} :
    s.project? id = some p ↔ p ∈ s.projects.toList ∧ p.id = id := by
  rw [project?, Roster.get?_eq_some_iff]
  refine and_congr_right fun _ ↦ ⟨fun h ↦ ?_, fun h ↦ by rw [h]⟩
  cases hp : p.id
  cases id
  simp_all

/-- The snapshot with one document updated; nothing if the document's project is not part of it. -/
def withDocument? (s : Solution) (d : Document) : Option Solution :=
  match h : s.project? d.project with
  | none => none
  | some p => some (s.withProject (p.withDocument d (project?_eq_some_iff.1 h).2.symm))

/-- The document is unknown to the base, or differs from it in version or tree. -/
def isChange (base : Solution) (d : Document) : Bool :=
  match base.document? d.id with
  | none => true
  | some old => old.version != d.version || old.root != d.root

/-- The ids of the documents that differ from the same document of a base. -/
def changedIds (s base : Solution) : List DocumentId :=
  (s.documents.filter base.isChange).map Document.id

/-- The documents that differ from the same document of a base. -/
def changedDocuments (s base : Solution) : List Document :=
  (s.changedIds base).filterMap s.document?

end Solution

end CodeFix
