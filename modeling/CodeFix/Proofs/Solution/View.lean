import CodeFix.Proofs.Layout
import CodeFix.Proofs.ListSearch
import CodeFix.Proofs.Solution.Documents
import CodeFix.Proofs.Syntax.Sketch

/-!
# What a snapshot shows

Two computations of one edit draw different stamps, so the trees they leave are different values.
The *view* of a document is what is left when the stamps are forgotten: where the document belongs,
its version, the tokens of its tree with their trivia, and which nodes with which ids and kinds the
tree is made of. Its text and the ids of its nodes can be read off it
(`Solution.forall₂_documents_of_view_eq`).

Filing a document in a snapshot only looks at what the view shows. The view of the result is
therefore a function of the two views (`Solution.view_withDocument?`), and this carries every
statement about two runs of an edit from the documents to the snapshots.
-/

namespace CodeFix

/-! ## Filing records that are shown -/

theorem map_insertByKey {α β : Type} {key : α → Nat} (key' : β → Nat) {f : α → β}
    (hkey : ∀ x, key' (f x) = key x) (a : α) (l : List α) :
    (insertByKey key a l).map f = insertByKey key' (f a) (l.map f) := by
  induction l with
  | nil => rfl
  | cons b l ih =>
    rw [insertByKey, List.map_cons, insertByKey, hkey, hkey]
    split
    · rfl
    · split
      · rfl
      · rw [List.map_cons, ih]

/-! ## Views -/

/-- A document without the stamps of its tree. -/
structure DocumentView where
  id : DocumentId
  project : ProjectId
  path : PathName
  version : Nat
  tokens : List Token
  /-- The nodes of the tree, with their ids and kinds. -/
  shape : Node

/-- A project whose documents are seen without stamps. -/
structure ProjectView where
  id : ProjectId
  name : String
  documents : List DocumentView

/-- What a document shows. -/
def Document.view (d : Document) : DocumentView :=
  ⟨d.id, d.project, d.path, d.version, d.root.tokens, d.root.sketch Node.noLabel⟩

/-- What a project shows. -/
def Project.view (p : Project) : ProjectView := ⟨p.id, p.name, p.documents.toList.map Document.view⟩

/-- What a snapshot shows. -/
def Solution.view (s : Solution) : List ProjectView := s.projects.toList.map Project.view

namespace Document

variable {d d' : Document}

theorem text_eq_of_view_eq (h : d.view = d'.view) : d.text = d'.text := by
  rw [text, text, Node.text, Node.text]
  exact congrArg (Token.textAll ∘ DocumentView.tokens) h

theorem ids_eq_of_view_eq (h : d.view = d'.view) : d.root.ids = d'.root.ids :=
  Node.ids_eq_of_sketch_eq (congrArg DocumentView.shape h)

theorem view_layout (d : Document) (t : Supply) :
    (d.layout t).1.view =
      if d.root.hasMark then
        { d.view with
          version := d.version + 1
          tokens := d.root.laidOut (Newline.detect d.text) }
      else d.view := by
  by_cases hmark : d.root.hasMark = true
  · have hlayout : (d.layout t).1 =
        d.withRoot (Node.layout (Newline.detect d.text) ⟨t.next, []⟩ d.root) := by
      rw [layout, if_pos hmark]
      rfl
    rw [hlayout, if_pos hmark, view, withRoot_root, Node.tokens_layout, Node.sketch_layout]
    rfl
  · have hlayout : (d.layout t).1 = d := by
      rw [layout, if_neg hmark]
      rfl
    rw [hlayout, if_neg hmark]

end Document

namespace Project

theorem view_withDocument {p : Project} {x : Document} (hproject : x.project = p.id) :
    (p.withDocument x hproject).view =
      ⟨p.id, p.name,
        insertByKey (fun d ↦ d.id.value) x.view (p.documents.toList.map Document.view)⟩ :=
  congrArg (ProjectView.mk p.id p.name) <|
    map_insertByKey (fun d : DocumentView ↦ d.id.value) (fun _ ↦ rfl) x p.documents.toList

end Project

namespace Solution

variable {s s' : Solution} {x y : Document}

theorem view_documents (s : Solution) :
    s.documents.map Document.view = s.view.flatMap ProjectView.documents := by
  rw [documents, List.map_flatMap, view, List.flatMap_map]
  rfl

/-- **Equal views.** Snapshots that show the same have, one by one, documents with the same ids,
paths, versions, texts and nodes. -/
theorem forall₂_documents_of_view_eq (h : s.view = s'.view) :
    List.Forall₂ (fun d d' ↦ d.id = d'.id ∧ d.path = d'.path ∧ d.version = d'.version ∧
      d.text = d'.text ∧ d.root.ids = d'.root.ids) s.documents s'.documents := by
  have hviews : s.documents.map Document.view = s'.documents.map Document.view := by
    rw [view_documents, h, ← view_documents]
  refine (forall₂_iff_map_eq.2 hviews).imp fun d d' hview ↦ ?_
  exact ⟨congrArg DocumentView.id hview, congrArg DocumentView.path hview,
    congrArg DocumentView.version hview, Document.text_eq_of_view_eq hview,
    Document.ids_eq_of_view_eq hview⟩

theorem view_project? (s : Solution) (id : ProjectId) :
    (s.project? id).map Project.view = s.view.find? fun p ↦ p.id.value == id.value := by
  rw [project?, Roster.get?, view, List.find?_map]
  rfl

theorem view_withProject (s : Solution) (p : Project) :
    (s.withProject p).view = insertByKey (fun p ↦ p.id.value) p.view s.view :=
  map_insertByKey (fun p : ProjectView ↦ p.id.value) (fun _ ↦ rfl) p s.projects.toList

/-- **Filing a document** in a snapshot shows no more than the snapshot and the document do. -/
theorem view_withDocument? (hs : s.view = s'.view) (hx : x.view = y.view) :
    (s.withDocument? x).map view = (s'.withDocument? y).map view := by
  have hproject : x.project = y.project := congrArg DocumentView.project hx
  have hfound : (s.project? x.project).map Project.view =
      (s'.project? y.project).map Project.view := by
    rw [view_project?, view_project?, hs, hproject]
  cases hp : s.project? x.project with
  | none =>
    rw [hp] at hfound
    have hp' := Option.map_eq_none_iff.1 hfound.symm
    rw [withDocument?_eq_none hp, withDocument?_eq_none hp']
  | some p =>
    rw [hp] at hfound
    obtain ⟨p', hp', hview⟩ := Option.map_eq_some_iff.1 hfound.symm
    rw [withDocument?_eq_some hp, withDocument?_eq_some hp', Option.map_some, Option.map_some,
      view_withProject, view_withProject, hs, Project.view_withDocument,
      Project.view_withDocument, hx]
    obtain ⟨hid, hname, hdocuments⟩ := ProjectView.mk.inj hview
    rw [hid, hname, hdocuments]

end Solution

end CodeFix
