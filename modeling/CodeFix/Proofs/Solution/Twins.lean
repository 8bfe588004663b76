import CodeFix.Fix.Action
import CodeFix.Proofs.Fix.TwoRuns
import CodeFix.Proofs.Identity
import CodeFix.Proofs.Solution.Documents
import CodeFix.Proofs.Syntax.Alike
import CodeFix.Proofs.Syntax.Sketch

/-!
# Snapshots that two runs leave

Two runs that edit one snapshot leave snapshots that are *twins*: they consist of the same documents
in the same places, and a document that is not the very same in both was edited by both, with trees
that are alike and whose roots were built after the runs had begun.

The last point is what a comparison with the snapshot they began with needs. A tree whose root came
later is none of the old trees, so the runs report the same documents as changed
(`Solution.Twin.changedDocuments`), although the trees they left are different values and no id is
assumed to belong to one document only.
-/

namespace CodeFix

variable {r : NodeId → NodeId → Prop} {u u' : Supply}

/-! ## Documents -/

/-- The documents differ at most in their trees, and these in stamps, and in ids as the relation
says. -/
structure Document.Alike (r : NodeId → NodeId → Prop) (d d' : Document) : Prop where
  id_eq : d.id = d'.id
  project_eq : d.project = d'.project
  path_eq : d.path = d'.path
  version_eq : d.version = d'.version
  root : d.root.Alike r d'.root

/-- Either neither run has touched the document, or both have edited it, with like results. -/
inductive Document.Twin (r : NodeId → NodeId → Prop) (u u' : Supply) : Document → Document → Prop
  | untouched (d : Document) : Twin r u u' d d
  | edited {d d' : Document} (h : d.Alike r d') (hroot : d.root.Reissued r u u' d'.root) :
      Twin r u u' d d'

theorem drawsAlike_fresh :
    DrawsAlike (u.After u') (fun s s' ↦ u.next ≤ s.edit ∧ u'.next ≤ s'.edit)
      Stamp.fresh Stamp.fresh :=
  fun _ _ ht ↦ ⟨ht, Nat.le_succ_of_le ht.1, Nat.le_succ_of_le ht.2⟩

namespace Document

variable {d d' : Document}

theorem Alike.text_eq (h : d.Alike r d') : d.text = d'.text := h.root.text_eq

theorem Alike.withRoot {root root' : Node} (h : d.Alike r d')
    (hroot : root.Reissued r u u' root') :
    (d.withRoot root).Twin r u u' (d'.withRoot root') :=
  .edited ⟨h.id_eq, h.project_eq, h.path_eq, congrArg (· + 1) h.version_eq, hroot.alike⟩ hroot

theorem Alike.refl (hr : ∀ id, r id id) (d : Document) : d.Alike r d :=
  ⟨rfl, rfl, rfl, rfl, .refl hr d.root⟩

theorem Twin.alike (hr : ∀ id, r id id) (h : d.Twin r u u' d') : d.Alike r d' := by
  cases h with
  | untouched => exact .refl hr d
  | edited h => exact h

theorem Twin.layout (hr : ∀ id, r id id) (h : d.Twin r u u' d') :
    DrawsAlike (u.After u') (fun x x' ↦ x.Twin r u u' x' ∧ x.project = d.project)
      d.layout d'.layout := by
  have halike := h.alike hr
  rw [Document.layout, Document.layout, ← halike.root.hasMark_eq, ← halike.text_eq]
  by_cases hmark : d.root.hasMark = true
  · rw [if_pos hmark, if_pos hmark]
    refine .bind drawsAlike_fresh fun s s' hs ↦ .pure ⟨halike.withRoot ?_, rfl⟩
    exact halike.root.layout_reissued hmark _ hs.1 hs.2
  · rw [if_neg hmark, if_neg hmark]
    exact .pure ⟨h, rfl⟩

theorem replaceIn_twin (hr : ∀ id, r id id) (d : Document) {root new new' : Node} {old : NodeId}
    (hold : old ∈ root.ids) (hnew : new.Reissued r u u' new') :
    RunsAlike (fun _ ↦ False) (u.After u')
      (fun x x' ↦ x.Twin r u u' x' ∧ x.project = d.project)
      (d.replaceIn root old new) (d.replaceIn root old new') := by
  rw [replaceIn, replaceIn]
  refine .bind drawsAlike_fresh.liftM fun s s' hs ↦ ?_
  rcases rel_cases (hnew.replace? hr hs.1 hs.2 old root) with ⟨hnone, -⟩ | ⟨m, m', hm, hm', h⟩
  · exact absurd hnone (Node.replace?_ne_none hold)
  · rw [hm, hm']
    exact .pure ⟨(Alike.refl hr d).withRoot h, rfl⟩

end Document

/-! ## Projects -/

/-- The projects have the same name and file the same documents. -/
structure Project.Twin (r : NodeId → NodeId → Prop) (u u' : Supply) (p p' : Project) : Prop where
  id_eq : p.id = p'.id
  name_eq : p.name = p'.name
  documents : List.Forall₂ (Document.Twin r u u') p.documents.toList p'.documents.toList

theorem forall₂_insertByKey {α β : Type} {R : α → β → Prop} {key : α → Nat} {key' : β → Nat}
    (hkey : ∀ a b, R a b → key a = key' b) {a : α} {b : β} (hab : R a b) {as : List α}
    {bs : List β} (h : List.Forall₂ R as bs) :
    List.Forall₂ R (insertByKey key a as) (insertByKey key' b bs) := by
  induction h with
  | nil => exact .cons hab .nil
  | cons hxy hrest ih =>
    rw [insertByKey, insertByKey, hkey _ _ hab, hkey _ _ hxy]
    split
    · exact .cons hab (.cons hxy hrest)
    · split
      · exact .cons hab hrest
      · exact .cons hxy ih

theorem Project.Twin.withDocument {p p' : Project} {d d' : Document} (hr : ∀ id, r id id)
    (hp : p.Twin r u u' p') (hd : d.Twin r u u' d') (h : d.project = p.id)
    (h' : d'.project = p'.id) : (p.withDocument d h).Twin r u u' (p'.withDocument d' h') :=
  ⟨hp.id_eq, hp.name_eq, forall₂_insertByKey
    (fun _ _ hxy ↦ congrArg DocumentId.value (hxy.alike hr).id_eq) hd hp.documents⟩

/-! ## Solutions -/

namespace Solution

/-- Every id and every stamp in the snapshot was drawn before the supply came to where it is. -/
def DrawnBefore (s : Solution) (u : Supply) : Prop :=
  ∀ d ∈ s.documents, ∀ n ∈ d.root.preorder, n.id.value < u.next ∧ n.head.stamp.edit < u.next

instance (s : Solution) (u : Supply) : Decidable (s.DrawnBefore u) :=
  inferInstanceAs (Decidable (∀ d ∈ s.documents, ∀ n ∈ d.root.preorder, _))

/-- The snapshots have the same projects. -/
def Twin (r : NodeId → NodeId → Prop) (u u' : Supply) (s s' : Solution) : Prop :=
  List.Forall₂ (Project.Twin r u u') s.projects.toList s'.projects.toList

theorem Twin.refl (s : Solution) : s.Twin r u u' s :=
  List.forall₂_same.2 fun _ _ ↦ ⟨rfl, rfl, List.forall₂_same.2 fun d _ ↦ .untouched d⟩

theorem project?_ne_none {s : Solution} {d : Document} (hd : d ∈ s.documents) :
    s.project? d.project ≠ none := by
  obtain ⟨p, hp, hdp⟩ := mem_documents_iff.1 hd
  rw [project?_eq_some_iff.2 ⟨hp, (p.filed d hdp).symm⟩]
  exact Option.some_ne_none p

theorem withDocument?_ne_none {s : Solution} {d : Document} (h : s.project? d.project ≠ none) :
    s.withDocument? d ≠ none := by
  obtain ⟨p, hp⟩ := Option.ne_none_iff_exists'.1 h
  rw [withDocument?_eq_some hp]
  exact Option.some_ne_none _

theorem project?_withDocument?_ne_none {s s' : Solution} {d : Document} {id : ProjectId}
    (h : s.withDocument? d = some s') (hid : s.project? id ≠ none) : s'.project? id ≠ none := by
  cases hp : s.project? d.project with
  | none =>
    rw [withDocument?_eq_none hp] at h
    cases h
  | some p =>
    rw [withDocument?_eq_some hp] at h
    cases h
    rw [project?, withProject, Roster.get?_insert]
    split
    · exact Option.some_ne_none _
    · exact hid

namespace Twin

variable {s s' base : Solution} {d d' : Document} (hr : ∀ id, r id id) (hs : s.Twin r u u' s')

section

include hs

theorem documents : List.Forall₂ (Document.Twin r u u') s.documents s'.documents :=
  List.rel_flatMap hs fun _ _ hp ↦ hp.documents

theorem project? (id : ProjectId) :
    Option.Rel (Project.Twin r u u') (s.project? id) (s'.project? id) := by
  refine rel_imp (rel_find? hs fun p p' hp ↦ ?_) fun _ _ h ↦ h.2
  exact congrArg (·.value == id.value) hp.id_eq

include hr

theorem document? (id : DocumentId) :
    Option.Rel (Document.Twin r u u') (s.document? id) (s'.document? id) := by
  refine rel_imp (rel_find? hs.documents fun d d' hd ↦ ?_) fun _ _ h ↦ h.2
  rw [(hd.alike hr).id_eq]

/-- **Filing twins** in twins gives twins. -/
theorem withDocument? (hd : d.Twin r u u' d') :
    Option.Rel (Twin r u u') (s.withDocument? d) (s'.withDocument? d') := by
  have hproject := hs.project? d.project
  rw [(hd.alike hr).project_eq] at hproject
  rcases rel_cases hproject with ⟨hp, hp'⟩ | ⟨p, p', hp, hp', hpp'⟩
  · rw [withDocument?_eq_none ((hd.alike hr).project_eq ▸ hp), withDocument?_eq_none hp']
    exact .none
  · rw [withDocument?_eq_some ((hd.alike hr).project_eq ▸ hp), withDocument?_eq_some hp']
    exact .some (forall₂_insertByKey (fun _ _ h ↦ congrArg ProjectId.value h.id_eq)
      (hpp'.withDocument hr hd _ _) hs)

end

variable (hu : base.DrawnBefore u) (hu' : base.DrawnBefore u')
include hu hu'

/-- The documents are changed or unchanged together: a tree with a later root is none of the
base. -/
theorem isChange_eq (hd : d.Twin r u u' d') : base.isChange d = base.isChange d' := by
  cases hd with
  | untouched => rfl
  | edited h hroot =>
    rw [isChange, isChange, h.id_eq]
    cases hold : base.document? d'.id with
    | none => rfl
    | some old =>
      have hmem : old ∈ base.documents := List.mem_of_find?_eq_some hold
      have hne : old.root ≠ d.root := fun heq ↦ Nat.not_lt.2 hroot.le_edit
        (heq ▸ (hu old hmem old.root old.root.mem_preorder_self).2)
      have hne' : old.root ≠ d'.root := fun heq ↦ Nat.not_lt.2 hroot.le_edit'
        (heq ▸ (hu' old hmem old.root old.root.mem_preorder_self).2)
      change (_ || old.root != d.root) = (_ || old.root != d'.root)
      rw [bne_iff_ne.2 hne, bne_iff_ne.2 hne', Bool.or_true, Bool.or_true]

include hr hs

theorem changedIds_eq : s.changedIds base = s'.changedIds base := by
  have hfilter := forall₂_filter hs.documents fun d d' ↦ isChange_eq hu hu'
  exact forall₂_iff_map_eq.1 (hfilter.imp fun _ _ h ↦ (h.2.alike hr).id_eq)

/-- **Twins report twins**: the same documents are changed, and they differ as the snapshots do. -/
theorem changedDocuments :
    List.Forall₂ (Document.Twin r u u') (s.changedDocuments base) (s'.changedDocuments base) := by
  rw [Solution.changedDocuments, Solution.changedDocuments, changedIds_eq hr hs hu hu']
  have hids : List.Forall₂ Eq (s'.changedIds base) (s'.changedIds base) :=
    List.forall₂_same.2 fun _ _ ↦ rfl
  refine List.rel_filterMap ?_ hids
  rintro id _ rfl
  exact hs.document? hr id

end Twin

theorem replaceNode_twin (hr : ∀ id, r id id) {s : Solution} {d : Document} {root new new' : Node}
    {old : NodeId} (howner : s.documentOwning? old = some d) (hold : old ∈ root.ids)
    (hnew : new.Reissued r u u' new') :
    RunsAlike (fun _ ↦ False) (u.After u') (Twin r u u') (s.replaceNode root old new)
      (s.replaceNode root old new') := by
  have hd : d ∈ s.documents := List.mem_of_find?_eq_some howner
  rw [replaceNode, replaceNode, howner]
  refine .bind_of_ok (fun _ ↦ rfl) ?_
  refine .bind (Document.replaceIn_twin hr d hold hnew) fun x x' hx ↦ ?_
  have hproject : s.project? x.project ≠ none := hx.2 ▸ project?_ne_none hd
  exact .ofOption ((Twin.refl s).withDocument? hr hx.1)
    fun hnone ↦ withDocument?_ne_none hproject hnone

end Solution

end CodeFix
