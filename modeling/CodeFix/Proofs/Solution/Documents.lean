import CodeFix.Proofs.ListSearch
import CodeFix.Proofs.Syntax.Preorder
import CodeFix.Solution.Basic

/-!
# The documents of a solution as a list

Everything a solution answers is read off the list of its documents, so what an update does is said
by one equation on that list: the document with the same id is exchanged in its place, and no
document is added, dropped or moved (`documents_withDocument?`).

The equation needs that an id belongs to one document. The type of solutions does not say so: a
project knows only its own documents, and two projects could file one id twice. It is equivalent to
say that an id belongs to one project (`distinctDocuments_iff`), since documents are filed in the
project that they name.

Ids are drawn from a supply, so no two documents of a snapshot share one and no two nodes of its
trees do (`Solution.Distinct`). In such a snapshot an id means one thing: the document that owns a
node is the document whose tree holds it, whatever is asked first.
-/

namespace CodeFix

theorem insertByKey_eq_map {α : Type} {key : α → Nat} {a : α} :
    ∀ {bs : List α}, bs.Pairwise (key · < key ·) → (∃ b ∈ bs, key b = key a) →
      insertByKey key a bs = bs.map fun b ↦ if key b = key a then a else b
  | [], _, h => by simp at h
  | b :: bs, hsorted, ⟨c, hc, hkey⟩ => by
    obtain ⟨hb, hbs⟩ := List.pairwise_cons.1 hsorted
    have hle : key b ≤ key a := by
      rcases List.mem_cons.1 hc with rfl | hc
      · exact Nat.le_of_eq hkey
      · exact hkey ▸ Nat.le_of_lt (hb c hc)
    rw [insertByKey, if_neg (by omega), List.map_cons]
    by_cases heq : key a = key b
    · rw [if_pos heq, if_pos heq.symm]
      congr 1
      -- behind the key that is taken, all keys are larger
      refine (List.map_id bs).symm.trans (List.map_congr_left fun x hx ↦ (if_neg ?_).symm)
      have := hb x hx
      omega
    · rw [if_neg heq, if_neg (Ne.symm heq)]
      have hc' : c ∈ bs := by
        rcases List.mem_cons.1 hc with rfl | hc
        · exact absurd hkey.symm heq
        · exact hc
      rw [insertByKey_eq_map hbs ⟨c, hc', hkey⟩]

theorem insertByKey_insertByKey {α : Type} (key : α → Nat) {a b : α} (h : key a = key b)
    (l : List α) : insertByKey key b (insertByKey key a l) = insertByKey key b l := by
  induction l with
  | nil => simp [insertByKey, h]
  | cons c l ih =>
    rw [insertByKey, insertByKey, ← h]
    split
    · rw [insertByKey, if_neg (by omega), if_pos h.symm]
    · split
      · rw [insertByKey, if_neg (by omega), if_pos h.symm]
      · rw [insertByKey, if_neg (by omega), if_neg (by omega), ih]

/-! ## New versions of documents -/

namespace Document

/-- The version of a document among some new ones; the document itself if none of them has its
id. -/
def updatedBy (d : Document) (new : List Document) : Document :=
  (new.find? fun n ↦ n.id == d.id).getD d

@[simp] theorem updatedBy_nil (d : Document) : d.updatedBy [] = d := rfl

theorem updatedBy_cons (d n : Document) (ns : List Document) :
    d.updatedBy (n :: ns) = if n.id = d.id then n else d.updatedBy ns := by
  rw [updatedBy, List.find?_cons]
  by_cases h : n.id = d.id
  · simp [h]
  · have hfalse : (n.id == d.id) = false := by simpa using h
    rw [hfalse, if_neg h, updatedBy]

theorem updatedBy_of_not_mem {d : Document} {new : List Document}
    (h : ∀ n ∈ new, n.id ≠ d.id) : d.updatedBy new = d := by
  rw [updatedBy, find?_key_eq_none_iff.2 h, Option.getD_none]

theorem updatedBy_of_mem {d n : Document} {new : List Document}
    (hnew : (new.map Document.id).Nodup) (hn : n ∈ new) (hid : n.id = d.id) :
    d.updatedBy new = n := by
  rw [updatedBy, (find?_key_eq_some_iff hnew).2 ⟨hn, hid⟩, Option.getD_some]

theorem updatedBy_cons_eq {d n : Document} {ns : List Document} (h : ∀ m ∈ ns, m.id ≠ n.id) :
    d.updatedBy (n :: ns) = (d.updatedBy [n]).updatedBy ns := by
  rw [updatedBy_cons, updatedBy_cons, updatedBy_nil]
  split
  · exact (updatedBy_of_not_mem h).symm
  · rfl

theorem updatedBy_updatedBy_of_id_eq {d m n : Document} (h : m.id = n.id) :
    (d.updatedBy [m]).updatedBy [n] = d.updatedBy [n] := by
  rw [updatedBy_cons d m, updatedBy_nil, updatedBy_cons d n, h]
  split
  · rw [updatedBy_cons, if_pos h.symm]
  · next hne => rw [updatedBy_cons, if_neg hne]

@[simp] theorem updatedBy_id (d : Document) (new : List Document) :
    (d.updatedBy new).id = d.id := by
  induction new with
  | nil => rfl
  | cons n ns ih =>
    rw [updatedBy_cons]
    split
    · assumption
    · exact ih

end Document

namespace Solution

variable {s : Solution} {b d : Document}

theorem mem_documents_iff {d : Document} :
    d ∈ s.documents ↔ ∃ p ∈ s.projects.toList, d ∈ p.documents.toList :=
  List.mem_flatMap

/-- No two documents of the solution share an id. -/
def DistinctDocuments (s : Solution) : Prop := (s.documents.map Document.id).Nodup

instance : Decidable s.DistinctDocuments := inferInstanceAs (Decidable (List.Nodup _))

theorem document?_eq_some_iff (hs : s.DistinctDocuments) {id : DocumentId} :
    s.document? id = some d ↔ d ∈ s.documents ∧ d.id = id :=
  find?_key_eq_some_iff hs

theorem document?_eq_none_iff {id : DocumentId} :
    s.document? id = none ↔ ∀ d ∈ s.documents, d.id ≠ id :=
  find?_key_eq_none_iff

theorem document?_of_mem (hs : s.DistinctDocuments) (hd : d ∈ s.documents) :
    s.document? d.id = some d :=
  (document?_eq_some_iff hs).2 ⟨hd, rfl⟩

theorem eq_of_id_eq (hs : s.DistinctDocuments) (hb : b ∈ s.documents) (hd : d ∈ s.documents)
    (h : b.id = d.id) : b = d :=
  List.inj_on_of_nodup_map hs hb hd h

/-! ## One id, one project -/

theorem pairwise_documents (s : Solution) :
    s.documents.Pairwise fun x y ↦
      x.project.value < y.project.value ∨ x.project = y.project ∧ x.id.value < y.id.value := by
  rw [documents, List.pairwise_flatMap]
  constructor
  · intro p _
    refine (List.Pairwise.and_mem.1 p.documents.increasing).imp ?_
    rintro x y ⟨hx, hy, hlt⟩
    exact Or.inr ⟨(p.filed x hx).trans (p.filed y hy).symm, hlt⟩
  · refine s.projects.increasing.imp ?_
    intro p q hpq x hx y hy
    rw [p.filed x hx, q.filed y hy]
    exact Or.inl hpq

theorem distinctDocuments_iff :
    s.DistinctDocuments ↔
      ∀ x ∈ s.documents, ∀ y ∈ s.documents, x.id = y.id → x.project = y.project := by
  constructor
  · intro hs x hx y hy hid
    rw [eq_of_id_eq hs hx hy hid]
  · intro h
    refine List.pairwise_map.2 ((List.Pairwise.and_mem.1 s.pairwise_documents).imp ?_)
    rintro x y ⟨hx, hy, hlt⟩ hid
    have hproject := h x hx y hy hid
    rw [hproject, hid] at hlt
    omega

/-- Wherever the two snapshots have a document in common, they file it in the same project. -/
def SameProjects (s s' : Solution) : Prop :=
  ∀ x ∈ s.documents, ∀ y ∈ s'.documents, x.id = y.id → x.project = y.project

instance {s' : Solution} : Decidable (s.SameProjects s') :=
  inferInstanceAs (Decidable (∀ x ∈ s.documents, ∀ y ∈ s'.documents, _))

theorem sameProjects_self (hs : s.DistinctDocuments) : s.SameProjects s :=
  distinctDocuments_iff.1 hs

/-- The solution has a version of the document. -/
def Knows (s : Solution) (d : Document) : Prop :=
  ∃ b ∈ s.documents, b.id = d.id ∧ b.project = d.project

theorem knows_of_mem (hd : d ∈ s.documents) : s.Knows d := ⟨d, hd, rfl, rfl⟩

/-- A solution that has nothing but versions of another one's documents has each of them once. -/
theorem distinctDocuments_of_knows {base : Solution} (hbase : base.DistinctDocuments)
    (h : ∀ d ∈ s.documents, base.Knows d) : s.DistinctDocuments := by
  refine distinctDocuments_iff.2 fun x hx y hy hid ↦ ?_
  obtain ⟨b, hb, hbid, hbproject⟩ := h x hx
  obtain ⟨c, hc, hcid, hcproject⟩ := h y hy
  have hbc : b = c := eq_of_id_eq hbase hb hc (hbid.trans (hid.trans hcid.symm))
  rw [← hbproject, ← hcproject, hbc]

/-! ## Updating a document -/

theorem withDocument?_eq_some {p : Project} (h : s.project? d.project = some p) :
    s.withDocument? d =
      some (s.withProject (p.withDocument d (project?_eq_some_iff.1 h).2.symm)) := by
  rw [withDocument?]
  split
  · next hnone => rw [h] at hnone; cases hnone
  · next q hq => rw [h] at hq; cases hq; rfl

theorem withDocument?_eq_none (h : s.project? d.project = none) : s.withDocument? d = none := by
  rw [withDocument?]
  split
  · rfl
  · next q hq => rw [h] at hq; cases hq

theorem mem_documents_withProject {p : Project} (h : d ∈ (s.withProject p).documents) :
    d ∈ p.documents.toList ∨ d ∈ s.documents := by
  obtain ⟨q, hq, hd⟩ := mem_documents_iff.1 h
  rcases Roster.mem_insert.1 hq with rfl | ⟨hq, -⟩
  · exact Or.inl hd
  · exact Or.inr (mem_documents_iff.2 ⟨q, hq, hd⟩)

theorem mem_documents_withDocument? {s' : Solution} {x : Document}
    (h : s.withDocument? d = some s') (hx : x ∈ s'.documents) : x = d ∨ x ∈ s.documents := by
  cases hp : s.project? d.project with
  | none => rw [withDocument?_eq_none hp] at h; cases h
  | some p =>
    rw [withDocument?_eq_some hp] at h
    cases h
    rcases mem_documents_withProject hx with hx | hx
    · refine (Roster.mem_insert.1 hx).imp id fun hold ↦ ?_
      exact mem_documents_iff.2 ⟨p, (project?_eq_some_iff.1 hp).1, hold.1⟩
    · exact Or.inr hx

theorem withProject_withProject {p q : Project} (hid : p.id = q.id) (s : Solution) :
    (s.withProject p).withProject q = s.withProject q := by
  simp only [withProject, mk.injEq, Roster.insert, Roster.mk.injEq]
  exact insertByKey_insertByKey (fun p : Project ↦ p.id.value) (by rw [hid]) _

theorem withDocument?_withDocument? {s' : Solution} (hid : b.id = d.id)
    (hproject : b.project = d.project) (h : s.withDocument? b = some s') :
    s'.withDocument? d = s.withDocument? d := by
  cases hp : s.project? b.project with
  | none => rw [withDocument?_eq_none hp] at h; cases h
  | some p =>
    have hpid := (project?_eq_some_iff.1 hp).2
    have hfound : s'.project? d.project = some (p.withDocument b hpid.symm) := by
      rw [withDocument?_eq_some hp] at h
      cases h
      rw [← hproject, project?, withProject, Roster.get?_insert]
      exact if_pos (congrArg ProjectId.value hpid)
    have hagain : (p.withDocument b hpid.symm).withDocument d (hproject ▸ hpid.symm) =
        p.withDocument d (hproject ▸ hpid.symm) := by
      simp only [Project.withDocument, Project.mk.injEq, Roster.insert, Roster.mk.injEq,
        true_and]
      exact insertByKey_insertByKey (fun d : Document ↦ d.id.value) (by rw [hid]) _
    rw [withDocument?_eq_some hfound, hagain, withDocument?_eq_some (hproject ▸ hp)]
    rw [withDocument?_eq_some hp] at h
    cases h
    have hsame : (p.withDocument b hpid.symm).id =
        (p.withDocument d (hproject ▸ hpid.symm)).id := rfl
    rw [withProject_withProject hsame]

private theorem documents_withDocument {p : Project} (hproject : d.project = p.id)
    (hb : b ∈ p.documents.toList) (hid : b.id = d.id) :
    (p.withDocument d hproject).documents.toList =
      p.documents.toList.map fun x ↦ x.updatedBy [d] := by
  have htaken : ∃ x ∈ p.documents.toList, x.id.value = d.id.value := ⟨b, hb, by rw [hid]⟩
  rw [Project.withDocument, Roster.toList_insert,
    insertByKey_eq_map p.documents.increasing htaken]
  refine List.map_congr_left fun x _ ↦ ?_
  rw [Document.updatedBy_cons, Document.updatedBy_nil]
  refine if_congr ⟨fun h ↦ ?_, fun h ↦ by rw [h]⟩ rfl rfl
  cases hx : x.id
  cases hd : d.id
  simp_all

/-- **Updating a document.** The document with the same id is exchanged in its place; all others
stay what and where they were. -/
theorem documents_withDocument? (hs : s.DistinctDocuments) (hb : b ∈ s.documents)
    (hid : b.id = d.id) (hproject : b.project = d.project) :
    ∃ s', s.withDocument? d = some s' ∧
      s'.documents = s.documents.map fun x ↦ x.updatedBy [d] := by
  obtain ⟨p, hp, hbp⟩ := mem_documents_iff.1 hb
  have hpid : p.id = d.project := (p.filed b hbp).symm.trans hproject
  refine ⟨_, withDocument?_eq_some (project?_eq_some_iff.2 ⟨hp, hpid⟩), ?_⟩
  have htaken : ∃ q ∈ s.projects.toList, q.id.value = (p.withDocument d hpid.symm).id.value :=
    ⟨p, hp, rfl⟩
  rw [documents, withProject, Roster.toList_insert,
    insertByKey_eq_map s.projects.increasing htaken, List.flatMap_map, documents,
    List.map_flatMap]
  refine List.flatMap_congr fun q hq ↦ ?_
  change (if q.id.value = p.id.value then p.withDocument d hpid.symm else q).documents.toList = _
  -- only the project that holds the id may change
  by_cases hqp : q.id.value = p.id.value
  · have hqp' : q = p := Roster.eq_of_key_eq hq hp hqp
    subst hqp'
    rw [if_pos rfl]
    exact documents_withDocument hpid.symm hbp hid
  · rw [if_neg hqp]
    -- another project cannot hold the id of `d`, which is that of `b`
    refine (List.map_id _).symm.trans (List.map_congr_left fun x hx ↦ ?_)
    refine (Document.updatedBy_of_not_mem fun n hn hnx ↦ hqp ?_).symm
    rw [List.mem_singleton.1 hn, ← hid] at hnx
    have hxb := eq_of_id_eq hs hb (mem_documents_iff.2 ⟨q, hq, hx⟩) hnx
    rw [← q.filed x hx, ← hxb, p.filed b hbp]

/-- The document with the id of the new one is exchanged, and no other one is. -/
theorem updatedBy_cases {x y : Document} (hs : s.DistinctDocuments) (hd : d ∈ s.documents)
    (hid : x.id = d.id) (hy : y ∈ s.documents) :
    (y = d ∧ y.updatedBy [x] = x) ∨ (y ≠ d ∧ y.updatedBy [x] = y) := by
  rw [Document.updatedBy_cons, Document.updatedBy_nil]
  by_cases hyd : y = d
  · rw [hyd, if_pos hid]
    exact Or.inl ⟨rfl, rfl⟩
  · rw [if_neg fun hxy ↦ hyd (eq_of_id_eq hs hy hd (hxy.symm.trans hid))]
    exact Or.inr ⟨hyd, rfl⟩

theorem distinctDocuments_of_updatedBy {s' : Solution} {new : List Document}
    (hs : s.DistinctDocuments) (h : s'.documents = s.documents.map fun x ↦ x.updatedBy new) :
    s'.DistinctDocuments := by
  have hids : s'.documents.map Document.id = s.documents.map Document.id := by
    rw [h, List.map_map]
    exact List.map_congr_left fun x _ ↦ x.updatedBy_id new
  rw [DistinctDocuments, hids]
  exact hs

theorem document?_updatedBy {s' : Solution} {new : List Document}
    (h : s'.documents = s.documents.map fun x ↦ x.updatedBy new) (id : DocumentId) :
    s'.document? id = (s.document? id).map fun x ↦ x.updatedBy new := by
  rw [document?, h, List.find?_map, document?]
  congr 2
  funext x
  rw [Function.comp_apply, Document.updatedBy_id]

theorem document?_of_updatedBy {s' : Solution} {new : List Document} {f : Document}
    (h : s'.documents = s.documents.map fun x ↦ x.updatedBy new)
    (hnew : (new.map Document.id).Nodup) (hd : d ∈ new) (hf : s.document? d.id = some f) :
    s'.document? d.id = some d := by
  have hid : f.id = d.id := by simpa using List.find?_some hf
  rw [document?_updatedBy h, hf, Option.map_some, Document.updatedBy_of_mem hnew hd hid.symm]

theorem document?_of_not_updatedBy {s' : Solution} {new : List Document} {id : DocumentId}
    (h : s'.documents = s.documents.map fun x ↦ x.updatedBy new) (hid : ∀ n ∈ new, n.id ≠ id) :
    s'.document? id = s.document? id := by
  rw [document?_updatedBy h]
  cases hf : s.document? id with
  | none => rfl
  | some f =>
    have hfid : f.id = id := by simpa using List.find?_some hf
    rw [Option.map_some, Document.updatedBy_of_not_mem fun n hn ↦ hfid ▸ hid n hn]

theorem document?_of_update {s' : Solution} {n : Document} (hs : s.DistinctDocuments)
    (hb : b ∈ s.documents) (hid : b.id = n.id)
    (h : s'.documents = s.documents.map fun x ↦ x.updatedBy [n]) :
    s'.document? n.id = some n ∧ ∀ id, id ≠ n.id → s'.document? id = s.document? id := by
  constructor
  · exact document?_of_updatedBy h (List.nodup_singleton _) List.mem_cons_self
      (hid ▸ document?_of_mem hs hb)
  · intro id hne
    refine document?_of_not_updatedBy h fun m hm ↦ ?_
    rw [List.mem_singleton.1 hm]
    exact Ne.symm hne

theorem Knows.of_updatedBy {s' : Solution} {n : Document} (hd : s.Knows d) (hne : n.id ≠ d.id)
    (h : s'.documents = s.documents.map fun x ↦ x.updatedBy [n]) : s'.Knows d := by
  obtain ⟨b, hb, hid, hproject⟩ := hd
  refine ⟨b, ?_, hid, hproject⟩
  rw [h]
  refine List.mem_map.2 ⟨b, hb, Document.updatedBy_of_not_mem fun m hm hmb ↦ hne ?_⟩
  rw [← List.mem_singleton.1 hm, hmb, hid]

/-! ## Changed documents -/

theorem isChange_of_mem {base : Solution} (hbase : base.DistinctDocuments)
    (hd : d ∈ base.documents) : base.isChange d = false := by
  rw [isChange, document?_of_mem hbase hd]
  simp

theorem isChange_of_version_ne {base : Solution} (hbase : base.DistinctDocuments)
    (hb : b ∈ base.documents) (hid : d.id = b.id) (hversion : b.version ≠ d.version) :
    base.isChange d = true := by
  rw [isChange, hid, document?_of_mem hbase hb]
  change (b.version != d.version || b.root != d.root) = true
  rw [bne_iff_ne.2 hversion, Bool.true_or]

theorem changedDocuments_eq_filter (hs : s.DistinctDocuments) (base : Solution) :
    s.changedDocuments base = s.documents.filter base.isChange := by
  rw [changedDocuments, changedIds, List.filterMap_map]
  refine (List.filterMap_congr fun d hd ↦ ?_).trans List.filterMap_some
  exact document?_of_mem hs (List.mem_filter.1 hd).1

/-- If one document was updated, it is the only one that can have changed. -/
theorem filter_isChange_updatedBy {base : Solution} (hbase : base.DistinctDocuments)
    (hd : base.Knows d) :
    (base.documents.map fun x ↦ x.updatedBy [d]).filter base.isChange =
      [d].filter base.isChange := by
  obtain ⟨b, hb, hid, -⟩ := hd
  obtain ⟨before, after, hsplit⟩ := List.append_of_mem hb
  have hnodup : ((before ++ b :: after).map Document.id).Nodup := hsplit ▸ hbase
  have hothers : ∀ x ∈ before ++ after, x.id ≠ d.id ∧ base.isChange x = false := by
    intro x hx
    rw [List.map_append, List.map_cons, List.nodup_middle, List.nodup_cons,
      ← List.map_append] at hnodup
    refine ⟨fun h ↦ hnodup.1 (List.mem_map.2 ⟨x, hx, h.trans hid.symm⟩), ?_⟩
    refine isChange_of_mem hbase ?_
    rw [hsplit, List.mem_append, List.mem_cons]
    exact (List.mem_append.1 hx).imp_right Or.inr
  have hnone : ∀ l ⊆ before ++ after,
      (l.map fun x ↦ x.updatedBy [d]).filter base.isChange = [] := by
    intro l hl
    refine List.filter_eq_nil_iff.2 fun y hy ↦ ?_
    obtain ⟨x, hx, rfl⟩ := List.mem_map.1 hy
    obtain ⟨hne, hsame⟩ := hothers x (hl hx)
    rw [Document.updatedBy_cons, if_neg (Ne.symm hne), Document.updatedBy_nil, hsame]
    exact Bool.false_ne_true
  have hbd : b.updatedBy [d] = d := by
    rw [Document.updatedBy_cons, if_pos hid.symm]
  rw [hsplit, List.map_append, List.map_cons, List.filter_append, List.filter_cons, hbd,
    hnone before (List.subset_append_left _ _), hnone after (List.subset_append_right _ _),
    List.nil_append, List.filter_cons, List.filter_nil]

theorem filter_isChange_of_version_ne {base : Solution} (hbase : base.DistinctDocuments)
    (hb : b ∈ base.documents) (hid : d.id = b.id) (hproject : d.project = b.project)
    (hversion : b.version ≠ d.version) :
    (base.documents.map fun x ↦ x.updatedBy [d]).filter base.isChange = [d] := by
  have hknows : base.Knows d := ⟨b, hb, hid.symm, hproject.symm⟩
  have hchange := isChange_of_version_ne hbase hb hid hversion
  rw [filter_isChange_updatedBy hbase hknows, List.filter_cons_of_pos hchange, List.filter_nil]

end Solution

/-! ## Distinct identities -/

namespace Solution

variable {s : Solution} {b d : Document} {id : NodeId}

/-- No two nodes share an id, in one tree or in two. -/
def DistinctNodes (s : Solution) : Prop := (s.documents.flatMap fun d ↦ d.root.ids).Nodup

instance : Decidable s.DistinctNodes := inferInstanceAs (Decidable (List.Nodup _))

/-- No two documents share an id, and no two nodes do. -/
structure Distinct (s : Solution) : Prop where
  documents : s.DistinctDocuments
  nodes : s.DistinctNodes

instance : Decidable s.Distinct :=
  decidable_of_iff (s.DistinctDocuments ∧ s.DistinctNodes)
    ⟨fun h ↦ ⟨h.1, h.2⟩, fun h ↦ ⟨h.documents, h.nodes⟩⟩

namespace DistinctNodes

theorem nodup_ids (hs : s.DistinctNodes) (hd : d ∈ s.documents) : d.root.ids.Nodup :=
  (List.nodup_flatMap.1 hs).1 d hd

theorem eq_of_mem_ids (hs : s.DistinctNodes) (hb : b ∈ s.documents) (hd : d ∈ s.documents)
    (hidb : id ∈ b.root.ids) (hidd : id ∈ d.root.ids) : b = d :=
  eq_of_mem_flatMap hs hb hd hidb hidd

theorem documentOwning?_eq_some_iff (hs : s.DistinctNodes) :
    s.documentOwning? id = some d ↔ d ∈ s.documents ∧ id ∈ d.root.ids := by
  have hfound : ∀ {b}, s.documentOwning? id = some b → b ∈ s.documents ∧ id ∈ b.root.ids :=
    fun {b} h ↦ ⟨List.mem_of_find?_eq_some h, Node.contains_iff.1 <| by
      simpa using List.find?_some (p := fun d : Document ↦ d.root.contains id) h⟩
  refine ⟨hfound, ?_⟩
  rintro ⟨hd, hid⟩
  cases h : s.documentOwning? id with
  | none => exact absurd (Node.contains_iff.2 hid) (List.find?_eq_none.1 h d hd)
  | some b =>
    obtain ⟨hb, hidb⟩ := hfound h
    rw [hs.eq_of_mem_ids hb hd hidb hid]

theorem documentOwning?_of_mem (hs : s.DistinctNodes) (hd : d ∈ s.documents) {n : Node}
    (hn : n ∈ d.root.preorder) : s.documentOwning? n.id = some d :=
  hs.documentOwning?_eq_some_iff.2 ⟨hd, Node.mem_ids_of_mem hn⟩

end DistinctNodes

end Solution

end CodeFix
