import CodeFix.Proofs.ListSearch
import CodeFix.Proofs.Solution.Documents
import CodeFix.Syntax.Kind

/-!
# What has changed since a snapshot

A snapshot is derived from a base by updating documents, one after the other
(`Solution.Derived`). The documents that are given another tree need not come from the snapshot that
is updated: any snapshot derived so far will do, so that histories fork, an older document returns
in place of a newer one, and versions repeat.

## The invariant

A document of a derived snapshot is a later version of the base's one (`Document.Since`). Its
version is larger if its id was updated, and otherwise it is the base's document itself. The second
half alone would not survive a step: a document taken from elsewhere has been updated there or not,
and in both cases its version is not smaller than in the base, so that its next version is larger.

The reported changes are read off the invariant, since a larger version is a change and the same
document is none (`Derived.changes_exact`).
-/

namespace CodeFix

/-- The second document is a later version of the first one, given the ids that were updated. -/
structure Document.Since (updated : List DocumentId) (b d : Document) : Prop where
  id_eq : d.id = b.id
  project_eq : d.project = b.project
  path_eq : d.path = b.path
  newer : d.id ∈ updated → b.version < d.version
  same : d.id ∉ updated → d = b

namespace Document.Since

variable {updated other : List DocumentId} {b d : Document}

theorem refl (d : Document) : Since [] d d := ⟨rfl, rfl, rfl, nofun, fun _ ↦ rfl⟩

theorem version_le (h : Since updated b d) : b.version ≤ d.version := by
  by_cases hid : d.id ∈ updated
  · exact Nat.le_of_lt (h.newer hid)
  · exact Nat.le_of_eq (congrArg Document.version (h.same hid)).symm

/-- Another tree makes a later version, whatever was updated where the document comes from. -/
theorem withRoot (h : Since other b d) (root : Node) :
    Since (d.id :: updated) b (d.withRoot root) where
  id_eq := h.id_eq
  project_eq := h.project_eq
  path_eq := h.path_eq
  newer _ := Nat.lt_succ_of_le h.version_le
  same hid := absurd List.mem_cons_self hid

theorem cons (h : Since updated b d) {id : DocumentId} (hne : id ≠ d.id) :
    Since (id :: updated) b d where
  id_eq := h.id_eq
  project_eq := h.project_eq
  path_eq := h.path_eq
  newer hid := h.newer ((List.mem_cons.1 hid).resolve_left (Ne.symm hne))
  same hid := h.same fun hmem ↦ hid (List.mem_cons_of_mem id hmem)

end Document.Since

namespace Solution

/-- The snapshot was derived from the base by updating documents; their ids are listed, the last
update first. The document of an update comes from any snapshot that was derived as well. -/
inductive Derived (base : Solution) : Solution → List DocumentId → Prop
  | base : Derived base base []
  | update {s s' old : Solution} {updated other : List DocumentId} {d : Document} {root : Node}
      (hs : Derived base s updated) (hold : Derived base old other) (hd : d ∈ old.documents)
      (h : s.withDocument? (d.withRoot root) = some s') : Derived base s' (d.id :: updated)

/-- The documents with what does not change about them. -/
def places (s : Solution) : List (DocumentId × ProjectId × PathName) :=
  s.documents.map fun d ↦ (d.id, d.project, d.path)

variable {base s s' old : Solution} {updated other : List DocumentId} {d : Document}

theorem ids_eq_of_places (h : s.places = base.places) :
    s.documents.map Document.id = base.documents.map Document.id := by
  have hids := congrArg (List.map Prod.fst) h
  rwa [places, places, List.map_map, List.map_map] at hids

theorem DistinctDocuments.of_places (hbase : base.DistinctDocuments)
    (h : s.places = base.places) : s.DistinctDocuments := by
  rw [DistinctDocuments, ids_eq_of_places h]
  exact hbase

/-! ## The invariant -/

/-- Each document of the snapshot stands where the base has an earlier version of it. -/
def Tracks (base s : Solution) (updated : List DocumentId) : Prop :=
  List.Forall₂ (Document.Since updated) base.documents s.documents

namespace Tracks

theorem refl (base : Solution) : base.Tracks base [] :=
  List.forall₂_same.2 fun d _ ↦ .refl d

theorem places_eq (h : base.Tracks s updated) : s.places = base.places :=
  (forall₂_iff_map_eq.1 (h.imp fun b d hbd ↦ by
    rw [hbd.id_eq, hbd.project_eq, hbd.path_eq])).symm

variable (hbase : base.DistinctDocuments)
include hbase

theorem distinctDocuments (h : base.Tracks s updated) : s.DistinctDocuments :=
  hbase.of_places h.places_eq

theorem sameProjects (h : base.Tracks s updated) : base.SameProjects s := by
  intro x hx y hy hid
  obtain ⟨b, hb, hby⟩ := exists_of_mem_right h hy
  rw [eq_of_id_eq hbase hx hb (hid.trans hby.id_eq), hby.project_eq]

/-- **One update** of a tracked snapshot succeeds, exchanges the one document, and is tracked. -/
theorem step (hs : base.Tracks s updated) (hold : base.Tracks old other)
    (hd : d ∈ old.documents) (root : Node) :
    ∃ s', s.withDocument? (d.withRoot root) = some s' ∧
      s'.documents = s.documents.map (fun x ↦ x.updatedBy [d.withRoot root]) ∧
      base.Tracks s' (d.id :: updated) := by
  obtain ⟨b, hb, hbd⟩ := exists_of_mem_right hold hd
  -- the snapshot has a version of the document, in the same project
  obtain ⟨x, hx, hbx⟩ := exists_of_mem_right hs.flip hb
  obtain ⟨s', hs', hdocuments⟩ := documents_withDocument? (hs.distinctDocuments hbase) hx
    (hbx.id_eq.trans hbd.id_eq.symm : x.id = (d.withRoot root).id)
    (hbx.project_eq.trans hbd.project_eq.symm)
  refine ⟨s', hs', hdocuments, ?_⟩
  rw [Tracks, hdocuments, List.forall₂_map_right_iff]
  refine ((List.forall₂_and_left _ _).2 ⟨fun _ hc ↦ hc, hs⟩).imp ?_
  rintro c y ⟨hc, hcy⟩
  rw [Document.updatedBy_cons, Document.updatedBy_nil]
  split
  · next hid =>
    have hcb : c = b := eq_of_id_eq hbase hc hb
      (hcy.id_eq.symm.trans (hid.symm.trans hbd.id_eq))
    rw [hcb]
    exact hbd.withRoot root
  · next hid => exact hcy.cons hid

/-! ## The reported changes -/

/-- A document of a tracked snapshot is a change exactly if it was updated. -/
theorem isChange_iff (h : base.Tracks s updated) (hd : d ∈ s.documents) :
    base.isChange d = true ↔ d.id ∈ updated := by
  obtain ⟨b, hb, hbd⟩ := exists_of_mem_right h hd
  by_cases hid : d.id ∈ updated
  · have hversion := Nat.ne_of_lt (hbd.newer hid)
    exact iff_of_true (isChange_of_version_ne hbase hb hbd.id_eq hversion) hid
  · rw [hbd.same hid, isChange_of_mem hbase hb, ← hbd.id_eq]
    exact iff_of_false Bool.false_ne_true hid

theorem mem_changedIds_iff (h : base.Tracks s updated) {id : DocumentId} :
    id ∈ s.changedIds base ↔ id ∈ updated ∧ id ∈ s.documents.map Document.id := by
  rw [changedIds, List.mem_map, List.mem_map]
  constructor
  · rintro ⟨d, hd, rfl⟩
    obtain ⟨hmem, hchange⟩ := List.mem_filter.1 hd
    exact ⟨(h.isChange_iff hbase hmem).1 hchange, d, hmem, rfl⟩
  · rintro ⟨hid, d, hd, rfl⟩
    exact ⟨d, List.mem_filter.2 ⟨hd, (h.isChange_iff hbase hd).2 hid⟩, rfl⟩

end Tracks

/-! ## Derived snapshots -/

namespace Derived

variable (hbase : base.DistinctDocuments)
include hbase

theorem tracks (h : base.Derived s updated) : base.Tracks s updated := by
  induction h with
  | base => exact .refl base
  | update hs hold hd hstep ihs ihold =>
    obtain ⟨s', hs', -, htracks⟩ := ihs.step hbase ihold hd _
    rw [hs'] at hstep
    cases hstep
    exact htracks

theorem mem_ids (h : base.Derived s updated) {id : DocumentId} (hid : id ∈ updated) :
    id ∈ base.documents.map Document.id := by
  induction h with
  | base => cases hid
  | update hs hold hd _ ihs _ =>
    rcases List.mem_cons.1 hid with rfl | hid
    · rw [← ids_eq_of_places (hold.tracks hbase).places_eq]
      exact List.mem_map_of_mem hd
    · exact ihs hid

/-- **One more update** of a derived snapshot. -/
theorem update_succeeds (hs : base.Derived s updated) (hold : base.Derived old other)
    (hd : d ∈ old.documents) (root : Node) :
    ∃ s', s.withDocument? (d.withRoot root) = some s' ∧ s'.DistinctDocuments ∧
      s'.places = s.places ∧ s'.document? d.id = some (d.withRoot root) ∧
      ∀ id, id ≠ d.id → s'.document? id = s.document? id := by
  have htracks := hs.tracks hbase
  obtain ⟨s', hs', hdocuments, htracks'⟩ := htracks.step hbase (hold.tracks hbase) hd root
  have hid : d.id ∈ s.documents.map Document.id := by
    rw [ids_eq_of_places (htracks.places_eq.trans (hold.tracks hbase).places_eq.symm)]
    exact List.mem_map_of_mem hd
  obtain ⟨x, hx, hxid⟩ := List.mem_map.1 hid
  have hxid' : x.id = (d.withRoot root).id := hxid
  exact ⟨s', hs', htracks'.distinctDocuments hbase,
    htracks'.places_eq.trans htracks.places_eq.symm,
    document?_of_update (htracks.distinctDocuments hbase) hx hxid' hdocuments⟩

/-- **Change tracking is exact.** A derived snapshot can be updated further with any document
derived so far: this exchanges the one document and keeps all ids, projects and paths. The changes
since the base that it reports are the ids that were updated, each one once and in the order of the
documents, and any other document is the base's own. -/
theorem changes_exact (h : base.Derived s updated) :
    (∀ old other d root, base.Derived old other → d ∈ old.documents →
      ∃ s', s.withDocument? (d.withRoot root) = some s' ∧ s'.DistinctDocuments ∧
        s'.places = s.places ∧ s'.document? d.id = some (d.withRoot root) ∧
        ∀ id, id ≠ d.id → s'.document? id = s.document? id) ∧
    (s.changedIds base).Nodup ∧
    ((s.changedIds base).Pairwise fun i j ↦ ∃ x ∈ s.documents, ∃ y ∈ s.documents,
      x.id = i ∧ y.id = j ∧ (x.project.value < y.project.value ∨
        x.project = y.project ∧ x.id.value < y.id.value)) ∧
    (∀ id, id ∈ s.changedIds base ↔ id ∈ updated) ∧
    ∀ d ∈ s.documents, d.id ∉ s.changedIds base → base.document? d.id = some d := by
  have htracks := h.tracks hbase
  have hmem : ∀ id, id ∈ s.changedIds base ↔ id ∈ updated := by
    intro id
    rw [htracks.mem_changedIds_iff hbase, ids_eq_of_places htracks.places_eq]
    exact and_iff_left_of_imp (h.mem_ids hbase)
  refine ⟨fun old other d root hold hd ↦ h.update_succeeds hbase hold hd root, ?_, ?_, hmem, ?_⟩
  · exact (htracks.distinctDocuments hbase).sublist (List.filter_sublist.map _)
  · rw [changedIds, List.pairwise_map]
    refine (List.Pairwise.and_mem.1 (s.pairwise_documents.filter _)).imp ?_
    rintro x y ⟨hx, hy, hlt⟩
    exact ⟨x, (List.mem_filter.1 hx).1, y, (List.mem_filter.1 hy).1, rfl, rfl, hlt⟩
  · intro d hd hnot
    obtain ⟨b, hb, hbd⟩ := exists_of_mem_right htracks hd
    rw [hmem] at hnot
    rw [hbd.same hnot, document?_of_mem hbase hb]

end Derived

/-! ### A document that returns -/

private def trackedFile (id : Nat) (path : String) : Document :=
  .create ⟨id⟩ ⟨0⟩ ⟨path⟩ (Node.create Kind.compilationUnit [] ⟨id⟩).1

private def trackedBase : Solution :=
  Solution.empty.withProject (((Project.create "App" ⟨0⟩).1.withDocument
    (trackedFile 0 "A.cs") rfl).withDocument (trackedFile 1 "B.cs") rfl)

/-- The first file gets another tree, and then its own tree of before: it is a change still. -/
theorem changes_of_return :
    ∃ s s', trackedBase.withDocument? ((trackedFile 0 "A.cs").withRoot
        (trackedFile 1 "B.cs").root) = some s ∧
      s.withDocument? ((trackedFile 0 "A.cs").withRoot (trackedFile 0 "A.cs").root) = some s' ∧
      ∀ id, id ∈ s'.changedIds trackedBase ↔ id = ⟨0⟩ := by
  have hbase : trackedBase.DistinctDocuments := by decide
  have hmem : trackedFile 0 "A.cs" ∈ trackedBase.documents := by decide
  obtain ⟨s, hs, -⟩ := (Derived.changes_exact hbase .base).1 _ _ _ _ .base hmem
  have hderived : trackedBase.Derived s [⟨0⟩] := .update .base .base hmem hs
  obtain ⟨s', hs', -⟩ := (Derived.changes_exact hbase hderived).1 _ _ _ _ .base hmem
  have hderived' : trackedBase.Derived s' [⟨0⟩, ⟨0⟩] := .update hderived .base hmem hs'
  obtain ⟨-, -, -, hchanges, -⟩ := Derived.changes_exact hbase hderived'
  exact ⟨s, s', hs, hs', fun id ↦ (hchanges id).trans (by simp)⟩

end Solution

end CodeFix
