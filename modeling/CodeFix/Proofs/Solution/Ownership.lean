import CodeFix.Proofs.Identity
import CodeFix.Proofs.Solution.Documents
import CodeFix.Proofs.Syntax.Lowering

/-!
# Who owns an id

That ids do not repeat is a statement about all trees at once. It comes apart into statements about
one tree each when every id is given an owner, the document in whose trees it may occur: then a
snapshot has distinct ids as soon as each of its trees has, and each tree holds nothing but ids of
its own document (`Solution.distinct_of_owned`). Ids that were never drawn have no owner yet, so
whoever draws ids can claim them for a document without disturbing what is known of the others
(`claimUndrawn`).

Snapshots that were put together from trees with freshly drawn ids are owned in this sense
(`Solution.Loaded.owned`).
-/

namespace CodeFix

variable {owner : NodeId → DocumentId} {u v : Supply} {d : DocumentId} {ids ids' : List NodeId}

/-- The ids are different, were drawn, and are owned by a document. -/
structure Owned (owner : NodeId → DocumentId) (u : Supply) (d : DocumentId) (ids : List NodeId) :
    Prop where
  nodup : ids.Nodup
  drawn : ∀ id ∈ ids, id.value < u.next
  owner_eq : ∀ id ∈ ids, owner id = d

/-- The document becomes the owner of all ids that have not been drawn. -/
def claimUndrawn (owner : NodeId → DocumentId) (u : Supply) (d : DocumentId) :
    NodeId → DocumentId :=
  fun id ↦ if id.value < u.next then owner id else d

namespace Owned

theorem mono (h : Owned owner u d ids) (hle : u.next ≤ v.next) : Owned owner v d ids :=
  ⟨h.nodup, fun id hid ↦ Nat.lt_of_lt_of_le (h.drawn id hid) hle, h.owner_eq⟩

theorem perm (h : Owned owner u d ids) (hids : ids.Perm ids') : Owned owner u d ids' :=
  ⟨hids.nodup_iff.1 h.nodup, fun id hid ↦ h.drawn id (hids.mem_iff.2 hid),
    fun id hid ↦ h.owner_eq id (hids.mem_iff.2 hid)⟩

theorem of_cons {id : NodeId} (h : Owned owner u d (id :: ids)) : Owned owner u d ids :=
  ⟨h.nodup.of_cons, fun i hi ↦ h.drawn i (List.mem_cons_of_mem id hi),
    fun i hi ↦ h.owner_eq i (List.mem_cons_of_mem id hi)⟩

theorem claimUndrawn (h : Owned owner u d ids) (d' : DocumentId) (hle : u.next ≤ v.next) :
    Owned (CodeFix.claimUndrawn owner u d') v d ids := by
  refine ⟨h.nodup, (h.mono hle).drawn, fun id hid ↦ ?_⟩
  rw [CodeFix.claimUndrawn, if_pos (h.drawn id hid)]
  exact h.owner_eq id hid

theorem of_draws (h : u.Draws v ids) (owner : NodeId → DocumentId) (d : DocumentId) :
    Owned (CodeFix.claimUndrawn owner u d) v d ids := by
  refine ⟨h.nodup, fun id hid ↦ (h.mem id hid).2, fun id hid ↦ ?_⟩
  rw [CodeFix.claimUndrawn, if_neg (Nat.not_lt_of_le (h.mem id hid).1)]

theorem append (h : Owned owner u d ids) (h' : Owned owner u d ids')
    (hdisjoint : ∀ id ∈ ids, id ∉ ids') : Owned owner u d (ids ++ ids') := by
  refine ⟨List.nodup_append.2 ⟨h.nodup, h'.nodup, ?_⟩, ?_, ?_⟩
  · intro a ha b hb hab
    exact hdisjoint a ha (hab ▸ hb)
  · intro id hid
    exact (List.mem_append.1 hid).elim (h.drawn id) (h'.drawn id)
  · intro id hid
    exact (List.mem_append.1 hid).elim (h.owner_eq id) (h'.owner_eq id)

end Owned

namespace Solution

variable {s : Solution} {p : Project}

/-- **Distinct by ownership.** -/
theorem distinct_of_owned (hs : s.DistinctDocuments)
    (howned : ∀ d ∈ s.documents, Owned owner u d.id d.root.ids) : s.Distinct := by
  refine ⟨hs, List.nodup_flatMap.2 ⟨fun d hd ↦ (howned d hd).nodup, ?_⟩⟩
  refine (List.Pairwise.and_mem.1 (List.pairwise_map.1 hs)).imp ?_
  rintro x y ⟨hx, hy, hne⟩ id hidx hidy
  exact hne (((howned x hx).owner_eq id hidx).symm.trans ((howned y hy).owner_eq id hidy))

theorem Distinct.exists_owned (hs : s.Distinct)
    (hdrawn : ∀ d ∈ s.documents, ∀ id ∈ d.root.ids, id.value < u.next) :
    ∃ owner, ∀ d ∈ s.documents, Owned owner u d.id d.root.ids := by
  refine ⟨fun id ↦ ((s.documentOwning? id).map Document.id).getD ⟨0⟩, fun d hd ↦
    ⟨hs.nodes.nodup_ids hd, hdrawn d hd, fun id hid ↦ ?_⟩⟩
  rw [hs.nodes.documentOwning?_eq_some_iff.2 ⟨hd, hid⟩]
  rfl

/-! ## Loading -/

/-- The snapshot was put together, project by project and document by document, from trees whose
ids were drawn for them. -/
inductive Loaded : Solution → Supply → Prop
  | empty (u : Supply) : Loaded empty u
  | project {s : Solution} {u : Supply} (h : Loaded s u) (name : String) :
      Loaded (s.withProject (Project.create name u).1) (Project.create name u).2
  | document {s : Solution} {u v : Supply} {p : Project} {root : Node} (h : Loaded s u)
      (hp : p ∈ s.projects.toList) (path : PathName) (hroot : u.Draws v root.ids) :
      Loaded (s.withProject (p.addDocument path root v).1.1) (p.addDocument path root v).2
  /-- Ids may be drawn for something else. -/
  | draw {s : Solution} {u v : Supply} (h : Loaded s u) (hle : u.next ≤ v.next) : Loaded s v

theorem Loaded.owned (h : Loaded s u) : s.DistinctDocuments ∧
    (∀ d ∈ s.documents, d.id.value < u.next) ∧
    ∃ owner, ∀ d ∈ s.documents, Owned owner u d.id d.root.ids := by
  induction h with
  | empty u =>
    have hnone : Solution.empty.documents = [] := rfl
    refine ⟨List.nodup_nil, ?_, fun _ ↦ ⟨0⟩, ?_⟩ <;> simp [hnone]
  | @project s u _ name ih =>
    obtain ⟨hdistinct, hids, owner, howned⟩ := ih
    have hmem : ∀ d ∈ (s.withProject (Project.create name u).1).documents, d ∈ s.documents :=
      fun d hd ↦ (mem_documents_withProject hd).resolve_left fun h ↦ nomatch h
    refine ⟨distinctDocuments_iff.2 fun x hx y hy ↦
      distinctDocuments_iff.1 hdistinct x (hmem x hx) y (hmem y hy),
      fun d hd ↦ Nat.lt_succ_of_lt (hids d (hmem d hd)), owner, fun d hd ↦ ?_⟩
    exact (howned d (hmem d hd)).mono (Nat.le_succ _)
  | @document s u v p root _ hp path hroot ih =>
    obtain ⟨hdistinct, hids, owner, howned⟩ := ih
    -- the new document is the only one with its id, which was drawn after all others
    have hmem : ∀ d ∈ (s.withProject (p.addDocument path root v).1.1).documents,
        d = Document.create ⟨v.next⟩ p.id path root ∨ d ∈ s.documents := by
      intro d hd
      rcases mem_documents_withProject hd with hd | hd
      · refine (Roster.mem_insert.1 hd).imp id fun h ↦ ?_
        exact mem_documents_iff.2 ⟨p, hp, h.1⟩
      · exact Or.inr hd
    have hlt : ∀ d ∈ s.documents, d.id.value < v.next :=
      fun d hd ↦ Nat.lt_of_lt_of_le (hids d hd) hroot.le
    refine ⟨distinctDocuments_iff.2 fun x hx y hy hxy ↦ ?_, fun d hd ↦ ?_,
      claimUndrawn owner u ⟨v.next⟩, fun d hd ↦ ?_⟩
    · rcases hmem x hx with rfl | hx <;> rcases hmem y hy with rfl | hy
      · rfl
      · exact absurd (hlt y hy) (by rw [← hxy]; exact Nat.lt_irrefl _)
      · exact absurd (hlt x hx) (by rw [hxy]; exact Nat.lt_irrefl _)
      · exact distinctDocuments_iff.1 hdistinct x hx y hy hxy
    · rcases hmem d hd with rfl | hd
      · exact Nat.lt_succ_self _
      · exact Nat.lt_succ_of_lt (hlt d hd)
    · rcases hmem d hd with rfl | hd
      · exact (Owned.of_draws hroot owner ⟨v.next⟩).mono (Nat.le_succ _)
      · exact ((howned d hd).claimUndrawn ⟨v.next⟩ hroot.le).mono (Nat.le_succ _)
  | @draw s u v _ hle ih =>
    obtain ⟨hdistinct, hids, owner, howned⟩ := ih
    exact ⟨hdistinct, fun d hd ↦ Nat.lt_of_lt_of_le (hids d hd) hle, owner,
      fun d hd ↦ (howned d hd).mono hle⟩

end Solution

end CodeFix
