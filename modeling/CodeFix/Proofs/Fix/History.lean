import CodeFix.Proofs.Fix.Revision
import CodeFix.Proofs.Solution.Ownership

/-!
# What a host can come to

A host loads a snapshot and goes on from there: it has fixes computed for any snapshot it has got
hold of, looks at what the actions would leave, lays documents out and applies actions, to the
snapshot they were computed for or to a later one. A `History` is what it has got hold of so far.
Snapshots are never given up, so a history branches wherever an earlier snapshot is used again, and
one action may be computed and applied any number of times.

The new nodes of an action are synthesized once, when the fixes are computed. Every computation of
the action puts the same nodes into its tree, so ids do repeat from one snapshot of a history to
another one. Inside of a snapshot they do not, because all these trees belong to versions of one and
the same document: the invariant (`History.Sound`) gives every id an owner, and every pending action
a tree that it would leave, with ids of its own document only.
-/

namespace CodeFix

open Serialization

/-! ## Histories -/

/-- The snapshot that a payload stands for. -/
def Payload.solution? (base : Solution) : Payload → Option Solution
  | .document d => base.withDocument? d
  | .solution s => some s

/-- What a host has got hold of, and the supply that everything else will be drawn from. -/
structure History where
  supply : Supply
  solutions : List Solution
  actions : List CodeAction

namespace History

/-- What a host can do next. -/
inductive Step : History → History → Prop
  /-- It has the fixes computed for a context in one of the snapshots. -/
  | offered {h : History} {ctx : FixContext} {preference : NameStylePreference} {cancelled : Bool}
      {actions : List CodeAction} {s' : FixState} (hctx : ctx.solution ∈ h.solutions)
      (hhost : ctx.host = snapshotHost)
      (hrun : fixes preference enclosingField ctx ⟨h.supply, cancelled⟩ = .ok actions s') :
      Step h ⟨s'.supply, h.solutions, actions ++ h.actions⟩
  /-- It runs the producer of an action and does not lay out what comes of it. -/
  | produced {h : History} {a : CodeAction} {payload : Payload} {s : Solution} {u : Supply}
      (ha : a ∈ h.actions) (hrun : a.producer h.supply = .ok payload u)
      (hs : payload.solution? a.base = some s) : Step h ⟨u, s :: h.solutions, h.actions⟩
  /-- It computes what an action leaves. -/
  | computed {h : History} {a : CodeAction} {s : Solution} {u : Supply} (ha : a ∈ h.actions)
      (hrun : a.changedSolution h.supply = .ok s u) : Step h ⟨u, s :: h.solutions, h.actions⟩
  /-- It lays out a document. -/
  | laidOut {h : History} {s s' : Solution} {d : Document} (hs : s ∈ h.solutions)
      (hd : d ∈ s.documents) (hs' : s.withDocument? (d.layout h.supply).1 = some s') :
      Step h ⟨(d.layout h.supply).2, s' :: h.solutions, h.actions⟩
  /-- It applies an action to one of the snapshots. -/
  | applied {h : History} {a : CodeAction} {s s' : Solution} {u : Supply} (ha : a ∈ h.actions)
      (hs : s ∈ h.solutions) (hrun : a.apply s h.supply = .ok s' u) :
      Step h ⟨u, s' :: h.solutions, h.actions⟩
  /-- Something else, a computation that failed for instance, draws from the supply. -/
  | drew {h : History} {u : Supply} (hle : h.supply.next ≤ u.next) : Step h { h with supply := u }

/-- What a host can come to from a snapshot that it has loaded. -/
inductive Reachable : History → Prop
  | loaded {s : Solution} {u : Supply} (hs : s.Loaded u) : Reachable ⟨u, [s], []⟩
  | step {h h' : History} (hreach : Reachable h) (hstep : h.Step h') : Reachable h'

/-! ## The invariant -/

/-- The ids of the documents with the projects they are filed in. -/
abbrev Filing := List (DocumentId × ProjectId)

end History

/-- Where the documents of a snapshot are filed. -/
def Solution.filing (s : Solution) : History.Filing := s.documents.map fun d ↦ (d.id, d.project)

namespace History

variable {owner : NodeId → DocumentId} {filing : Filing} {h : History} {s s' base : Solution}
  {a : CodeAction} {d x : Document} {c : TreeContext} {n list new : Node} {name : String}
  {t u v w : Supply}

/-- A pending action puts nodes of its own into one document of its base, and the tree it leaves
holds ids of that document only. -/
structure Pending (owner : NodeId → DocumentId) (h : History) (a : CodeAction) (d : Document)
    (c : TreeContext) (n list new : Node) : Prop where
  base : a.base ∈ h.solutions
  replaces : a.Replaces a.base d c n new
  extended : ∃ name u v, n.Extended list new name u v
  fresh : ∀ id ∈ new.id :: list.ids, id ∉ d.root.ids
  owned : Owned owner h.supply d.id (c.fill new).ids

/-- All snapshots file the same documents, and every id has an owner. -/
structure Sound (owner : NodeId → DocumentId) (filing : Filing) (h : History) : Prop where
  nodup : (filing.map Prod.fst).Nodup
  filing_eq : ∀ s ∈ h.solutions, s.filing = filing
  owned : ∀ s ∈ h.solutions, ∀ d ∈ s.documents, Owned owner h.supply d.id d.root.ids
  actions : ∀ a ∈ h.actions, ∃ d c n list new, h.Pending owner a d c n list new

theorem Pending.owned_of_sketch_eq (ha : h.Pending owner a d c n list new) (hid : x.id = d.id)
    (hsketch : x.root.sketch Node.noLabel = (c.fill new).sketch Node.noLabel) :
    Owned owner h.supply x.id x.root.ids := by
  rw [Node.ids_eq_of_sketch_eq hsketch, hid]
  exact ha.owned

namespace Sound

theorem distinctDocuments (hh : Sound owner filing h) (hs : s ∈ h.solutions) :
    s.DistinctDocuments := by
  have hids : s.documents.map Document.id = filing.map Prod.fst := by
    rw [← hh.filing_eq s hs, Solution.filing, List.map_map]
    rfl
  rw [Solution.DistinctDocuments, hids]
  exact hh.nodup

theorem distinct (hh : Sound owner filing h) (hs : s ∈ h.solutions) : s.Distinct :=
  Solution.distinct_of_owned (hh.distinctDocuments hs) (hh.owned s hs)

theorem start (hs : s.DistinctDocuments)
    (howned : ∀ d ∈ s.documents, Owned owner u d.id d.root.ids) :
    Sound owner s.filing ⟨u, [s], []⟩ := by
  refine ⟨?_, fun r hr ↦ ?_, fun r hr ↦ ?_, fun a ha ↦ nomatch ha⟩
  · rw [Solution.filing, List.map_map]
    exact hs
  · rw [List.mem_singleton.1 hr]
  · rw [List.mem_singleton.1 hr]
    exact howned

theorem sameProjects (hh : Sound owner filing h) (hs : s ∈ h.solutions)
    (hs' : s' ∈ h.solutions) : s.SameProjects s' := by
  have hmem : ∀ {s}, s ∈ h.solutions → ∀ d ∈ s.documents, (d.id, d.project) ∈ filing := by
    intro s hs d hd
    rw [← hh.filing_eq s hs]
    exact List.mem_map_of_mem hd
  intro x hx y hy hid
  exact congrArg Prod.snd (List.inj_on_of_nodup_map hh.nodup (hmem hs x hx) (hmem hs' y hy) hid)

theorem weaken {as : List CodeAction} (hh : Sound owner filing h) (hle : h.supply.next ≤ v.next)
    (has : ∀ a ∈ as, a ∈ h.actions) : Sound owner filing ⟨v, h.solutions, as⟩ := by
  refine ⟨hh.nodup, hh.filing_eq, fun s hs d hd ↦ (hh.owned s hs d hd).mono hle, fun a ha ↦ ?_⟩
  obtain ⟨d, c, n, list, new, hpending⟩ := hh.actions a (has a ha)
  exact ⟨d, c, n, list, new, hpending.base, hpending.replaces, hpending.extended,
    hpending.fresh, hpending.owned.mono hle⟩

/-- One more snapshot, in which a document was exchanged for a version with ids of its own. -/
theorem push (hh : Sound owner filing h) (hs : s ∈ h.solutions) (hx : s.Knows x)
    (howned : Owned owner u x.id x.root.ids) (hle : h.supply.next ≤ u.next)
    (hdocuments : s'.documents = s.documents.map fun y ↦ y.updatedBy [x]) :
    Sound owner filing ⟨u, s' :: h.solutions, h.actions⟩ := by
  refine ⟨hh.nodup, fun r hr ↦ ?_, fun r hr d hd ↦ ?_, fun a ha ↦ ?_⟩
  · rcases List.mem_cons.1 hr with rfl | hr
    · rw [← hh.filing_eq s hs, Solution.filing, hdocuments, List.map_map, Solution.filing]
      refine List.map_congr_left fun y hy ↦ ?_
      rw [Function.comp_apply, Document.updatedBy_cons, Document.updatedBy_nil]
      split
      · next hid =>
        obtain ⟨b, hb, hbid, hproject⟩ := hx
        rw [Solution.eq_of_id_eq (hh.distinctDocuments hs) hy hb (hid.symm.trans hbid.symm),
          hbid, hproject]
      · rfl
    · exact hh.filing_eq r hr
  · rcases List.mem_cons.1 hr with rfl | hr
    · rw [hdocuments] at hd
      obtain ⟨y, hy, rfl⟩ := List.mem_map.1 hd
      rw [Document.updatedBy_cons, Document.updatedBy_nil]
      split
      · exact howned
      · exact (hh.owned s hs y hy).mono hle
    · exact (hh.owned r hr d hd).mono hle
  · obtain ⟨d, c, n, list, new, hpending⟩ := hh.actions a ha
    exact ⟨d, c, n, list, new, List.mem_cons_of_mem _ hpending.base, hpending.replaces,
      hpending.extended, hpending.fresh, hpending.owned.mono hle⟩

theorem pending (hh : Sound owner filing h) (hs : a.base ∈ h.solutions)
    (hextended : n.Extended list new name h.supply v) (ha : a.Replaces a.base d c n new) :
    Pending (claimUndrawn owner h.supply d.id) ⟨v, h.solutions, a :: h.actions⟩ a d c n list
      new := by
  obtain ⟨kept, hold, hnew⟩ := hextended.exists_perm_ids c
  have hdraws := hextended.draws
  have howned := hh.owned a.base hs d ha.document
  have hfresh : ∀ id ∈ new.id :: list.ids, id ∉ d.root.ids := fun id hid hmem ↦
    Nat.not_lt_of_le (hdraws.mem id hid).1 (howned.drawn id hmem)
  have hkept : Owned (claimUndrawn owner h.supply d.id) v d.id kept := by
    rw [ha.root_eq] at howned
    exact ((howned.perm hold).claimUndrawn d.id hdraws.le).of_cons
  have hdisjoint : ∀ id ∈ new.id :: list.ids, id ∉ kept := fun id hid hmem ↦ by
    rw [ha.root_eq] at hfresh
    exact hfresh id hid (hold.mem_iff.2 (List.mem_cons_of_mem _ hmem))
  exact ⟨hs, ha, ⟨name, _, _, hextended⟩, hfresh,
    ((Owned.of_draws hdraws owner d.id).append hkept hdisjoint).perm hnew.symm⟩

theorem issue (hh : Sound owner filing h) (hs : base ∈ h.solutions) {o : Offer}
    (ha : o.Issued base d n name h.supply v a) :
    Sound (claimUndrawn owner h.supply d.id) filing ⟨v, h.solutions, a :: h.actions⟩ := by
  obtain ⟨c, list, new, hextended, hreplaces⟩ := ha.replaces
  have hle := hextended.draws.le
  have hbase := ha.base_eq
  subst hbase
  refine ⟨hh.nodup, hh.filing_eq,
    fun s hs x hx ↦ (hh.owned s hs x hx).claimUndrawn d.id hle, fun b hb ↦ ?_⟩
  rcases List.mem_cons.1 hb with rfl | hb
  · exact ⟨d, c, n, list, new, hh.pending hs hextended hreplaces⟩
  · obtain ⟨d', c', n', list', new', hpending⟩ := hh.actions b hb
    exact ⟨d', c', n', list', new', hpending.base, hpending.replaces, hpending.extended,
      hpending.fresh, hpending.owned.claimUndrawn d.id hle⟩

/-- Some more actions, one after another; the history may list them in any order. -/
theorem issueAll {ctx : FixContext} {as as' : List CodeAction} (has : IssuedInTurn ctx u as w)
    (hh : Sound owner filing h) (hs : ctx.solution ∈ h.solutions) (hu : h.supply = u)
    (has' : ∀ a ∈ as', a ∈ as ∨ a ∈ h.actions) :
    ∃ owner', Sound owner' filing ⟨w, h.solutions, as'⟩ := by
  induction has generalizing h owner with
  | nil hle =>
    subst hu
    exact ⟨owner, hh.weaken hle fun a ha ↦ (has' a ha).resolve_left List.not_mem_nil⟩
  | cons _ ha has ih =>
    subst hu
    refine ih (h := ⟨_, h.solutions, _ :: h.actions⟩) (hh.issue hs ha) hs rfl fun b hb ↦ ?_
    rcases has' b hb with hb | hb
    · rcases List.mem_cons.1 hb with rfl | hb
      · exact Or.inr List.mem_cons_self
      · exact Or.inl hb
    · exact Or.inr (List.mem_cons_of_mem _ hb)

/-- An application that succeeds exchanges the document that the action was computed for, which
still has the tree of the base. -/
theorem apply_ok (hh : Sound owner filing h) (hs : s ∈ h.solutions)
    (ha : h.Pending owner a d c n list new) (hrun : a.apply s t = .ok s' u) :
    u = ⟨t.next + 2⟩ ∧ (∃ f ∈ s.documents, f.id = d.id ∧ f.project = d.project ∧ f.root = d.root) ∧
      s'.documents = s.documents.map fun x ↦ x.updatedBy [d.revision c new t] := by
  have hbase := hh.distinctDocuments ha.base
  have hprojects := hh.sameProjects ha.base hs
  have hd := ha.replaces.document
  obtain ⟨name, v, w, hextended⟩ := ha.extended
  obtain ⟨payload, hcompute, hwithin, htouched⟩ :=
    (ha.replaces.revises (hh.distinct ha.base) hextended.annotated.length_tokens_lt).compute t
  rcases CodeAction.apply_cases hbase (hh.distinctDocuments hs) hprojects hcompute hwithin with
    ⟨hall, result, happly, hdocuments⟩ | ⟨before, x, after, e, -, -, -, happly⟩
  · cases happly.symm.trans hrun
    rw [htouched] at hall hdocuments
    obtain ⟨b, f, hb, hf, hroot⟩ := hall _ (List.mem_singleton_self _)
    rw [Document.revision_id, Solution.document?_of_mem hbase hd] at hb
    obtain ⟨hfmem, hfid⟩ := (Solution.document?_eq_some_iff (hh.distinctDocuments hs)).1 hf
    cases hb
    exact ⟨rfl, ⟨f, hfmem, hfid, (hprojects d hd f hfmem hfid.symm).symm, hroot.symm⟩, hdocuments⟩
  · cases happly.symm.trans hrun

/-- The new nodes of an action have no ids of a snapshot in which the document is as in the base. -/
theorem fresh (hh : Sound owner filing h) (hs : s ∈ h.solutions)
    (ha : h.Pending owner a d c n list new) (hx : x ∈ s.documents) (hid : x.id = d.id)
    (hroot : x.root = d.root) : ∀ id ∈ new.id :: list.ids, ∀ y ∈ s.documents, id ∉ y.root.ids := by
  intro id hmem y hy hidy
  obtain ⟨name, v, w, hextended⟩ := ha.extended
  obtain ⟨kept, -, hnew⟩ := hextended.exists_perm_ids c
  have howner : owner id = d.id := (ha.owned.perm hnew).owner_eq id (List.mem_append_left _ hmem)
  have hyd : y.id = d.id := ((hh.owned s hs y hy).owner_eq id hidy).symm.trans howner
  obtain rfl : y = x :=
    Solution.eq_of_id_eq (hh.distinctDocuments hs) hy hx (hyd.trans hid.symm)
  exact ha.fresh id hmem (hroot ▸ hidy)

/-- **One step** keeps the invariant; only new actions give ids an owner. -/
theorem step {h' : History} (hh : Sound owner filing h) (hstep : h.Step h') :
    ∃ owner', Sound owner' filing h' := by
  cases hstep with
  | @offered ctx preference cancelled actions s' hctx hhost hrun =>
    exact issueAll (fixes_issued (hh.distinct hctx) hhost hrun) hh hctx rfl
      fun a ha ↦ List.mem_append.1 ha
  | @produced a payload s u ha hrun hs =>
    obtain ⟨d, c, n, list, new, hpending⟩ := hh.actions a ha
    have hbase := hh.distinct hpending.base
    have hd := hpending.replaces.document
    set edited := d.withRoot ((c.restamp ⟨h.supply.next, []⟩).fill new)
    have howned : Owned owner ⟨h.supply.next + 1⟩ edited.id edited.root.ids :=
      (hpending.owned_of_sketch_eq (x := edited) rfl
        (TreeContext.sketch_fill_restamp c _ new)).mono (Nat.le_succ _)
    have hpush : ∀ {r : Solution},
        r.documents = a.base.documents.map (fun y ↦ y.updatedBy [edited]) →
        Sound owner filing ⟨⟨h.supply.next + 1⟩, r :: h.solutions, h.actions⟩ :=
      hh.push hpending.base ⟨d, hd, rfl, rfl⟩ howned (Nat.le_succ _)
    rcases hpending.replaces.producer_cases hbase h.supply with
      hproduce | ⟨r, hproduce, hdocuments⟩
    · cases hproduce.symm.trans hrun
      obtain ⟨r, hwith, hdocuments⟩ :=
        Solution.documents_withDocument? (d := edited) hbase.documents hd rfl rfl
      cases hwith.symm.trans hs
      exact ⟨owner, hpush hdocuments⟩
    · cases hproduce.symm.trans hrun
      cases hs
      exact ⟨owner, hpush hdocuments⟩
  | @computed a s u ha hrun =>
    obtain ⟨d, c, n, list, new, hpending⟩ := hh.actions a ha
    obtain ⟨r, hcomputed, hdocuments⟩ :=
      hpending.replaces.changedSolution (hh.distinct hpending.base) h.supply
    cases hcomputed.symm.trans hrun
    have howned := hpending.owned_of_sketch_eq (x := d.revision c new h.supply) rfl
      (d.sketch_revision c new h.supply)
    exact ⟨owner, hh.push (x := d.revision c new h.supply) hpending.base
      ⟨d, hpending.replaces.document, rfl, rfl⟩ (howned.mono (Nat.le_add_right _ 2))
      (Nat.le_add_right _ 2) hdocuments⟩
  | @laidOut s s' d hs hd hs' =>
    obtain ⟨hid, hproject, hle⟩ := d.layout_fields h.supply
    obtain ⟨r, hwith, hdocuments⟩ :=
      Solution.documents_withDocument? (hh.distinctDocuments hs) hd hid.symm hproject.symm
    cases hwith.symm.trans hs'
    have howned : Owned owner h.supply (d.layout h.supply).1.id
        (d.layout h.supply).1.root.ids := by
      rw [Node.ids_eq_of_sketch_eq (d.sketch_layout h.supply), hid]
      exact hh.owned s hs d hd
    exact ⟨owner, hh.push hs ⟨d, hd, hid.symm, hproject.symm⟩ (howned.mono hle) hle hdocuments⟩
  | @applied a s s' u ha hs hrun =>
    obtain ⟨d, c, n, list, new, hpending⟩ := hh.actions a ha
    obtain ⟨rfl, ⟨f, hf, hid, hproject, -⟩, hdocuments⟩ := hh.apply_ok hs hpending hrun
    have howned := hpending.owned_of_sketch_eq (x := d.revision c new h.supply) rfl
      (d.sketch_revision c new h.supply)
    exact ⟨owner, hh.push (x := d.revision c new h.supply) hs ⟨f, hf, hid, hproject⟩
      (howned.mono (Nat.le_add_right _ 2)) (Nat.le_add_right _ 2) hdocuments⟩
  | @drew u hle => exact ⟨owner, hh.weaken hle fun a ha ↦ ha⟩

end Sound

theorem Reachable.sound (hreach : Reachable h) : ∃ owner filing, Sound owner filing h := by
  induction hreach with
  | @loaded s u hs =>
    obtain ⟨hdistinct, -, owner, howned⟩ := hs.owned
    exact ⟨owner, s.filing, Sound.start hdistinct howned⟩
  | step _ hstep ih =>
    obtain ⟨owner, filing, hh⟩ := ih
    obtain ⟨owner', hh'⟩ := hh.step hstep
    exact ⟨owner', filing, hh'⟩

/-- A snapshot differs from another one in one document, in which a declaration was exchanged for a
new version with one more attribute list. The new nodes have ids that the snapshot had nowhere, the
id of the declaration is gone, and every other node keeps its id and its kind, and stays around,
inside or beside the declaration. -/
structure Rewritten (s s' : Solution) (d d' : Document) (n new list : Node) : Prop where
  document : d ∈ s.documents
  declaration : n ∈ d.root.preorder
  documents : s'.documents = s.documents.map fun x ↦ x.updatedBy [d']
  id_eq : d'.id = d.id
  version : new ∈ d'.root.preorder
  list_mem : Element.node list ∈ new.children
  kind : new.kind = n.kind
  kinds : ∀ m ∈ list.preorder, m.kind ∈ Kind.attributeParts
  nodup : (new.id :: list.ids).Nodup
  fresh : ∀ id ∈ new.id :: list.ids, ∀ x ∈ s.documents, id ∉ x.root.ids
  mem_ids_iff : ∀ id, id ∈ d'.root.ids ↔
    (id ∈ d.root.ids ∧ id ≠ n.id) ∨ id ∈ new.id :: list.ids
  kept : ∀ m ∈ d.root.preorder, m ≠ n → ∃ m' ∈ d'.root.preorder, m'.id = m.id ∧
    m'.kind = m.kind ∧ (n ∈ m.preorder → new ∈ m'.preorder) ∧
    (m ∈ n.preorder → m' ∈ new.preorder)

theorem Sound.rewritten (hh : Sound owner filing h) (hs : s ∈ h.solutions)
    (ha : h.Pending owner a d c n list new) (hrun : a.apply s t = .ok s' u) :
    ∃ f new' list', f.id = d.id ∧ Rewritten s s' f (d.revision c new t) n new' list' := by
  obtain ⟨-, ⟨f, hf, hid, -, hroot⟩, hdocuments⟩ := hh.apply_ok hs ha hrun
  obtain ⟨name, v, w, hextended⟩ := ha.extended
  obtain ⟨kept, hold, hnew⟩ := hextended.exists_perm_ids c
  have hsketch := d.sketch_revision c new t
  have hids := Node.ids_eq_of_sketch_eq hsketch
  have hfill : f.root = c.fill n := hroot.trans ha.replaces.root_eq
  have hnodup : (c.fill n).ids.Nodup := hfill ▸ (hh.owned s hs f hf).nodup
  obtain ⟨new', hnew', hnewsketch, hkept⟩ :=
    hextended.exists_kept_of_sketch_eq hnodup (hids ▸ ha.owned.nodup) hsketch
  obtain ⟨before, after, hchildren, -⟩ := hextended.children_eq
  obtain ⟨list', hlist', hlistsketch⟩ := Element.exists_node_of_sketch_eq
    (Node.children_eq_of_sketch_eq hnewsketch.symm)
    (hchildren ▸ List.mem_append_cons_self : Element.node list ∈ new.children)
  have hfresh : new'.id :: list'.ids = new.id :: list.ids := by
    rw [Node.id_eq_of_sketch_eq hnewsketch, Node.ids_eq_of_sketch_eq hlistsketch]
  refine ⟨f, new', list', hid, hf, hfill ▸ TreeContext.mem_preorder_fill c n, hdocuments, hid.symm,
    hnew', hlist', (Node.kind_eq_of_sketch_eq hnewsketch).trans hextended.kind,
    fun m hm ↦ ?_, hfresh ▸ hextended.draws.nodup, hfresh ▸ hh.fresh hs ha hf hid hroot,
    fun i ↦ ?_, hfill ▸ hkept⟩
  · obtain ⟨k, hk, hkm⟩ := Node.exists_of_sketch_eq hlistsketch hm
    rw [← Node.kind_eq_of_sketch_eq hkm]
    exact hextended.kinds k hk
  · have hnot : n.id ∉ kept := (List.nodup_cons.1 (hold.nodup_iff.1 hnodup)).1
    have hkeptid : i ∈ kept ↔ i ∈ f.root.ids ∧ i ≠ n.id := by
      rw [hfill, hold.mem_iff, List.mem_cons]
      constructor
      · intro hi
        exact ⟨Or.inr hi, fun h ↦ hnot (h ▸ hi)⟩
      · rintro ⟨hi, hne⟩
        exact hi.resolve_left hne
    rw [hids, hnew.mem_iff, List.mem_append, hfresh, hkeptid, or_comm]

/-- **Identities in a history.** Whatever a host does, the ids in a snapshot are distinct, in every
tree and between the documents. An action that succeeds exchanges the declaration it replaces and
nothing else. -/
theorem Reachable.identities (hreach : Reachable h) :
    (∀ s ∈ h.solutions, s.Distinct) ∧
      ∀ a ∈ h.actions, ∀ s ∈ h.solutions, ∀ s' u, a.apply s h.supply = .ok s' u →
        ∃ b c n x, a.Replaces a.base b c n x ∧
          ∃ d d' new list, d.id = b.id ∧ Rewritten s s' d d' n new list := by
  obtain ⟨owner, filing, hh⟩ := hreach.sound
  refine ⟨fun s hs ↦ hh.distinct hs, fun a ha s hs s' u hrun ↦ ?_⟩
  obtain ⟨b, c, n, list, new, hpending⟩ := hh.actions a ha
  obtain ⟨d, new', list', hid, hrewritten⟩ := hh.rewritten hs hpending hrun
  exact ⟨b, c, n, new, hpending.replaces, d, _, new', list', hid, hrewritten⟩

/-! ### The file of `Holder`, loaded -/

private def loadedProject : Project := (Project.create "Holder" ⟨0⟩).1

private def loadedSolution : Solution :=
  (Solution.empty.withProject loadedProject).withProject
    (loadedProject.addDocument ⟨"Holder.cs"⟩ { Holder.document.root with head.id := ⟨7⟩ } ⟨8⟩).1.1

private def loadedContext : FixContext :=
  { Holder.context with
    solution := loadedSolution, documentId := ⟨8⟩, semantic := loadedSolution.semanticModel }

/-- The fixes for the field are computed, and the first of them is applied. -/
theorem identities_loaded :
    ∃ h : History, h.Reachable ∧ (∀ s ∈ h.solutions, s.Distinct) ∧
      ∃ s ∈ h.solutions, ∃ s' d d' n new list, Rewritten s s' d d' n new list := by
  have hloaded : loadedSolution.Loaded ⟨9⟩ :=
    .document (u := ⟨1⟩) (v := ⟨8⟩) (.project (.empty ⟨0⟩) "Holder") List.mem_cons_self _
      ⟨by decide, by decide, by decide⟩
  have hdistinct : loadedContext.solution.Distinct := by decide
  obtain ⟨d, hd, hdocument⟩ : ∃ d ∈ loadedContext.solution.documents,
      loadedContext.document = .ok d := ⟨_, List.mem_cons_self, rfl⟩
  have hcontents : ∀ d ∈ loadedContext.solution.documents, Holder.field ∈ d.root.preorder ∧
      Holder.type ∈ d.root.preorder ∧ enclosingField d.root loadedContext.node = some Holder.field ∧
      d.id = ⟨8⟩ := by decide
  obtain ⟨hfield, htype, henclosing, hid⟩ := hcontents d hd
  have hreference : Serialization.referenceToMark? loadedContext = some ⟨⟨8⟩, Holder.type⟩ := by
    decide +kernel
  obtain ⟨a, u, hfirst, hmade⟩ := Serialization.excludeFieldAction_of_class .auto hd hfield rfl
    rfl ⟨⟨9⟩, false⟩
  obtain ⟨b, v, hsecond, -⟩ := Serialization.markTypeAction?_of_class .auto hdistinct rfl
    hreference hd htype rfl (by decide) rfl (s := ⟨u, false⟩) rfl
  have hrun : fixes .auto enclosingField loadedContext ⟨⟨9⟩, false⟩ = .ok [a, b] ⟨v, false⟩ :=
    fixes_of_candidates rfl hdocument henclosing hfirst hsecond
  have hstep := Step.offered (h := ⟨⟨9⟩, [loadedSolution], []⟩) List.mem_cons_self rfl hrun
  have hreach : Reachable ⟨v, [loadedSolution], [a, b]⟩ := .step (.loaded hloaded) hstep
  obtain ⟨hall, happlied⟩ := hreach.identities
  refine ⟨_, hreach, hall, loadedSolution, List.mem_cons_self, ?_⟩
  obtain ⟨c, new, -, -, hrevises⟩ := hmade.revises hdistinct
  obtain ⟨s', hrun, -⟩ := hrevises.apply_base hdistinct.documents v
  obtain ⟨-, -, n, -, -, d, d', new, list, -, hrewritten⟩ :=
    happlied a List.mem_cons_self _ List.mem_cons_self _ _ hrun
  exact ⟨s', d, d', n, new, list, hrewritten⟩

end History

end CodeFix
