import CodeFix.Proofs.Fix.Apply
import CodeFix.Proofs.Fix.Offer
import CodeFix.Proofs.Layout

/-!
# What an offered action computes

An offered action replaces its declaration by the version with the attribute and lays the tree out;
either step counts the version of the document up. The tree it leaves depends on the supply, as all
nodes on the way get stamps of their own, but its tokens do not (`tokens_revision`): whenever and
wherever the action is computed, the text is the same.

The tree is never the one of the base, even if a stamp should come up twice, because it has more
tokens (`root_revision_ne`). This is what makes a second action on the same document notice the
first one.
-/

namespace CodeFix

variable {base s : Solution} {d : Document} {c : TreeContext} {n new : Node} {t u : Supply}

/-! ## The revised document -/

namespace Document

/-- The document with another node in the hole of its tree, laid out. -/
def revision (d : Document) (c : TreeContext) (new : Node) (t : Supply) : Document :=
  { d with
    version := d.version + 2
    root := Node.layout (Newline.detect (c.fill new).text) ⟨t.next + 1, []⟩
      ((c.restamp ⟨t.next, []⟩).fill new) }

@[simp] theorem revision_id : (d.revision c new t).id = d.id := rfl

@[simp] theorem revision_version : (d.revision c new t).version = d.version + 2 := rfl

theorem tokens_revision (d : Document) (c : TreeContext) (new : Node) (t : Supply) :
    (d.revision c new t).root.tokens =
      (c.fill new).laidOut (Newline.detect (c.fill new).text) := by
  rw [revision, Node.tokens_layout, TreeContext.laidOut_fill_restamp]

/-- Layout leaves the tokens around the other node alone, if nothing there waits for it. -/
theorem text_revision (d : Document) (hc : c.hasMark = false) (new : Node) (t : Supply) :
    (d.revision c new t).text = Token.textAll c.tokensBefore ++
      Token.textAll (new.laidOut (Newline.detect (c.fill new).text)) ++
      Token.textAll c.tokensAfter := by
  rw [text, Node.text, tokens_revision, TreeContext.laidOut_fill hc, Token.textAll_append,
    Token.textAll_append]

theorem sketch_revision (d : Document) (c : TreeContext) (new : Node) (t : Supply) :
    (d.revision c new t).root.sketch Node.noLabel = (c.fill new).sketch Node.noLabel := by
  rw [revision, Node.sketch_layout, TreeContext.sketch_fill_restamp]

/-- What is seen of a document without looking at its tree. -/
def shown (d : Document) : DocumentId × Nat × String := (d.id, d.version, d.text)

/-- What is seen after an edit does not depend on the supply. -/
theorem shown_revision_eq (d : Document) (c : TreeContext) (new : Node) (t u : Supply) :
    (d.revision c new t).shown = (d.revision c new u).shown := by
  have htext : (d.revision c new t).text = (d.revision c new u).text := by
    rw [text, text, Node.text, Node.text, tokens_revision, tokens_revision]
  rw [shown, shown, htext]
  rfl

theorem root_revision_ne (hroot : d.root = c.fill n) (hlength : n.tokens.length < new.tokens.length)
    (t : Supply) : (d.revision c new t).root ≠ d.root := by
  intro h
  have htokens := congrArg List.length (congrArg Node.tokens h)
  rw [tokens_revision, Node.length_laidOut, hroot, TreeContext.tokens_fill,
    TreeContext.tokens_fill] at htokens
  simp only [List.length_append] at htokens
  omega

/-! ## Replacing and laying out -/

theorem replaceIn_fill (d : Document) (hn : n.id ∉ c.idsBefore) (new : Node) (t : Supply) :
    d.replaceIn (c.fill n) n.id new t =
      .ok (d.withRoot ((c.restamp ⟨t.next, []⟩).fill new)) ⟨t.next + 1⟩ := by
  have hstamp : (liftM Stamp.fresh : EditM Stamp) t = .ok ⟨t.next, []⟩ ⟨t.next + 1⟩ := rfl
  rw [replaceIn]
  refine (bind_of_ok hstamp).trans ?_
  rw [TreeContext.replace?_fill hn]
  rfl

theorem layout_of_marked (d : Document) (hmarked : new.marked = true) (t : Supply) :
    (d.withRoot ((c.restamp ⟨t.next, []⟩).fill new)).layout ⟨t.next + 1⟩ =
      (d.revision c new t, ⟨t.next + 2⟩) := by
  have hnew : new.hasMark = true := by
    obtain ⟨head, children⟩ := new
    rw [Node.hasMark, Bool.or_eq_true]
    exact Or.inl hmarked
  have htext : (d.withRoot ((c.restamp ⟨t.next, []⟩).fill new)).text = (c.fill new).text := by
    rw [text, withRoot_root, TreeContext.text_fill, TreeContext.tokensBefore_restamp,
      TreeContext.tokensAfter_restamp, ← TreeContext.text_fill]
  rw [layout, withRoot_root, TreeContext.hasMark_fill, hnew, Bool.or_true, if_pos rfl, htext]
  rfl

end Document

/-- The action computes the revision of one document of the base, under every supply. -/
structure CodeAction.Revises (a : CodeAction) (base : Solution) (d : Document) (c : TreeContext)
    (new : Node) : Prop where
  base_eq : a.base = base
  document : d ∈ base.documents
  root_ne : ∀ t, (d.revision c new t).root ≠ d.root
  compute : ∀ t, ∃ payload, a.compute t = .ok payload ⟨t.next + 2⟩ ∧ payload.Within base ∧
    payload.touched base = [d.revision c new t]

theorem CodeAction.Revises.changedDocuments {a : CodeAction} (hs : base.DistinctDocuments)
    (h : a.Revises base d c new) (t : Supply) :
    a.changedDocuments t = .ok [d.revision c new t] ⟨t.next + 2⟩ := by
  obtain ⟨payload, hcompute, hwithin, htouched⟩ := h.compute t
  rw [← h.base_eq] at hs hwithin htouched
  rw [changedDocuments_of_compute hs hcompute hwithin, htouched]

/-- In the snapshot it was computed for the action can be applied. -/
theorem CodeAction.Revises.apply_base {a : CodeAction} (hs : base.DistinctDocuments)
    (h : a.Revises base d c new) (t : Supply) :
    ∃ s, a.apply base t = .ok s ⟨t.next + 2⟩ ∧
      s.documents = base.documents.map fun x ↦ x.updatedBy [d.revision c new t] := by
  obtain ⟨payload, hcompute, hwithin, htouched⟩ := h.compute t
  have hbase := h.base_eq
  subst hbase
  rw [← htouched]
  exact apply_base_of_compute hs hcompute hwithin

/-! ## The payload -/

namespace Solution

theorem knows_of_updatedBy (hd : base.Knows d)
    (h : s.documents = base.documents.map fun x ↦ x.updatedBy [d]) :
    ∀ x ∈ s.documents, base.Knows x := by
  intro x hx
  rw [h] at hx
  obtain ⟨y, hy, rfl⟩ := List.mem_map.1 hx
  rw [Document.updatedBy_cons, Document.updatedBy_nil]
  split
  · exact hd
  · exact knows_of_mem hy

/-- The tree that the node is replaced in need not be that of the document which owns the node. -/
theorem replaceNode_of_owner (hs : base.DistinctDocuments)
    (howner : base.documentOwning? n.id = some d) (hid : n.id ∉ c.idsBefore) (new : Node)
    (t : Supply) :
    ∃ s, base.replaceNode (c.fill n) n.id new t = .ok s ⟨t.next + 1⟩ ∧
      base.withDocument? (d.withRoot ((c.restamp ⟨t.next, []⟩).fill new)) = some s ∧
      s.documents = base.documents.map fun x ↦
        x.updatedBy [d.withRoot ((c.restamp ⟨t.next, []⟩).fill new)] := by
  obtain ⟨s, hwith, hdocuments⟩ := documents_withDocument? (d := d.withRoot
    ((c.restamp ⟨t.next, []⟩).fill new)) hs (List.mem_of_find?_eq_some howner) rfl rfl
  refine ⟨s, ?_, hwith, hdocuments⟩
  have hfound : EditM.ofOption (.nodeNotFound n.id "solution") (some d) t = .ok d t := rfl
  rw [replaceNode, howner, bind_of_ok hfound, bind_of_ok (d.replaceIn_fill hid new t), hwith]
  rfl

theorem replaceNode_fill (hs : base.Distinct) (hd : d ∈ base.documents) (hroot : d.root = c.fill n)
    (new : Node) (t : Supply) :
    ∃ s, base.replaceNode d.root n.id new t = .ok s ⟨t.next + 1⟩ ∧
      base.withDocument? (d.withRoot ((c.restamp ⟨t.next, []⟩).fill new)) = some s ∧
      s.documents = base.documents.map fun x ↦
        x.updatedBy [d.withRoot ((c.restamp ⟨t.next, []⟩).fill new)] := by
  have hn : n ∈ d.root.preorder := hroot ▸ TreeContext.mem_preorder_fill c n
  have hid : n.id ∉ c.idsBefore := TreeContext.id_not_mem_idsBefore (hroot ▸ hs.nodes.nodup_ids hd)
  rw [hroot]
  exact replaceNode_of_owner hs.documents (hs.nodes.documentOwning?_of_mem hd hn) hid new t

end Solution

theorem layoutDocuments_of_updatedBy (hs : base.DistinctDocuments) (hd : d ∈ base.documents)
    {edited : Document} (hid : edited.id = d.id) (hproject : edited.project = d.project)
    (hversion : d.version ≠ edited.version)
    (hdocuments : s.documents = base.documents.map fun x ↦ x.updatedBy [edited]) (u : Supply) :
    ∃ s', CodeAction.layoutDocuments s (s.changedIds base) s u = .ok s' (edited.layout u).2 ∧
      s.withDocument? (edited.layout u).1 = some s' ∧
      s'.documents = base.documents.map fun x ↦ x.updatedBy [(edited.layout u).1] := by
  obtain ⟨hlaidId, hlaidProject, -⟩ := edited.layout_fields u
  have hdistinct := Solution.distinctDocuments_of_updatedBy hs hdocuments
  have hids : s.changedIds base = [d.id] := by
    rw [Solution.changedIds, hdocuments,
      Solution.filter_isChange_of_version_ne hs hd hid hproject hversion, List.map_singleton, hid]
  have hfound : s.document? d.id = some edited := by
    rw [Solution.document?_updatedBy hdocuments, Solution.document?_of_mem hs hd, Option.map_some,
      Document.updatedBy_cons, if_pos hid]
  have hmem := (Solution.document?_eq_some_iff hdistinct).1 hfound
  obtain ⟨s', hwith, hdocuments'⟩ := Solution.documents_withDocument? (d := (edited.layout u).1)
    hdistinct hmem.1 hlaidId.symm hlaidProject.symm
  refine ⟨s', ?_, hwith, ?_⟩
  · have hlayout : (liftM edited.layout : EditM Document) u =
        .ok (edited.layout u).1 (edited.layout u).2 := Supply.liftM_of_eq rfl
    rw [hids, CodeAction.layoutDocuments, hfound]
    refine (bind_of_ok hlayout).trans ?_
    rw [hwith]
    rfl
  · rw [hdocuments', hdocuments, List.map_map]
    exact List.map_congr_left fun x _ ↦ Document.updatedBy_updatedBy_of_id_eq hlaidId.symm

theorem layoutDocuments_of_marked (hs : base.DistinctDocuments) (hd : d ∈ base.documents)
    (hmarked : new.marked = true) {t : Supply} {s : Solution}
    (hdocuments : s.documents = base.documents.map fun x ↦
      x.updatedBy [d.withRoot ((c.restamp ⟨t.next, []⟩).fill new)]) :
    ∃ s', CodeAction.layoutDocuments s (s.changedIds base) s ⟨t.next + 1⟩ =
        .ok s' ⟨t.next + 2⟩ ∧
      s'.documents = base.documents.map fun x ↦ x.updatedBy [d.revision c new t] := by
  obtain ⟨s', hrun, -, hdocuments'⟩ := layoutDocuments_of_updatedBy hs hd (Document.withRoot_id _ _)
    (Document.withRoot_project _ _) (Nat.ne_of_lt (Nat.lt_succ_self _)) hdocuments ⟨t.next + 1⟩
  rw [Document.layout_of_marked (c := c) d hmarked t] at hrun hdocuments'
  exact ⟨s', hrun, hdocuments'⟩

namespace CodeAction

variable {a : CodeAction}

theorem compute_of_solution (hs : base.DistinctDocuments) (hd : d ∈ base.documents)
    (hmarked : new.marked = true) (hbase : a.base = base) {t : Supply}
    (hproduce : a.producer t = .ok (.solution s) ⟨t.next + 1⟩)
    (hdocuments : s.documents = base.documents.map fun x ↦
      x.updatedBy [d.withRoot ((c.restamp ⟨t.next, []⟩).fill new)]) :
    ∃ s', a.compute t = .ok (.solution s') ⟨t.next + 2⟩ ∧
      s'.documents = base.documents.map fun x ↦ x.updatedBy [d.revision c new t] := by
  obtain ⟨s', hlayout, hdocuments'⟩ := layoutDocuments_of_marked hs hd hmarked hdocuments
  refine ⟨s', ?_, hdocuments'⟩
  rw [compute, bind_of_ok hproduce, hbase]
  exact bind_of_ok hlayout

theorem apply_base_of_solution (hs : base.DistinctDocuments) (hd : d ∈ base.documents)
    (hmarked : new.marked = true) (hbase : a.base = base) {t : Supply}
    (hproduce : a.producer t = .ok (.solution s) ⟨t.next + 1⟩)
    (hdocuments : s.documents = base.documents.map fun x ↦
      x.updatedBy [d.withRoot ((c.restamp ⟨t.next, []⟩).fill new)]) :
    ∃ changed result, a.changedSolution t = .ok changed ⟨t.next + 2⟩ ∧
      changed.documents = (base.documents.map fun x ↦ x.updatedBy [d.revision c new t]) ∧
      a.apply base t = .ok result ⟨t.next + 2⟩ ∧ result.documents = changed.documents := by
  obtain ⟨changed, hcompute, hchanged⟩ :=
    compute_of_solution hs hd hmarked hbase hproduce hdocuments
  have hsolution : a.changedSolution t = .ok changed ⟨t.next + 2⟩ := by
    rw [CodeAction.changedSolution, bind_of_ok hcompute]
    rfl
  subst hbase
  have hknows : a.base.Knows (d.revision c new t) := ⟨d, hd, rfl, rfl⟩
  have hversion : d.version ≠ (d.revision c new t).version := by
    rw [Document.revision_version]
    omega
  have htouched : (Payload.solution changed).touched a.base = [d.revision c new t] := by
    rw [Payload.touched, hchanged]
    exact Solution.filter_isChange_of_version_ne hs hd rfl rfl hversion
  obtain ⟨result, happly, hresult⟩ :=
    apply_base_of_compute hs hcompute (Solution.knows_of_updatedBy hknows hchanged)
  rw [htouched, ← hchanged] at hresult
  exact ⟨changed, result, hsolution, hchanged, happly, hresult⟩

/-- The action replaces a node in a document of its base, in the document alone or in the whole
solution. -/
structure Replaces (a : CodeAction) (base : Solution) (d : Document) (c : TreeContext)
    (n new : Node) : Prop where
  base_eq : a.base = base
  document : d ∈ base.documents
  root_eq : d.root = c.fill n
  marked : new.marked = true
  producer : a.producer = (do return .document (← d.replaceNode n.id new)) ∨
    a.producer = (do return .solution (← base.replaceNode d.root n.id new))

namespace Replaces

theorem producer_cases (hs : base.Distinct) (h : a.Replaces base d c n new) (t : Supply) :
    a.producer t =
        .ok (.document (d.withRoot ((c.restamp ⟨t.next, []⟩).fill new))) ⟨t.next + 1⟩ ∨
      ∃ s, a.producer t = .ok (.solution s) ⟨t.next + 1⟩ ∧
        s.documents = base.documents.map fun x ↦
          x.updatedBy [d.withRoot ((c.restamp ⟨t.next, []⟩).fill new)] := by
  have hid : n.id ∉ c.idsBefore :=
    TreeContext.id_not_mem_idsBefore (h.root_eq ▸ hs.nodes.nodup_ids h.document)
  rcases h.producer with hproducer | hproducer
  · left
    rw [hproducer, Document.replaceNode, h.root_eq]
    exact bind_of_ok (d.replaceIn_fill hid new t)
  · obtain ⟨s, hreplace, -, hdocuments⟩ :=
      Solution.replaceNode_fill hs h.document h.root_eq new t
    refine Or.inr ⟨s, ?_, hdocuments⟩
    rw [hproducer]
    exact bind_of_ok hreplace

/-- The payload is the revision of the document, alone or as the one change of the solution. -/
theorem compute_cases (hs : base.Distinct) (h : a.Replaces base d c n new) (t : Supply) :
    a.compute t = .ok (.document (d.revision c new t)) ⟨t.next + 2⟩ ∨
      ∃ s, a.compute t = .ok (.solution s) ⟨t.next + 2⟩ ∧
        s.documents = base.documents.map fun x ↦ x.updatedBy [d.revision c new t] := by
  rcases h.producer_cases hs t with hproduce | ⟨s, hproduce, hdocuments⟩
  · left
    rw [compute, bind_of_ok hproduce]
    exact bind_of_ok (Supply.liftM_of_eq (d.layout_of_marked h.marked t))
  · exact Or.inr (compute_of_solution hs.documents h.document h.marked h.base_eq hproduce
      hdocuments)

theorem changedSolution (hs : base.Distinct) (h : a.Replaces base d c n new) (t : Supply) :
    ∃ s, a.changedSolution t = .ok s ⟨t.next + 2⟩ ∧
      s.documents = base.documents.map fun x ↦ x.updatedBy [d.revision c new t] := by
  rcases h.compute_cases hs t with hcompute | ⟨s, hcompute, hdocuments⟩
  · obtain ⟨s, hwith, hdocuments⟩ :=
      Solution.documents_withDocument? (d := d.revision c new t) hs.documents h.document rfl rfl
    refine ⟨s, ?_, hdocuments⟩
    rw [CodeAction.changedSolution, bind_of_ok hcompute, h.base_eq]
    change EditM.ofOption _ (base.withDocument? (d.revision c new t)) _ = _
    rw [hwith]
    rfl
  · refine ⟨s, ?_, hdocuments⟩
    rw [CodeAction.changedSolution, bind_of_ok hcompute]
    rfl

theorem revises (hs : base.Distinct) (h : a.Replaces base d c n new)
    (hlength : n.tokens.length < new.tokens.length) : a.Revises base d c new := by
  refine ⟨h.base_eq, h.document, Document.root_revision_ne h.root_eq hlength, fun t ↦ ?_⟩
  have hchange : base.isChange (d.revision c new t) = true :=
    Solution.isChange_of_version_ne hs.documents h.document rfl (by
      rw [Document.revision_version]
      omega)
  have hknows : base.Knows (d.revision c new t) := ⟨d, h.document, rfl, rfl⟩
  rcases h.compute_cases hs t with hcompute | ⟨s, hcompute, hdocuments⟩
  · exact ⟨_, hcompute, hknows, List.filter_cons_of_pos hchange⟩
  · refine ⟨_, hcompute, Solution.knows_of_updatedBy hknows hdocuments, ?_⟩
    rw [Payload.touched, hdocuments, Solution.filter_isChange_updatedBy hs.documents hknows]
    exact List.filter_cons_of_pos hchange

end Replaces

end CodeAction

namespace Serialization

variable {o : Offer} {name : String} {a : CodeAction}

theorem Offer.Issued.replaces {u v : Supply} (h : o.Issued base d n name u v a) :
    ∃ c list new, n.Extended list new name u v ∧ a.Replaces base d c n new := by
  obtain ⟨list, new, hextended, hproducer⟩ := h.producer
  obtain ⟨c, hroot⟩ := TreeContext.exists_fill_of_mem h.declaration
  exact ⟨c, list, new, hextended, h.base_eq, h.document, hroot, hextended.marked, hproducer⟩

/-- **The payload of an offered action.** It is the revision of one document. -/
theorem Offer.Made.revises (hs : base.Distinct) (h : o.Made base d n name a) :
    ∃ c updated, d.root = TreeContext.fill c n ∧ n.Annotated name updated ∧
      a.Revises base d c updated := by
  obtain ⟨c, hroot⟩ := TreeContext.exists_fill_of_mem h.declaration
  obtain ⟨updated, hupdated, hproducer⟩ := h.producer
  have hreplaces : a.Replaces base d c n updated :=
    ⟨h.base_eq, h.document, hroot, hupdated.marked, hproducer⟩
  exact ⟨c, updated, hroot, hupdated, hreplaces.revises hs hupdated.length_tokens_lt⟩

end Serialization

end CodeFix
