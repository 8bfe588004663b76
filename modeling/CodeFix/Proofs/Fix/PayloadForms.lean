import CodeFix.Proofs.Fix.Revision
import CodeFix.Proofs.Solution.View

/-!
# One edit, two forms of payload

An edit of one document can be answered as the new version of the document or as the snapshot that
contains it. The first form is laid out and then filed; the second is filed, compared with the base,
laid out where it differs and filed again. Both come to the same snapshot, since of two versions of
a document that are filed one after another the later one stays (`exists_changedSolution`).
Everything else that is asked of an action is read off that snapshot and the base.

This is an equation between runs that draw the same stamps. In two runs that draw different ones the
documents differ as values but show the same (`Document.view_edit`), and putting in documents that
show the same has the same outcome (`putDocuments_view`).
-/

namespace CodeFix

variable {base current : Solution} {d : Document} {c : TreeContext} {n new : Node} {t u : Supply}

/-! ## The edited document -/

namespace Document

/-- The document with another node in the hole of its tree, laid out where something is marked. -/
def edit (d : Document) (c : TreeContext) (new : Node) (t : Supply) : Document :=
  ((d.withRoot ((c.restamp ⟨t.next, []⟩).fill new)).layout ⟨t.next + 1⟩).1

@[simp] theorem edit_id : (d.edit c new t).id = d.id := (layout_fields _ _).1

@[simp] theorem edit_project : (d.edit c new t).project = d.project := (layout_fields _ _).2.1

theorem version_lt_edit (d : Document) (c : TreeContext) (new : Node) (t : Supply) :
    d.version < (d.edit c new t).version := by
  have hversion := congrArg DocumentView.version
    (view_layout (d.withRoot ((c.restamp ⟨t.next, []⟩).fill new)) ⟨t.next + 1⟩)
  change (d.edit c new t).version = _ at hversion
  rw [hversion]
  split
  · exact Nat.lt_add_of_pos_right Nat.two_pos
  · exact Nat.lt_succ_self _

/-- **Edits and stamps.** What an edit leaves behind does not show which stamps it drew. -/
theorem view_edit (d : Document) (c : TreeContext) (new : Node) (t u : Supply) :
    (d.edit c new t).view = (d.edit c new u).view := by
  have hview : (d.withRoot ((c.restamp ⟨t.next, []⟩).fill new)).view =
      (d.withRoot ((c.restamp ⟨u.next, []⟩).fill new)).view := by
    simp only [view, withRoot_root, TreeContext.tokens_fill, TreeContext.tokensBefore_restamp,
      TreeContext.tokensAfter_restamp, TreeContext.sketch_fill_restamp]
    rfl
  rw [edit, edit, view_layout, view_layout, hview, text_eq_of_view_eq hview]
  simp only [withRoot_root, withRoot_version, TreeContext.hasMark_fill,
    TreeContext.hasMark_restamp, TreeContext.laidOut_fill_restamp]

end Document

/-! ## Nodes that are not there -/

theorem Document.replaceNode_of_not_mem {old : NodeId} (h : old ∉ d.root.ids) (new : Node)
    (t : Supply) :
    d.replaceNode old new t = .error (.nodeNotFound old d.path.text) ⟨t.next + 1⟩ := by
  have hstamp : (liftM Stamp.fresh : EditM Stamp) t = .ok ⟨t.next, []⟩ ⟨t.next + 1⟩ := rfl
  rw [replaceNode, replaceIn]
  refine (bind_of_ok hstamp).trans ?_
  rw [Node.replace?_eq_none h]
  rfl

theorem Solution.replaceNode_of_not_mem {old : NodeId}
    (h : ∀ x ∈ base.documents, old ∉ x.root.ids) (root new : Node) (t : Supply) :
    base.replaceNode root old new t = .error (.nodeNotFound old "solution") t := by
  have hnone : base.documentOwning? old = none :=
    List.find?_eq_none.2 fun x hx hcontains ↦ h x hx (Node.contains_iff.1 hcontains)
  rw [replaceNode, hnone]
  rfl

namespace CodeAction

/-! ## The two forms -/

/-- The action that replaces a node of a document and answers with the document. -/
def editingDocument (title key : String) (base : Solution) (d : Document) (old : NodeId)
    (new : Node) : CodeAction where
  title := title
  equivalenceKey := key
  base := base
  producer := do return .document (← d.replaceNode old new)

/-- The action that replaces a node of a document and answers with the whole snapshot. -/
def editingSolution (title key : String) (base : Solution) (d : Document) (old : NodeId)
    (new : Node) : CodeAction where
  title := title
  equivalenceKey := key
  base := base
  producer := do return .solution (← base.replaceNode d.root old new)

variable {a b : CodeAction}

/-- **Both forms come to one snapshot**, the base with the edited document filed. -/
theorem exists_changedSolution (hs : base.Distinct) (hd : d ∈ base.documents)
    (hroot : d.root = c.fill n) (title title' key key' : String) (new : Node) (t : Supply) :
    ∃ s u, base.withDocument? (d.edit c new t) = some s ∧
      s.documents = base.documents.map (fun x ↦ x.updatedBy [d.edit c new t]) ∧
      (editingDocument title key base d n.id new).changedSolution t = .ok s u ∧
      (editingSolution title' key' base d n.id new).changedSolution t = .ok s u := by
  have hid : n.id ∉ c.idsBefore := TreeContext.id_not_mem_idsBefore (hroot ▸ hs.nodes.nodup_ids hd)
  have hedited : d.id = (d.edit c new t).id := Document.edit_id.symm
  obtain ⟨s, hwith, hdocuments⟩ := Solution.documents_withDocument? hs.documents hd hedited
    Document.edit_project.symm
  obtain ⟨v, hedit⟩ : ∃ v, (d.withRoot ((c.restamp ⟨t.next, []⟩).fill new)).layout ⟨t.next + 1⟩ =
      (d.edit c new t, v) := ⟨_, rfl⟩
  -- in the solution form the edited document is in the snapshot before it is laid out
  obtain ⟨s₁, hreplace, hwith₁, hdocuments₁⟩ := Solution.replaceNode_fill hs hd hroot new t
  obtain ⟨s', hlayout, hwith', -⟩ := layoutDocuments_of_updatedBy hs.documents hd
    (Document.withRoot_id _ _) (Document.withRoot_project _ _)
    (Nat.ne_of_lt (Nat.lt_succ_self _)) hdocuments₁ ⟨t.next + 1⟩
  rw [hedit] at hlayout hwith'
  have hlater : s₁.withDocument? (d.edit c new t) = base.withDocument? (d.edit c new t) :=
    Solution.withDocument?_withDocument? ((d.withRoot_id _).trans Document.edit_id.symm)
      ((d.withRoot_project _).trans Document.edit_project.symm) hwith₁
  obtain rfl : s' = s := Option.some_inj.1 ((hwith'.symm.trans hlater).trans hwith)
  refine ⟨s', v, hwith, hdocuments, ?_, ?_⟩
  · have hreplace : d.replaceNode n.id new t = _ := hroot ▸ d.replaceIn_fill hid new t
    have hproduce : (editingDocument title key base d n.id new).producer t =
        .ok (.document (d.withRoot ((c.restamp ⟨t.next, []⟩).fill new))) ⟨t.next + 1⟩ :=
      bind_of_ok hreplace
    have hcompute : (editingDocument title key base d n.id new).compute t =
        .ok (.document (d.edit c new t)) v := by
      rw [compute, bind_of_ok hproduce]
      exact bind_of_ok (Supply.liftM_of_eq hedit)
    rw [changedSolution, bind_of_ok hcompute]
    change EditM.ofOption _ (base.withDocument? (d.edit c new t)) _ = _
    rw [hwith]
    rfl
  · have hproduce : (editingSolution title' key' base d n.id new).producer t =
        .ok (.solution s₁) ⟨t.next + 1⟩ := bind_of_ok hreplace
    have hcompute : (editingSolution title' key' base d n.id new).compute t =
        .ok (.solution s') v := by
      rw [compute, bind_of_ok hproduce]
      exact bind_of_ok hlayout
    rw [changedSolution, bind_of_ok hcompute]
    rfl

/-- The one document that is different in the snapshot is the one that is reported. -/
theorem changedDocuments_of_edit (hs : a.base.DistinctDocuments) (hd : d ∈ a.base.documents)
    {s : Solution} {v : Supply}
    (hdocuments : s.documents = a.base.documents.map fun x ↦ x.updatedBy [d.edit c new t])
    (hsolution : a.changedSolution t = .ok s v) :
    a.changedDocuments t = .ok [d.edit c new t] v := by
  have hdistinct := Solution.distinctDocuments_of_updatedBy hs hdocuments
  rw [changedDocuments, bind_of_ok hsolution, Solution.changedDocuments_eq_filter hdistinct,
    hdocuments, Solution.filter_isChange_of_version_ne hs hd Document.edit_id
      Document.edit_project (Nat.ne_of_lt (d.version_lt_edit c new t))]
  rfl

/-! ## Putting in documents that show the same -/

theorem obstacle?_congr (hbase : a.base = b.base) {x y : Document} (h : x.view = y.view)
    (current : Solution) : a.obstacle? current x = b.obstacle? current y := by
  have hid : x.id = y.id := congrArg DocumentView.id h
  have hpath : x.path = y.path := congrArg DocumentView.path h
  rw [obstacle?, obstacle?, hbase, hid, hpath]

/-- **Putting documents in** shows no more than the documents do. -/
theorem putDocuments_view (hbase : a.base = b.base) (current : Solution) {ds ds' : List Document}
    (hds : ds.map Document.view = ds'.map Document.view) {s s' : Solution}
    (hs : s.view = s'.view) :
    (a.putDocuments current ds s).map Solution.view =
      (b.putDocuments current ds' s').map Solution.view := by
  induction ds generalizing ds' s s' with
  | nil =>
    cases ds' with
    | nil => exact congrArg Except.ok hs
    | cons y ys => cases hds
  | cons x xs ih =>
    cases ds' with
    | nil => cases hds
    | cons y ys =>
      obtain ⟨hxy, hrest⟩ := List.cons.inj hds
      have hpath : x.path = y.path := congrArg DocumentView.path hxy
      have hnext := Solution.view_withDocument? hs hxy
      rw [putDocuments, putDocuments, obstacle?_congr hbase hxy, hpath]
      cases b.obstacle? current y with
      | some e => rfl
      | none =>
        cases hx : s.withDocument? x with
        | none =>
          rw [hx] at hnext
          rw [Option.map_eq_none_iff.1 hnext.symm]
        | some next =>
          rw [hx] at hnext
          obtain ⟨next', hy, hview⟩ := Option.map_eq_some_iff.1 hnext.symm
          rw [hy]
          exact ih hrest hview.symm

/-- Actions that touch documents that show the same have the same outcome in every snapshot. -/
theorem apply_view (hbase : a.base = b.base) {ds ds' : List Document} {t' u' : Supply}
    (ha : a.changedDocuments t = .ok ds t') (hb : b.changedDocuments u = .ok ds' u')
    (hds : ds.map Document.view = ds'.map Document.view) (current : Solution) :
    (∃ s s', a.apply current t = .ok s t' ∧ b.apply current u = .ok s' u' ∧ s.view = s'.view) ∨
      ∃ e, a.apply current t = .error e t' ∧ b.apply current u = .error e u' := by
  have hput := putDocuments_view hbase current hds (rfl : current.view = current.view)
  rw [apply_of_changedDocuments ha, apply_of_changedDocuments hb]
  cases hs : a.putDocuments current ds current with
  | ok s =>
    cases hs' : b.putDocuments current ds' current with
    | ok s' =>
      rw [hs, hs'] at hput
      exact Or.inl ⟨s, s', rfl, rfl, Except.ok.inj hput⟩
    | error e => rw [hs, hs'] at hput; cases hput
  | error e =>
    cases hs' : b.putDocuments current ds' current with
    | ok s' => rw [hs, hs'] at hput; cases hput
    | error e' =>
      rw [hs, hs'] at hput
      cases Except.error.inj hput
      exact Or.inr ⟨e, rfl, rfl⟩

/-! ## The forms agree -/

/-- **The two forms of payload agree.** For a node of the document the edit can be answered with the
document or with the snapshot, and in whatever states of the supply the two actions are computed:
they lead to the same snapshot and report the same documents, except for stamps, and applied to the
same solution they have the same outcome. For a node that no document has both fail. -/
theorem payload_forms_agree (hs : base.Distinct) (hd : d ∈ base.documents)
    (title title' key key' : String) (new : Node) :
    (∀ old ∈ d.root.ids, ∀ t u,
      (∃ s s' t' u',
        (editingDocument title key base d old new).changedSolution t = .ok s t' ∧
        (editingSolution title' key' base d old new).changedSolution u = .ok s' u' ∧
        s.view = s'.view) ∧
      (∃ ds ds' t' u',
        (editingDocument title key base d old new).changedDocuments t = .ok ds t' ∧
        (editingSolution title' key' base d old new).changedDocuments u = .ok ds' u' ∧
        ds.map Document.view = ds'.map Document.view) ∧
      ∀ current,
        (∃ s s' t' u',
          (editingDocument title key base d old new).apply current t = .ok s t' ∧
          (editingSolution title' key' base d old new).apply current u = .ok s' u' ∧
          s.view = s'.view) ∨
        ∃ e t' u',
          (editingDocument title key base d old new).apply current t = .error e t' ∧
          (editingSolution title' key' base d old new).apply current u = .error e u') ∧
    ∀ old, (∀ x ∈ base.documents, old ∉ x.root.ids) → ∀ t u,
      (∃ t', (editingDocument title key base d old new).producer t =
        .error (.nodeNotFound old d.path.text) t') ∧
      ∃ u', (editingSolution title' key' base d old new).producer u =
        .error (.nodeNotFound old "solution") u' := by
  refine ⟨fun old hold t u ↦ ?_, fun old hold t u ↦ ?_⟩
  · obtain ⟨n, hn, rfl⟩ := List.mem_map.1 hold
    obtain ⟨c, hroot⟩ := TreeContext.exists_fill_of_mem hn
    obtain ⟨s, t', hwith, hdocuments, hsolution, -⟩ :=
      exists_changedSolution hs hd hroot title title' key key' new t
    obtain ⟨s', u', hwith', hdocuments', -, hsolution'⟩ :=
      exists_changedSolution hs hd hroot title title' key key' new u
    have hview : (d.edit c new t).view = (d.edit c new u).view := d.view_edit c new t u
    have hfiled := Solution.view_withDocument? (rfl : base.view = base.view) hview
    rw [hwith, hwith'] at hfiled
    have hds := changedDocuments_of_edit hs.documents hd hdocuments hsolution
    have hds' := changedDocuments_of_edit hs.documents hd hdocuments' hsolution'
    have hsame : [d.edit c new t].map Document.view = [d.edit c new u].map Document.view :=
      congrArg (fun x ↦ [x]) hview
    refine ⟨⟨s, s', t', u', hsolution, hsolution', Option.some_inj.1 hfiled⟩,
      ⟨_, _, t', u', hds, hds', hsame⟩, fun current ↦ ?_⟩
    have hbase : (editingDocument title key base d n.id new).base =
        (editingSolution title' key' base d n.id new).base := rfl
    rcases apply_view hbase hds hds' hsame current with ⟨r, r', hr, hr', hshow⟩ | ⟨e, he, he'⟩
    · exact Or.inl ⟨r, r', t', u', hr, hr', hshow⟩
    · exact Or.inr ⟨e, t', u', he, he'⟩
  · exact ⟨⟨_, bind_of_error (Document.replaceNode_of_not_mem (hold d hd) new t)⟩,
      _, bind_of_error (Solution.replaceNode_of_not_mem hold d.root new u)⟩

/-- In the file of `Holder` the field is laid out anew in both forms. -/
theorem payload_forms_agree_holder :
    ∃ s s' t' u',
      (editingDocument "Space" "Space" Holder.solution Holder.document Holder.field.id
        (Holder.field.mark ⟨50, []⟩)).changedSolution ⟨100⟩ = .ok s t' ∧
      (editingSolution "Space" "Space" Holder.solution Holder.document Holder.field.id
        (Holder.field.mark ⟨50, []⟩)).changedSolution ⟨200⟩ = .ok s' u' ∧ s.view = s'.view := by
  have hdistinct : Holder.solution.Distinct := by decide
  have hdocument : Holder.document ∈ Holder.solution.documents := by decide
  have hfield : Holder.field.id ∈ Holder.document.root.ids := by decide
  exact ((payload_forms_agree hdistinct hdocument "Space" "Space" "Space" "Space" _).1
    Holder.field.id hfield ⟨100⟩ ⟨200⟩).1

end CodeAction

end CodeFix
