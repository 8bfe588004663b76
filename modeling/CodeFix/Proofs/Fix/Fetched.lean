import CodeFix.Proofs.Attribute.Text
import CodeFix.Proofs.Fix.Revision

/-!
# Marking a type in the tree that the host serves

A host may have a newer tree of the document in which the type is declared than the snapshot has.
Three trees of one document are in play then: that of the snapshot, in which the declaration was
found and by which its document is known, the fetched one, in which the declaration is edited, and
the result. The result is the fetched tree with the declaration exchanged, so nothing comes back
that is only in the snapshot (`CodeAction.Splices`), and the snapshot decides only which document it
is and whether the action may be applied.

What can go wrong is decided by the fetched tree as well: the declaration may be gone from it, or
may have become a node that carries no attributes (`markTypeAction?_fetched`).
-/

namespace CodeFix

variable {base changed : Solution} {d d' : Document} {n root : Node} {name before behind : String}
  {text : String} {u : Supply}

/-! ## What the action leaves -/

/-- The text of a declaration that got a list and was laid out, where it stands between two texts.
-/
def Node.FormattedBetween (n : Node) (name before behind text : String) : Prop :=
  ∃ updated, n.Annotated name updated ∧
    text = Token.textAll (updated.laidOut (Newline.detect (before ++ updated.text ++ behind)))

theorem Node.FormattedBetween.textWithList (h : n.FormattedBetween name before behind text)
    (hchildren : ∀ m ∈ n.preorder, m.children ≠ []) (hmark : n.hasMark = false) :
    ∃ plain, n.TextWithList name "" plain ∧ n.TextWithList name
      (separatorFor n.leadingTrivia (Newline.detect (before ++ plain ++ behind))) text := by
  obtain ⟨updated, hannotated, rfl⟩ := h
  exact ⟨updated.text, hannotated.textWithList hchildren,
    hannotated.textWithList_laidOut hchildren hmark _⟩

/-- A snapshot with a later version of one document. -/
structure Solution.Advanced (base changed : Solution) (d d' : Document) : Prop where
  document : changed.document? d.id = some d'
  others : ∀ id, id ≠ d.id → changed.document? id = base.document? id
  ids_eq : changed.documents.map Document.id = base.documents.map Document.id
  path_eq : d'.path = d.path
  version_lt : d.version < d'.version

theorem Solution.advanced_of_updatedBy (hs : base.DistinctDocuments) (hd : d ∈ base.documents)
    (h : changed.documents = base.documents.map fun x ↦ x.updatedBy [d']) (hid : d'.id = d.id)
    (hpath : d'.path = d.path) (hversion : d.version < d'.version) :
    base.Advanced changed d d' := by
  obtain ⟨hdocument, hothers⟩ := document?_of_update hs hd hid.symm h
  rw [hid] at hdocument hothers
  refine ⟨hdocument, hothers, ?_, hpath, hversion⟩
  rw [h, List.map_map]
  exact List.map_congr_left fun x _ ↦ x.updatedBy_id _

/-- Whenever the action is computed, it leaves its base with one document advanced to a given tree in
which one node got a list, and it can be applied to that base. An id of the new tree is one of the
given tree or was drawn from the supply, so none returns that only the document had. -/
def CodeAction.Splices (a : CodeAction) (base : Solution) (d : Document) (root n : Node)
    (name : String) (u : Supply) : Prop :=
  ∃ before behind text,
    root.text = before ++ n.text ++ behind ∧
    root.textRange? n.id = some (before.utf8ByteSize + n.leadingTrivia.utf8ByteSize,
      before.utf8ByteSize + n.text.utf8ByteSize) ∧
    n.FormattedBetween name before behind text ∧
    ((∀ m ∈ n.preorder, m.children ≠ []) → ∃ plain, n.TextWithList name "" plain ∧
      n.TextWithList name
        (separatorFor n.leadingTrivia (Newline.detect (before ++ plain ++ behind))) text) ∧
    ∀ t, ∃ changed v d', a.changedSolution t = .ok changed v ∧ base.Advanced changed d d' ∧
      d'.text = before ++ text ++ behind ∧
      (∀ id ∈ d'.root.ids, id ∈ root.ids ∨ u.next ≤ id.value) ∧
      (∀ id ∈ d.root.ids, id.value < u.next → id ∉ root.ids → id ∉ d'.root.ids) ∧
      ∃ result w, a.apply base t = .ok result w ∧ result.documents = changed.documents

namespace Node.Extended

variable {list new : Node} {v : Supply} {c : TreeContext}

theorem mem_ids_or_drawn (h : n.Extended list new name u v) {id : NodeId}
    (hid : id ∈ (c.fill new).ids) : id ∈ (c.fill n).ids ∨ u.next ≤ id.value := by
  obtain ⟨kept, hold, hnew⟩ := h.exists_perm_ids c
  rcases List.mem_append.1 (hnew.mem_iff.1 hid) with hdrawn | hkept
  · exact Or.inr (h.draws.mem id hdrawn).1
  · exact Or.inl (hold.mem_iff.2 (List.mem_cons_of_mem _ hkept))

/-- **Splicing.** The action that exchanges the node in a given tree of its document. -/
theorem splices (h : n.Extended list new name u v) (hs : base.DistinctDocuments)
    (howner : base.documentOwning? n.id = some d) (hroot : root.ids.Nodup)
    (hmark : ∀ m ∈ root.preorder, m.marked = false) (hn : n ∈ root.preorder) {a : CodeAction}
    (hbase : a.base = base)
    (hproducer : a.producer = (do return .solution (← base.replaceNode root n.id new))) :
    a.Splices base d root n name u := by
  have hd := List.mem_of_find?_eq_some howner
  obtain ⟨c, rfl⟩ := TreeContext.exists_fill_of_mem hn
  have hid : n.id ∉ c.idsBefore := TreeContext.id_not_mem_idsBefore hroot
  have hunmarked := TreeContext.unmarked_of_fill hmark
  have hformatted : n.FormattedBetween name (Token.textAll c.tokensBefore)
      (Token.textAll c.tokensAfter)
      (Token.textAll (new.laidOut (Newline.detect (c.fill new).text))) :=
    ⟨new, h.annotated, by rw [c.text_fill]⟩
  refine ⟨_, _, _, c.text_fill n, TreeContext.textRange?_fill hid, hformatted,
    fun hchildren ↦ hformatted.textWithList hchildren hunmarked.2, fun t ↦ ?_⟩
  · -- the producer's solution differs from the base in the one document, which is laid out
    obtain ⟨s, hreplace, -, hdocuments⟩ := Solution.replaceNode_of_owner hs howner hid new t
    have hproduce : a.producer t = .ok (.solution s) ⟨t.next + 1⟩ := by
      rw [hproducer]
      exact bind_of_ok hreplace
    obtain ⟨changed, result, hsolution, hchanged, happly, hresult⟩ :=
      CodeAction.apply_base_of_solution hs hd h.marked hbase hproduce hdocuments
    have hids : (d.revision c new t).root.ids = (c.fill new).ids :=
      Node.ids_eq_of_sketch_eq (d.sketch_revision c new t)
    have hversion : d.version < (d.revision c new t).version := by
      rw [Document.revision_version]
      omega
    refine ⟨changed, _, d.revision c new t, hsolution,
      Solution.advanced_of_updatedBy hs hd hchanged rfl rfl hversion,
      d.text_revision hunmarked.1 new t, fun id hmem ↦ ?_, fun id _ hlt hnot hmem ↦ ?_,
      result, _, happly, hresult⟩
    · exact h.mem_ids_or_drawn (hids ▸ hmem)
    · rcases h.mem_ids_or_drawn (hids ▸ hmem) with hold | hdrawn
      · exact hnot hold
      · exact absurd hlt (Nat.not_lt.2 hdrawn)

end Node.Extended

/-! ## The outcomes -/

namespace Serialization

variable {ctx : FixContext} {reference : SyntaxReference} {s s' : FixState} {cls : AttributeClass}

section Fetched

variable (preference : NameStylePreference) (href : referenceToMark? ctx = some reference)
  (howner : ctx.solution.documentOwning? reference.node.id = some d)
  (hfetch : ctx.fetchRoot d s = .ok root s')
include href howner hfetch

theorem markTypeAction?_of_gone (hgone : reference.node.id ∉ root.ids) :
    markTypeAction? preference ctx s =
      .error (.nodeNotFound reference.node.id d.path.text) s' := by
  rw [markTypeAction?_of_fetched preference href howner hfetch, Node.find?_eq_none hgone]
  rfl

variable (hroot : root.ids.Nodup) (hn : n ∈ root.preorder) (hid : n.id = reference.node.id)
include hroot hn hid

private theorem markTypeAction?_of_found :
    markTypeAction? preference ctx s = (do
      let cls ← FixM.ofExcept (markType.attributeClass ctx)
      let updated ← FixM.ofEdit (addAttributes n [cls] (preference.resolve root n.id))
      return some {
        title := markType.title
        equivalenceKey := markType.key
        base := ctx.solution
        producer := return .solution (← ctx.solution.replaceNode root n.id updated) } :
        FixM (Option CodeAction)) s' := by
  rw [markTypeAction?_of_fetched preference href howner hfetch, ← hid, Node.find?_of_mem hroot hn]
  rfl

theorem markTypeAction?_of_no_class (hcls : ctx.semantic.attributeClass .serializable = none) :
    markTypeAction? preference ctx s =
      .error (.attributeUnavailable markType.added.metadataName) s' := by
  have hclass : markType.attributeClass ctx =
      .error (.attributeUnavailable markType.added.metadataName) :=
    Offer.attributeClass_of_none hcls
  rw [markTypeAction?_of_found preference href howner hfetch hroot hn hid, hclass]
  rfl

variable (hcls : ctx.semantic.attributeClass .serializable = some cls)
include hcls

theorem markTypeAction?_of_not_attributable (hkind : Kind.isAttributable n.kind = false) :
    markTypeAction? preference ctx s = .error (.unsupportedShape n.kind) s' := by
  have hclass : markType.attributeClass ctx = .ok cls := Offer.attributeClass_of_some hcls
  have hfound : FixM.ofExcept (Except.ok cls : Except FixError AttributeClass) s' = .ok cls s' :=
    rfl
  rw [markTypeAction?_of_found preference href howner hfetch hroot hn hid, hclass,
    bind_of_ok hfound]
  exact bind_of_error (FixM.ofEdit_of_error (addAttributes_of_not_attributable hkind _ _ _))

theorem markTypeAction?_of_attributable (hs : ctx.solution.DistinctDocuments)
    (hmark : ∀ m ∈ root.preorder, m.marked = false) (hkind : Kind.isAttributable n.kind = true) :
    ∃ a v, markTypeAction? preference ctx s = .ok (some a) { s' with supply := v } ∧
      a.Splices ctx.solution d root n ((preference.resolve root n.id).render cls) s'.supply := by
  obtain ⟨list, new, v, hrun, hextended⟩ := addAttributes_extended hkind cls
    (preference.resolve root n.id) s'.supply
  have hclass : markType.attributeClass ctx = .ok cls := Offer.attributeClass_of_some hcls
  refine ⟨⟨markType.title, markType.key, ctx.solution,
    do return .solution (← ctx.solution.replaceNode root n.id new)⟩, v, ?_,
    hextended.splices hs (hid ▸ howner) hroot hmark hn rfl rfl⟩
  rw [markTypeAction?_of_found preference href howner hfetch hroot hn hid, hclass]
  exact bind_of_ok (FixM.ofEdit_of_ok hrun)

end Fetched

/-- **The type is marked in the fetched tree.** The candidate fails because the declaration is not
there exactly if the fetched tree does not have its id. With a class for the attribute it fails
because of the node's kind exactly if that carries no attributes. Otherwise there is an action, and
it splices the list into the fetched tree. -/
theorem markTypeAction?_fetched (preference : NameStylePreference) (hs : ctx.solution.Distinct)
    (href : referenceToMark? ctx = some reference)
    (howner : ctx.solution.documentOwning? reference.node.id = some d)
    (hfetch : ctx.fetchRoot d s = .ok root s') (hroot : root.ids.Nodup)
    (hmark : ∀ m ∈ root.preorder, m.marked = false) :
    ((∃ id location v,
        markTypeAction? preference ctx s = .error (.nodeNotFound id location) v) ↔
      reference.node.id ∉ root.ids) ∧
    ∀ cls, ctx.semantic.attributeClass .serializable = some cls →
      ((∃ kind v, markTypeAction? preference ctx s = .error (.unsupportedShape kind) v) ↔
        ∃ n ∈ root.preorder, n.id = reference.node.id ∧ Kind.isAttributable n.kind = false) ∧
      ∀ n ∈ root.preorder, n.id = reference.node.id → Kind.isAttributable n.kind = true →
        ∃ a v, markTypeAction? preference ctx s = .ok (some a) { s' with supply := v } ∧
          a.Splices ctx.solution d root n ((preference.resolve root n.id).render cls)
            s'.supply := by
  have hgone := markTypeAction?_of_gone preference href howner hfetch
  refine ⟨⟨?_, fun hnot ↦ ⟨_, _, _, hgone hnot⟩⟩,
    fun cls hcls ↦ ⟨⟨?_, ?_⟩, fun n hn hid hkind ↦ ?_⟩⟩
  · rintro ⟨id, location, v, hrun⟩ hmem
    -- a declaration that is there fails for another reason, or does not fail
    obtain ⟨n, hn, hid⟩ := List.mem_map.1 hmem
    cases hcls : ctx.semantic.attributeClass .serializable with
    | none =>
      cases hrun.symm.trans
        (markTypeAction?_of_no_class preference href howner hfetch hroot hn hid hcls)
    | some cls =>
      cases hkind : Kind.isAttributable n.kind with
      | false =>
        cases hrun.symm.trans (markTypeAction?_of_not_attributable preference href howner hfetch
          hroot hn hid hcls hkind)
      | true =>
        obtain ⟨a, w, hok, -⟩ := markTypeAction?_of_attributable preference href howner hfetch
          hroot hn hid hcls hs.documents hmark hkind
        cases hrun.symm.trans hok
  · rintro ⟨kind, v, hrun⟩
    by_cases hmem : reference.node.id ∈ root.ids
    · obtain ⟨n, hn, hid⟩ := List.mem_map.1 hmem
      refine ⟨n, hn, hid, Bool.eq_false_iff.2 fun hkind ↦ ?_⟩
      obtain ⟨a, w, hok, -⟩ := markTypeAction?_of_attributable preference href howner hfetch
        hroot hn hid hcls hs.documents hmark hkind
      cases hrun.symm.trans hok
    · cases hrun.symm.trans (hgone hmem)
  · rintro ⟨n, hn, hid, hkind⟩
    exact ⟨_, _, markTypeAction?_of_not_attributable preference href howner hfetch hroot hn hid
      hcls hkind⟩
  · exact markTypeAction?_of_attributable preference href howner hfetch hroot hn hid hcls
      hs.documents hmark hkind

/-! ### A comment that the snapshot has not seen -/

private def fetchedType : Node :=
  ⟨Holder.type.head, .token ⟨"class", "// host copy\n", "class"⟩ :: Holder.type.children.tail⟩

private def fetchedRoot : Node :=
  ⟨Holder.document.root.head, .node fetchedType :: Holder.document.root.children.tail⟩

private def fetchedContext : FixContext :=
  { Holder.context with host := fun _ ↦ ⟨.atOnce (.ok fetchedRoot), false⟩ }

/-- The host has a comment above the class `Foo`, and the list is written below it. -/
theorem markTypeAction?_fetched_comment :
    ∃ a v, markTypeAction? .simple fetchedContext ⟨⟨100⟩, false⟩ = .ok (some a) v ∧
      a.Splices Holder.solution Holder.document fetchedRoot fetchedType "Serializable" ⟨100⟩ := by
  have hdistinct : fetchedContext.solution.Distinct := by decide
  have hreference : referenceToMark? fetchedContext =
      some ⟨Holder.document.id, Holder.type⟩ := by decide +kernel
  have howner : fetchedContext.solution.documentOwning? Holder.type.id = some Holder.document :=
    hdistinct.nodes.documentOwning?_of_mem (by decide) (by decide)
  have hfetch : fetchedContext.fetchRoot Holder.document ⟨⟨100⟩, false⟩ =
      .ok fetchedRoot ⟨⟨100⟩, false⟩ := rfl
  have hclass : fetchedContext.semantic.attributeClass .serializable =
      some (.wellKnown .serializable) := rfl
  obtain ⟨a, v, hrun, hsplices⟩ := ((markTypeAction?_fetched .simple hdistinct hreference howner
    hfetch (by decide) (by decide)).2 _ hclass).2 fetchedType (by decide) rfl (by decide)
  exact ⟨a, _, hrun, hsplices⟩

end Serialization

end CodeFix
