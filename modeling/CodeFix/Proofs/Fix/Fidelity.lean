import CodeFix.Proofs.Attribute.Text
import CodeFix.Proofs.Fix.Condition
import CodeFix.Proofs.Fix.Revision

/-!
# Nothing but the list and separators

What an action of the provider does to the text of a file: the text in front of the declaration and
the text behind it stay as they are, and in the declaration one list and the separators that layout
puts in are added (`CodeAction.InsertsList`).

The separators need a line break, and it is taken from the text of the whole file when the list is
already in it but the separators are not. So the text is described twice, with empty separators and
with those that the line break gives.
-/

namespace CodeFix

/-- Whenever the action is computed, it changes one document, and there it adds a list with an
attribute name to the text of one node. Where the node's text stands is said by its range. -/
def CodeAction.InsertsList (a : CodeAction) (d : Document) (n : Node) (name : String) : Prop :=
  ∃ before behind plain text,
    d.text = before ++ n.text ++ behind ∧
    d.root.textRange? n.id = some (before.utf8ByteSize + n.leadingTrivia.utf8ByteSize,
      before.utf8ByteSize + n.text.utf8ByteSize) ∧
    n.TextWithList name "" plain ∧
    n.TextWithList name
      (separatorFor n.leadingTrivia (Newline.detect (before ++ plain ++ behind))) text ∧
    ∀ t, ∃ d' u, a.changedDocuments t = .ok [d'] u ∧ d'.id = d.id ∧ d'.path = d.path ∧
      d'.text = before ++ text ++ behind

namespace Serialization

variable {preference : NameStylePreference} {ctx : FixContext} {base : Solution} {d : Document}
  {n : Node} {s : FixState} {o : Offer} {name : String} {a : CodeAction}

section Made

variable (hs : base.Distinct) (h : o.Made base d n name a)
  (hchildren : ∀ m ∈ d.root.preorder, m.children ≠ [])
  (hmark : ∀ m ∈ d.root.preorder, m.marked = false)
include hs h hchildren hmark

/-- An offered action exchanges the text of its declaration, which stands between the tokens of the
tree around it. -/
theorem Offer.Made.exchangesText : ∃ (c : TreeContext) (plain text : String),
    d.root = c.fill n ∧
    n.TextWithList name "" plain ∧
    n.TextWithList name (separatorFor n.leadingTrivia (Newline.detect
      (Token.textAll c.tokensBefore ++ plain ++ Token.textAll c.tokensAfter))) text ∧
    ∀ t, ∃ d' u, a.changedDocuments t = .ok [d'] u ∧ d'.id = d.id ∧ d'.path = d.path ∧
      d'.text = Token.textAll c.tokensBefore ++ text ++ Token.textAll c.tokensAfter := by
  obtain ⟨c, updated, hroot, hannotated, hrevises⟩ := h.revises hs
  have hn : ∀ m ∈ n.preorder, m.children ≠ [] :=
    fun m hm ↦ hchildren m (Node.mem_preorder_trans hm h.declaration)
  -- the only mark is that of the declaration, so layout leaves everything around it alone
  have hunmarked := TreeContext.unmarked_of_fill (hroot ▸ hmark)
  refine ⟨c, updated.text, Token.textAll (updated.laidOut (Newline.detect (c.fill updated).text)),
    hroot, hannotated.textWithList hn, ?_,
    fun t ↦ ⟨_, _, hrevises.changedDocuments hs.documents t, rfl, rfl,
      d.text_revision hunmarked.1 updated t⟩⟩
  rw [← c.text_fill]
  exact hannotated.textWithList_laidOut hn hunmarked.2 _

theorem Offer.Made.insertsList : a.InsertsList d n name := by
  obtain ⟨c, plain, text, hroot, hplain, htext, hchanged⟩ := h.exchangesText hs hchildren hmark
  have hid : n.id ∉ c.idsBefore :=
    TreeContext.id_not_mem_idsBefore (hroot ▸ hs.nodes.nodup_ids h.document)
  refine ⟨Token.textAll c.tokensBefore, Token.textAll c.tokensAfter, plain, text, ?_, ?_, hplain,
    htext, hchanged⟩
  · rw [Document.text, hroot, c.text_fill]
  · rw [hroot, TreeContext.textRange?_fill hid]

end Made

/-- **Edit fidelity.** For a node in a field the provider offers an action, and each action changes
one document, whose new text is the old one with a list in brackets and separators added to one
declaration. The first action adds the list to the nearest field, another one to the first
declaration of the field's type. -/
theorem fixes_insert_list (preference : NameStylePreference) (hs : ctx.solution.Distinct)
    (hchildren : ∀ d ∈ ctx.solution.documents, ∀ m ∈ d.root.preorder, m.children ≠ [])
    (hmark : ∀ d ∈ ctx.solution.documents, ∀ m ∈ d.root.preorder, m.marked = false)
    (hsemantic : ctx.semantic = ctx.solution.semanticModel) (hhost : ctx.host = snapshotHost)
    (hdocument : ctx.document = .ok d) (hnode : ctx.node ∈ d.root.preorder)
    (hfield : ∃ g ∈ d.root.preorder, g.kind = Kind.fieldDeclaration ∧ ctx.node ∈ g.preorder)
    (hlive : s.cancelled = false) :
    ∃ field first rest s', fixes preference enclosingField ctx s = .ok (first :: rest) s' ∧
      d.root.NearestField ctx.node field ∧
      first.InsertsList d field
        ((preference.resolve d.root field.id).render (.wellKnown .nonSerialized)) ∧
      ∀ second ∈ rest, rest = [second] ∧ ∃ name, ctx.solution.ToMark field ctx.node name ∧
        ∃ d' ∈ ctx.solution.documents, ∃ declaration ∈ d'.root.preorder,
          (ctx.solution.declarationsOf name).head? = some ⟨name, d'.id, declaration⟩ ∧
          declaration.DeclaresType name ∧
          second.InsertsList d' declaration
            ((preference.resolve d'.root declaration.id).render (.wellKnown .serializable)) := by
  have hd := FixContext.mem_documents hdocument
  rcases enclosingField_cases (hs.nodes.nodup_ids hd) hnode with
    ⟨-, houtside⟩ | ⟨field, above, below, hfound, hpath⟩
  · obtain ⟨g, hg, hkind, hin⟩ := hfield
    exact absurd hin (houtside g hg hkind)
  · have hnearest := hpath.nearestField (hs.nodes.nodup_ids hd) hnode
    by_cases hname : ∃ name, ctx.solution.ToMark field ctx.node name
    · obtain ⟨name, hname⟩ := hname
      obtain ⟨first, d', declaration, second, s', hfixes, hmade, hhead, hdeclares, hmade'⟩ :=
        fixes_of_toMark preference hs hsemantic hdocument hnode hlive hhost hfound hpath hname
      refine ⟨field, first, [second], s', hfixes, hnearest,
        hmade.insertsList hs (hchildren d hd) (hmark d hd), fun x hx ↦ ?_⟩
      cases List.mem_singleton.1 hx
      exact ⟨rfl, name, hname, d', hmade'.document, declaration, hmade'.declaration, hhead,
        hdeclares, hmade'.insertsList hs (hchildren d' hmade'.document) (hmark d' hmade'.document)⟩
    · obtain ⟨first, s', hfixes, hmade⟩ := fixes_of_not_toMark preference hs hsemantic hdocument
        hnode hlive hfound hpath (not_exists.1 hname)
      exact ⟨field, first, [], s', hfixes, hnearest,
        hmade.insertsList hs (hchildren d hd) (hmark d hd), by simp⟩

/-- At the field of `Holder` the first action writes `[NonSerialized]` to the field. -/
theorem fixes_insert_list_holder :
    ∃ first rest s', fixes .simple enclosingField Holder.context ⟨⟨100⟩, false⟩ =
      .ok (first :: rest) s' ∧ first.InsertsList Holder.document Holder.field "NonSerialized" := by
  have hdistinct : Holder.context.solution.Distinct := by decide
  have hnode : Holder.context.node ∈ Holder.document.root.preorder := by decide
  obtain ⟨field, first, rest, s', hfixes, hnearest, hfirst, -⟩ :=
    fixes_insert_list .simple hdistinct (by decide) (by decide) rfl rfl rfl hnode
      ⟨Holder.field, by decide, rfl, Node.mem_preorder_self _⟩ (s := ⟨⟨100⟩, false⟩) rfl
  have hfield : field = Holder.field := hnearest.eq
    ⟨by decide, rfl, Node.mem_preorder_self _, fun _ _ _ h ↦ h⟩
  subst hfield
  exact ⟨first, rest, s', hfixes, hfirst⟩

end Serialization

end CodeFix
