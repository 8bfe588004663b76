import CodeFix.Proofs.Attribute.Text
import CodeFix.Proofs.Fix.History
import CodeFix.Proofs.Semantic.Reindexing

/-!
# Marking a type settles it

Whoever applies a fix looks at the code again, and would go round in circles if the fix were offered
once more. The attribute is written in one part of this library and read in another one: a list is
put among the children of a declaration, under one of two spellings, is laid out, and the whole
snapshot is indexed anew. What is written is read again, so a type that was marked is not to be
marked a second time (`Solution.Edited.not_toMark`). What is read of every other type is what was
read before (`Solution.Edited.toMark_iff`).
-/

namespace CodeFix

variable {s s' : Solution} {d d₁ d₂ : Document} {ctx ctx₁ ctx₂ : FixContext}
  {preference : NameStylePreference} {st st' : FixState} {a : CodeAction}
  {actions : List CodeAction} {n old list new field node : Node} {name : String} {t u v : Supply}
  {f : Document → Document} {above below : List Node}

/-- The context asks about a node in a document of a snapshot, with the semantic model and the trees
of the snapshot itself. -/
structure FixContext.IsOver (ctx : FixContext) (s : Solution) (d : Document) : Prop where
  solution : ctx.solution = s
  semantic : ctx.semantic = s.semanticModel
  host : ctx.host = snapshotHost
  document : ctx.document = .ok d
  node : ctx.node ∈ d.root.preorder

theorem FixContext.IsOver.mem_documents (h : ctx.IsOver s d) : d ∈ s.documents :=
  h.solution ▸ FixContext.mem_documents h.document

namespace Serialization

/-- The fixes for a context are computed, and one of them is an offer of the given kind. -/
def Offers (o : Offer) (preference : NameStylePreference) (ctx : FixContext) (st : FixState) :
    Prop :=
  ∃ actions st', fixes preference enclosingField ctx st = .ok actions st' ∧
    ∃ a ∈ actions, a.title = o.title

end Serialization

open Serialization

/-! ## What is offered for a field -/

theorem Node.NearestField.exists_fieldPath {root : Node} (hroot : root.ids.Nodup)
    (hnode : node ∈ root.preorder) (h : root.NearestField node field) :
    ∃ above below, enclosingField root node = some field ∧
      root.FieldPath node field above below := by
  rcases enclosingField_cases hroot hnode with
    ⟨-, houtside⟩ | ⟨field', above, below, hfound, hpath⟩
  · exact absurd h.inside (houtside field h.mem h.kind)
  · obtain rfl := (hpath.nearestField hroot hnode).eq h
    exact ⟨above, below, hfound, hpath⟩

/-- For a field it is always offered to exclude it, and to mark its type if there is one to mark. -/
theorem Serialization.offers_iff (preference : NameStylePreference) (hs : s.Distinct)
    (hctx : ctx.IsOver s d) (hlive : st.cancelled = false)
    (hfield : d.root.NearestField ctx.node field) :
    Offers excludeField preference ctx st ∧
      (Offers markType preference ctx st ↔ ∃ name, s.ToMark field ctx.node name) := by
  obtain ⟨rfl, hsemantic, hhost, hdocument, hnode⟩ := hctx
  have hd := FixContext.mem_documents hdocument
  obtain ⟨above, below, hfound, hpath⟩ := hfield.exists_fieldPath (hs.nodes.nodup_ids hd) hnode
  by_cases hmark : ∃ name, ctx.solution.ToMark field ctx.node name
  · obtain ⟨name, hname⟩ := hmark
    obtain ⟨first, d', declaration, second, st', hfixes, hfirst, -, -, hsecond⟩ :=
      fixes_of_toMark preference hs hsemantic hdocument hnode hlive hhost hfound hpath hname
    exact ⟨⟨_, _, hfixes, first, by simp, hfirst.title_eq⟩, fun _ ↦ ⟨name, hname⟩,
      fun _ ↦ ⟨_, _, hfixes, second, by simp, hsecond.title_eq⟩⟩
  · obtain ⟨first, st', hfixes, hfirst⟩ := fixes_of_not_toMark preference hs hsemantic hdocument
      hnode hlive hfound hpath (not_exists.1 hmark)
    refine ⟨⟨_, _, hfixes, first, by simp, hfirst.title_eq⟩, ?_, fun h ↦ absurd h hmark⟩
    rintro ⟨actions, st₁, hrun, a, ha, htitle⟩
    cases hfixes.symm.trans hrun
    rw [List.mem_singleton.1 ha, hfirst.title_eq] at htitle
    exact absurd htitle (by decide)

/-! ## Applying the action -/

theorem Node.hasAttribute_of_render (style : NameStyle)
    (h : style.render (.wellKnown .serializable) ∈ n.attributeNames) :
    n.HasAttribute "Serializable" := by
  refine ⟨_, h, Or.inl ?_⟩
  cases style <;> decide +kernel

/-- In the tree of a revised document the declaration was exchanged for its new version, laid
out. -/
theorem Document.exists_exchanged_revision {c : TreeContext} {list₀ new₀ : Node}
    (hroot : d.root = c.fill n) (hmark : ∀ m ∈ d.root.preorder, m.marked = false)
    (h : n.Extended list₀ new₀ name u v) (t : Supply) :
    ∃ list new, n.Gains list new ∧ list.sketch Node.trimmedText = list₀.sketch Node.trimmedText ∧
      new.id = new₀.id ∧ Node.Exchanged n new d.root (d.revision c new₀ t).root := by
  have hunmarked := TreeContext.unmarked_of_fill (hroot ▸ hmark)
  obtain ⟨s', hexchanged⟩ := TreeContext.layout_fill hunmarked.1 h.marked
    (h.annotated.children.hasMark_eq_false hunmarked.2) n ⟨t.next, []⟩ ⟨t.next + 1, []⟩
  obtain ⟨list, hgains, hsketch⟩ := h.gains s' (Newline.detect (c.fill new₀).text)
  exact ⟨list, _, hgains, hsketch, rfl, hroot ▸ hexchanged⟩

/-- **Applying an action edits the snapshot.** The list is put in and laid out, and the ids stay
distinct. -/
theorem Serialization.Offer.Issued.edited {o : Offer} (hs : s.Distinct)
    (hdrawn : ∀ d ∈ s.documents, ∀ id ∈ d.root.ids, id.value < u.next)
    (hordinary : ∀ d ∈ s.documents, d.root.Ordinary) (ha : o.Issued s d n name u v a)
    (hn : Kind.isTypeDeclaration n.kind = true) (t : Supply) :
    ∃ s' w list new f, a.apply s t = .ok s' w ∧ s'.Distinct ∧ s.Edited s' n list new f ∧
      (∃ d' ∈ s'.documents, new ∈ d'.root.preorder) ∧ name ∈ new.attributeNames := by
  obtain ⟨c, list₀, new₀, hextended, hreplaces⟩ := ha.replaces
  have hd := ha.document
  have hbase := ha.base_eq
  subst hbase
  -- a history that has this action pending knows where all ids belong
  obtain ⟨owner, howned⟩ := hs.exists_owned hdrawn
  have hstart := History.Sound.start (u := u) hs.documents howned
  have hsound := hstart.issue List.mem_cons_self ha
  have hpending := hstart.pending List.mem_cons_self hextended hreplaces
  obtain ⟨s', hrun, hdocuments⟩ := (hreplaces.revises hs
    hextended.annotated.length_tokens_lt).apply_base hs.documents t
  set x := d.revision c new₀ t
  have hdistinct : s'.Distinct := (hsound.push (x := x) List.mem_cons_self ⟨d, hd, rfl, rfl⟩
    (hpending.owned_of_sketch_eq rfl (d.sketch_revision c new₀ t))
    (Nat.le_refl _) hdocuments).distinct List.mem_cons_self
  obtain ⟨b, new', list', -, hrewritten⟩ := hsound.rewritten List.mem_cons_self hpending hrun
  have hgone : n.id ∉ x.root.ids := by
    intro hold
    rcases (hrewritten.mem_ids_iff n.id).1 hold with ⟨-, hne⟩ | hnew
    · exact hne rfl
    · exact hrewritten.fresh n.id hnew b hrewritten.document
        (Node.mem_ids_of_mem hrewritten.declaration)
  -- what is read in the tree that layout leaves
  obtain ⟨list, new, hgains, hsketch, hid, hexchanged⟩ :=
    Document.exists_exchanged_revision hreplaces.root_eq (hordinary d hd).unmarked hextended t
  have hids : new.id :: list.ids = new₀.id :: list₀.ids := by
    rw [hid, Node.ids_eq_of_sketch_eq hsketch]
  have hfresh : ∀ id ∈ new.id :: list.ids, ∀ y ∈ a.base.documents, id ∉ y.root.ids :=
    hids ▸ hsound.fresh List.mem_cons_self hpending hd rfl rfl
  have hedited : a.base.Edited s' n list new fun y ↦ y.updatedBy [x] :=
    Solution.edited_of_updatedBy hs hd hgains hn hordinary hdocuments rfl rfl hexchanged hfresh
      hgone
  refine ⟨s', _, list, new, _, hrun, hdistinct, hedited, ?_, ?_⟩
  · have hid : x.id = d.id := rfl
    have hx : d.updatedBy [x] = x := by rw [Document.updatedBy_cons, if_pos hid]
    rw [hdocuments]
    exact ⟨x, List.mem_map.2 ⟨d, hd, hx⟩, hexchanged.mem_preorder_new⟩
  · obtain ⟨leading, hlist, -⟩ := hextended.placed
    obtain ⟨before, after, hchildren, -⟩ := hgains.children
    exact hlist.mem_attributeNames hsketch (hchildren ▸ List.mem_append_cons_self)

/-! ## Convergence -/

/-- Where the type can be marked, there is a name that the field's type is spelled with, and the
action that marks it is issued for a declaration of that name. -/
theorem Serialization.exists_issued_of_title_eq (hs : s.Distinct) (hctx : ctx.IsOver s d)
    (hlive : st.cancelled = false)
    (hrun : fixes preference enclosingField ctx st = .ok actions st') (ha : a ∈ actions)
    (htitle : a.title = markType.title) :
    ∃ field name, d.root.NearestField ctx.node field ∧ field.TypeNamed name ∧
      ∃ d' declaration style u v, st.supply.next ≤ u.next ∧ declaration.DeclaresType name ∧
        markType.Issued s d' declaration (NameStyle.render style (.wellKnown .serializable)) u v
          a := by
  obtain ⟨rfl, hsemantic, hhost, hdocument, hnode⟩ := hctx
  have hd := FixContext.mem_documents hdocument
  rcases enclosingField_cases (hs.nodes.nodup_ids hd) hnode with
    ⟨hnone, -⟩ | ⟨field, above, below, hfound, hpath⟩
  · rw [fixes_of_no_field hlive hdocument hnone] at hrun
    cases hrun
    cases ha
  · have hnearest := hpath.nearestField (hs.nodes.nodup_ids hd) hnode
    by_cases hmark : ∃ name, ctx.solution.ToMark field ctx.node name
    · obtain ⟨name, hname⟩ := hmark
      obtain ⟨first, d', declaration, second, u, v, hfixes, hfirst, -, hdeclares, hsecond⟩ :=
        fixes_of_toMark_issued preference hs hsemantic hdocument hnode hlive hhost hfound hpath
          hname
      obtain ⟨list, new, hextended, -⟩ := hfirst.producer
      cases hfixes.symm.trans hrun
      rcases List.mem_cons.1 ha with rfl | ha
      · rw [hfirst.title_eq] at htitle
        exact absurd htitle (by decide)
      · rw [List.mem_singleton.1 ha]
        exact ⟨field, name, hnearest, hname.typeNamed, d', declaration, _, u, v,
          hextended.draws.le, hdeclares, hsecond⟩
    · obtain ⟨first, st₁, hfixes, hfirst⟩ := fixes_of_not_toMark preference hs hsemantic hdocument
        hnode hlive hfound hpath (not_exists.1 hmark)
      cases hfixes.symm.trans hrun
      rw [List.mem_singleton.1 ha, hfirst.title_eq] at htitle
      exact absurd htitle (by decide)

theorem Solution.Edited.exists_field_toMark_iff (h : s.Edited s' old list new f) (hs : s.Distinct)
    (hs' : s'.Distinct) (hctx₁ : ctx₁.IsOver s d₁) (hctx₂ : ctx₂.IsOver s' d₂)
    (hid : d₁.id = d₂.id) (hnode : ctx₁.node.id = ctx₂.node.id) (hold : old.DeclaresType name)
    {g₂ : Node} (hg₂ : d₂.root.NearestField ctx₂.node g₂) (hname : ¬g₂.TypeNamed name) :
    ∃ g₁, d₁.root.NearestField ctx₁.node g₁ ∧
      ((∃ name, s'.ToMark g₂ ctx₂.node name) ↔ ∃ name, s.ToMark g₁ ctx₁.node name) := by
  have hd₁ := hctx₁.mem_documents
  have hd₂ := hctx₂.mem_documents
  rw [h.documents] at hd₂
  obtain ⟨d₀, hd₀, rfl⟩ := List.mem_map.1 hd₂
  obtain rfl := Solution.eq_of_id_eq hs.documents hd₁ hd₀ (hid.trans (h.id_eq d₀ hd₀))
  obtain ⟨above', below', -, hpath'⟩ :=
    hg₂.exists_fieldPath (hs'.nodes.nodup_ids hctx₂.mem_documents) hctx₂.node
  obtain ⟨g₁, above, below, hpath, hfollows⟩ :=
    h.exists_fieldPath hs hs' hd₁ hctx₁.node hctx₂.node hnode hpath'
  have hg₁ := hpath.nearestField (hs.nodes.nodup_ids hd₁) hctx₁.node
  refine ⟨g₁, hg₁, exists_congr fun name' ↦ ?_⟩
  by_cases hname' : name' = name
  · -- the field asks for the marked type in neither snapshot
    subst hname'
    have hspelled := h.spelledType?_eq hd₁ hg₁.mem hg₁.kind (List.forall₂_cons.1 hfollows).1
    refine iff_of_false (fun htoMark ↦ hname htoMark.typeNamed) fun htoMark ↦ hname ?_
    obtain ⟨spelled, t, hspelled₁, hparse⟩ := htoMark.typeNamed
    exact ⟨spelled, t, hspelled.trans hspelled₁, hparse⟩
  · exact h.toMark_iff hs hs' hd₁ hctx₁.node hctx₂.node hpath hpath' hfollows fun hdeclares ↦
      hname' (Option.some.inj (hdeclares.name_eq.symm.trans hold.name_eq))

/-- **Marking a type settles it.** Where the provider offers to mark the type of a field, the action
can be applied to the snapshot. In the snapshot it leaves, every field is one that was there before,
with the same spelled type. For fields whose type is spelled with the name of the marked one it is
offered to exclude them and not to mark the type again. For all other fields it is offered to mark
their type exactly if it was offered before.

All ids are drawn from one counter, so those of the snapshot lie below what the supply draws next
(`hdrawn`); the nodes of the attribute cannot be told from others otherwise. -/
theorem Serialization.markType_settles (hs : s.Distinct)
    (hdrawn : ∀ d ∈ s.documents, ∀ id ∈ d.root.ids, id.value < st.supply.next)
    (hordinary : ∀ d ∈ s.documents, d.root.Ordinary) (hctx : ctx.IsOver s d)
    (hlive : st.cancelled = false)
    (hrun : fixes preference enclosingField ctx st = .ok actions st') (ha : a ∈ actions)
    (htitle : a.title = markType.title) :
    ∃ field name, d.root.NearestField ctx.node field ∧ field.TypeNamed name ∧
      ∀ t, ∃ s' w, a.apply s t = .ok s' w ∧
        (∀ d₂ ∈ s'.documents, ∀ g₂ ∈ d₂.root.preorder, g₂.kind = Kind.fieldDeclaration →
          ∃ d₁ ∈ s.documents, d₁.id = d₂.id ∧ ∃ g₁ ∈ d₁.root.preorder,
            g₁.kind = Kind.fieldDeclaration ∧ g₁.id = g₂.id ∧
            g₁.spelledType? = g₂.spelledType?) ∧
        ∀ ctx₂ d₂ g₂, ctx₂.IsOver s' d₂ → d₂.root.NearestField ctx₂.node g₂ →
          ∀ preference₂ st₂, st₂.cancelled = false →
            Offers excludeField preference₂ ctx₂ st₂ ∧
            (g₂.TypeNamed name → ¬Offers markType preference₂ ctx₂ st₂) ∧
            (¬g₂.TypeNamed name → ∀ ctx₁ d₁, ctx₁.IsOver s d₁ → d₁.id = d₂.id →
              ctx₁.node.id = ctx₂.node.id → ∀ preference₁ st₁, st₁.cancelled = false →
                (Offers markType preference₂ ctx₂ st₂ ↔
                  Offers markType preference₁ ctx₁ st₁)) := by
  obtain ⟨field, name, hnearest, hnamed, d', n, style, u, v, hle, hdeclares, hissued⟩ :=
    exists_issued_of_title_eq hs hctx hlive hrun ha htitle
  refine ⟨field, name, hnearest, hnamed, fun t ↦ ?_⟩
  obtain ⟨s', w, list, new, f, happly, hs', hedited, ⟨x, hx, hnew⟩, hattribute⟩ :=
    hissued.edited hs (fun d hd id hid ↦ Nat.lt_of_lt_of_le (hdrawn d hd id hid) hle) hordinary
      hdeclares.kind t
  have hmarked := Node.hasAttribute_of_render style hattribute
  refine ⟨s', w, happly, fun d₂ hd₂ g₂ hg₂ hkind ↦ ?_,
    fun ctx₂ d₂ g₂ hctx₂ hg₂ preference₂ st₂ hlive₂ ↦ ?_⟩
  · rw [hedited.documents] at hd₂
    obtain ⟨d₁, hd₁, rfl⟩ := List.mem_map.1 hd₂
    exact ⟨d₁, hd₁, (hedited.id_eq d₁ hd₁).symm, hedited.exists_field hd₁ hg₂ hkind⟩
  · obtain ⟨hexclude, hmark⟩ := offers_iff preference₂ hs' hctx₂ hlive₂ hg₂
    refine ⟨hexclude, fun hname hoffers ↦ ?_,
      fun hname ctx₁ d₁ hctx₁ hid hnode preference₁ st₁ hlive₁ ↦ ?_⟩
    · -- the new version declares the name as well, and it has the attribute
      obtain ⟨name', htoMark⟩ := hmark.1 hoffers
      obtain rfl := htoMark.typeNamed.unique hname
      exact hedited.not_toMark hdeclares hx hnew hmarked htoMark
    · obtain ⟨g₁, hg₁, hiff⟩ :=
        hedited.exists_field_toMark_iff hs hs' hctx₁ hctx₂ hid hnode hdeclares hg₂ hname
      exact hmark.trans (hiff.trans (offers_iff preference₁ hs hctx₁ hlive₁ hg₁).2.symm)

/-- Once the class `Foo` is marked in the file of `Holder`, it is not offered to mark it again. -/
theorem Serialization.markType_settles_foo :
    ∃ (a : CodeAction) (s' : Solution) (w : Supply), a.title = markType.title ∧
      a.apply Holder.solution ⟨200⟩ = .ok s' w ∧
      ∀ ctx d field, ctx.IsOver s' d → d.root.NearestField ctx.node field →
        field.TypeNamed "Foo" → ∀ preference st, st.cancelled = false →
          Offers excludeField preference ctx st ∧ ¬Offers markType preference ctx st := by
  have hdistinct : Holder.context.solution.Distinct := by decide
  have hdocument : Holder.document ∈ Holder.context.solution.documents := by decide
  have hfield : Holder.field ∈ Holder.document.root.preorder := by decide
  have htype : Holder.type ∈ Holder.document.root.preorder := by decide
  have hreference : referenceToMark? Holder.context = some ⟨Holder.document.id, Holder.type⟩ := by
    decide +kernel
  obtain ⟨a, u, hfirst, -⟩ := excludeFieldAction_of_class .auto hdocument hfield rfl rfl
    ⟨⟨100⟩, false⟩
  obtain ⟨b, u', hsecond, hmade⟩ := markTypeAction?_of_class .auto hdistinct rfl hreference
    hdocument htype rfl (by decide) rfl (s := ⟨u, false⟩) rfl
  have hrun : fixes .auto enclosingField Holder.context ⟨⟨100⟩, false⟩ = .ok [a, b] ⟨u', false⟩ :=
    fixes_of_candidates rfl rfl (by decide) hfirst hsecond
  obtain ⟨field, name, hnearest, hnamed, h⟩ := markType_settles hdistinct (by decide) (by decide)
    ⟨rfl, rfl, rfl, rfl, hfield⟩ rfl hrun (a := b) (by simp) hmade.title_eq
  obtain rfl : field = Holder.field :=
    hnearest.eq ⟨by decide, rfl, Node.mem_preorder_self _, fun _ _ _ h ↦ h⟩
  obtain rfl : name = "Foo" :=
    hnamed.unique ⟨"Foo", ⟨"Foo", false, false⟩, rfl, by decide +kernel, rfl⟩
  obtain ⟨s', w, happly, -, hoffers⟩ := h ⟨200⟩
  refine ⟨b, s', w, hmade.title_eq, happly, fun ctx d g hctx hg hname preference st hlive ↦ ?_⟩
  obtain ⟨hexclude, hnot, -⟩ := hoffers ctx d g hctx hg preference st hlive
  exact ⟨hexclude, hnot hname⟩

end CodeFix
