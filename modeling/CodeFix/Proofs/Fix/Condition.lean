import CodeFix.Proofs.Fix.Offer
import CodeFix.Proofs.Semantic.FieldSymbol

/-!
# When the two fixes are offered

With the semantic model and the trees of one snapshot the provider does not fail. It offers to
exclude the nearest field around the flagged node, and it offers to mark the field's type exactly if
the conditions of `Solution.ToMark` hold, which speak of the trees alone: of the field's declarator
and spelled type, and of all declarations of the type, in whatever documents.

Where the type is looked for, an array or a nullable value type is a type of its own that no
document declares. So both fall under the same condition as a name without a declaration, and
nothing is said of them after the type was found.
-/

namespace CodeFix

/-- The field around a node has a symbol, and the name that its type is spelled with belongs to a
declared type that is not marked yet. -/
structure Solution.ToMark (s : Solution) (field node : Node) (name : String) : Prop where
  declarator : ∃ x, field.NamedBy node x ∧ ∃ n, x.declaredName? = some n
  spelled : ∃ declaration type, field.childNode? Kind.variableDeclaration = some declaration ∧
    declaration.children.head? = some type ∧
    ∃ nullable, TypeName.parse type.trimmedText = some ⟨name, false, nullable⟩ ∧
      (nullable = true → s.isValueType name = false)
  declared : ∃ d ∈ s.documents, ∃ n ∈ d.root.preorder, n.DeclaresType name
  unmarked : ∀ d ∈ s.documents, ∀ n ∈ d.root.preorder, n.DeclaresType name →
    ¬n.HasAttribute "Serializable"

namespace Serialization

variable {preference : NameStylePreference} {ctx : FixContext} {d : Document}
  {field : Node} {above below : List Node} {s : FixState} {name : String}

theorem typeToMark?_eq_some_iff (hs : ctx.solution.Distinct)
    (hsemantic : ctx.semantic = ctx.solution.semanticModel) (hd : d ∈ ctx.solution.documents)
    (hnode : ctx.node ∈ d.root.preorder)
    (hpath : d.root.FieldPath ctx.node field above below) {type : Symbol} :
    typeToMark? ctx = some type ↔
      ∃ name, ctx.solution.ToMark field ctx.node name ∧ type = ctx.solution.typeSymbol name := by
  have hsteps : typeToMark? ctx = some type ↔ ∃ symbol,
      ctx.solution.declaredSymbol? ctx.node = some symbol ∧
      (ctx.solution.fieldType? symbol = some type ∧
        type.locations.any SymbolLocation.isInSource = true) ∧
      type.hasAttribute "Serializable" = false := by
    rw [typeToMark?, hsemantic, Option.bind_eq_bind, Option.bind_eq_some_iff]
    refine exists_congr fun symbol ↦ and_congr_right fun _ ↦ ?_
    rw [Option.bind_eq_some_iff]
    constructor
    · rintro ⟨type', htype, hif⟩
      split at hif
      · next hcond =>
        cases hif
        simp only [Bool.and_eq_true, Bool.not_eq_true'] at hcond
        exact ⟨⟨htype, hcond.1⟩, hcond.2⟩
      · cases hif
    · rintro ⟨⟨htype, hin⟩, hattribute⟩
      refine ⟨type, htype, if_pos ?_⟩
      rw [hattribute, Bool.not_false, Bool.and_true]
      exact hin
  rw [hsteps]
  constructor
  · rintro ⟨symbol, hsymbol, htype, hattribute⟩
    obtain ⟨x, n, declaration, e, hx, hn, hdeclaration, he, rfl⟩ :=
      (Solution.declaredSymbol?_eq_some_iff hs.nodes hd hnode hpath).1 hsymbol
    obtain ⟨name, nullable, hparse, hvalue, hne, rfl⟩ :=
      (Solution.fieldType?_inSource_iff rfl rfl).1 htype
    exact ⟨name, ⟨⟨x, hx, n, hn⟩, ⟨declaration, e, hdeclaration, he, nullable, hparse, hvalue⟩,
      Solution.declarationsOf_ne_nil_iff.1 hne,
      (Solution.typeSymbol_hasAttribute_eq_false_iff hne _).1 hattribute⟩, rfl⟩
  · rintro ⟨name, ⟨⟨x, hx, n, hn⟩, ⟨declaration, e, hdeclaration, he, nullable, hparse, hvalue⟩,
      hin, hattribute⟩, rfl⟩
    have hne := Solution.declarationsOf_ne_nil_iff.2 hin
    exact ⟨_, (Solution.declaredSymbol?_eq_some_iff hs.nodes hd hnode hpath).2
        ⟨x, n, declaration, e, hx, hn, hdeclaration, he, rfl⟩,
      (Solution.fieldType?_inSource_iff rfl rfl).2 ⟨name, nullable, hparse, hvalue, hne, rfl⟩,
      (Solution.typeSymbol_hasAttribute_eq_false_iff hne _).2 hattribute⟩

theorem referenceToMark?_of_toMark (hs : ctx.solution.Distinct)
    (hsemantic : ctx.semantic = ctx.solution.semanticModel) (hd : d ∈ ctx.solution.documents)
    (hnode : ctx.node ∈ d.root.preorder) (hpath : d.root.FieldPath ctx.node field above below)
    (h : ctx.solution.ToMark field ctx.node name) :
    ∃ d' ∈ ctx.solution.documents, ∃ declaration ∈ d'.root.preorder,
      declaration.DeclaresType name ∧
      (ctx.solution.declarationsOf name).head? = some ⟨name, d'.id, declaration⟩ ∧
      referenceToMark? ctx = some ⟨d'.id, declaration⟩ := by
  have hne := Solution.declarationsOf_ne_nil_iff.2 h.declared
  -- the references are the declarations in their order, so the first one is the first reference
  obtain ⟨first, rest, hfirst⟩ := List.exists_cons_of_ne_nil hne
  obtain ⟨rfl, d', hd', hid, hn, hdeclares⟩ := Solution.mem_declarationsOf_iff.1
    (hfirst ▸ List.mem_cons_self : first ∈ ctx.solution.declarationsOf name)
  refine ⟨d', hd', first.node, hn, hdeclares, by rw [hfirst, ← hid]; rfl, ?_⟩
  rw [referenceToMark?, (typeToMark?_eq_some_iff hs hsemantic hd hnode hpath).2 ⟨_, h, rfl⟩,
    Option.bind_some, hsemantic]
  change (ctx.solution.declaringReferences (ctx.solution.typeSymbol first.name)).head? = _
  rw [Solution.declaringReferences_typeSymbol hs, hfirst, ← hid]
  rfl

theorem attributeClass_eq (hsemantic : ctx.semantic = ctx.solution.semanticModel)
    (a : WellKnownAttribute) : ctx.semantic.attributeClass a = some (.wellKnown a) := by
  rw [hsemantic]
  rfl

section Offers

variable (preference : NameStylePreference) (hs : ctx.solution.Distinct)
  (hsemantic : ctx.semantic = ctx.solution.semanticModel)
  (hdocument : ctx.document = .ok d) (hnode : ctx.node ∈ d.root.preorder)
  (hlive : s.cancelled = false)
include hs hsemantic hdocument hnode hlive

theorem fixes_of_not_toMark (hfield : enclosingField d.root ctx.node = some field)
    (hpath : d.root.FieldPath ctx.node field above below)
    (hnot : ∀ name, ¬ctx.solution.ToMark field ctx.node name) :
    ∃ first s', fixes preference enclosingField ctx s = .ok [first] s' ∧
      excludeField.Made ctx.solution d field
        ((preference.resolve d.root field.id).render (.wellKnown .nonSerialized)) first := by
  have hd := FixContext.mem_documents hdocument
  have hnearest := hpath.nearestField (hs.nodes.nodup_ids hd) hnode
  obtain ⟨first, u, hfirst, hmade⟩ := excludeFieldAction_of_class preference hd hnearest.mem
    hnearest.kind (attributeClass_eq hsemantic .nonSerialized) s
  have hnone : referenceToMark? ctx = none := by
    rw [referenceToMark?]
    cases htype : typeToMark? ctx with
    | none => rfl
    | some type =>
      obtain ⟨name, hname, -⟩ := (typeToMark?_eq_some_iff hs hsemantic hd hnode hpath).1 htype
      exact absurd hname (hnot name)
  exact ⟨first, _, fixes_of_candidates hlive hdocument hfield hfirst
    (markTypeAction?_of_none preference hnone _), hmade⟩

/-- The first declaration of a type to mark can be marked too, with nodes that are synthesized behind
those for the field. -/
theorem fixes_of_toMark_issued (hhost : ctx.host = snapshotHost)
    (hfield : enclosingField d.root ctx.node = some field)
    (hpath : d.root.FieldPath ctx.node field above below)
    (hname : ctx.solution.ToMark field ctx.node name) :
    ∃ first d' declaration second u v,
      fixes preference enclosingField ctx s = .ok [first, second] { s with supply := v } ∧
      excludeField.Issued ctx.solution d field
        ((preference.resolve d.root field.id).render (.wellKnown .nonSerialized)) s.supply u
        first ∧
      (ctx.solution.declarationsOf name).head? = some ⟨name, d'.id, declaration⟩ ∧
      declaration.DeclaresType name ∧
      markType.Issued ctx.solution d' declaration
        ((preference.resolve d'.root declaration.id).render (.wellKnown .serializable)) u v
        second := by
  have hd := FixContext.mem_documents hdocument
  have hnearest := hpath.nearestField (hs.nodes.nodup_ids hd) hnode
  obtain ⟨first, u, hfirst, hissued⟩ := excludeFieldAction_issued preference hd hnearest.mem
    hnearest.kind (attributeClass_eq hsemantic .nonSerialized) s
  obtain ⟨d', hd', declaration, hn, hdeclares, hhead, href⟩ :=
    referenceToMark?_of_toMark hs hsemantic hd hnode hpath hname
  obtain ⟨second, v, hsecond, hissued'⟩ := markTypeAction?_issued preference hs hhost
    (s := { s with supply := u }) hlive href hd' hn rfl hdeclares.isAttributable
    (attributeClass_eq hsemantic .serializable)
  exact ⟨first, d', declaration, second, u, v,
    fixes_of_candidates hlive hdocument hfield hfirst hsecond, hissued, hhead, hdeclares, hissued'⟩

theorem fixes_of_toMark (hhost : ctx.host = snapshotHost)
    (hfield : enclosingField d.root ctx.node = some field)
    (hpath : d.root.FieldPath ctx.node field above below)
    (hname : ctx.solution.ToMark field ctx.node name) :
    ∃ first d' declaration second s',
      fixes preference enclosingField ctx s = .ok [first, second] s' ∧
      excludeField.Made ctx.solution d field
        ((preference.resolve d.root field.id).render (.wellKnown .nonSerialized)) first ∧
      (ctx.solution.declarationsOf name).head? = some ⟨name, d'.id, declaration⟩ ∧
      declaration.DeclaresType name ∧
      markType.Made ctx.solution d' declaration
        ((preference.resolve d'.root declaration.id).render (.wellKnown .serializable))
        second := by
  obtain ⟨first, d', declaration, second, u, v, hfixes, hfirst, hhead, hdeclares, hsecond⟩ :=
    fixes_of_toMark_issued preference hs hsemantic hdocument hnode hlive hhost hfield hpath hname
  exact ⟨first, d', declaration, second, _, hfixes, hfirst.made, hhead, hdeclares, hsecond.made⟩

/-- **The exact condition of the two fixes.** The provider does not fail on the snapshot. It offers
nothing outside of fields. For a node in a field it offers to exclude the nearest one, and besides
to mark the first declaration of the field's type exactly if the type is one to mark. -/
theorem fixes_exact (hhost : ctx.host = snapshotHost) :
    ∃ actions s', fixes preference enclosingField ctx s = .ok actions s' ∧
      (((∀ g ∈ d.root.preorder, g.kind = Kind.fieldDeclaration → ctx.node ∉ g.preorder) ∧
          actions = []) ∨
        ∃ field first, d.root.NearestField ctx.node field ∧
          excludeField.Made ctx.solution d field
            ((preference.resolve d.root field.id).render (.wellKnown .nonSerialized)) first ∧
          (((∀ name, ¬ctx.solution.ToMark field ctx.node name) ∧ actions = [first]) ∨
            ∃ name d' declaration second, ctx.solution.ToMark field ctx.node name ∧
              (ctx.solution.declarationsOf name).head? = some ⟨name, d'.id, declaration⟩ ∧
              markType.Made ctx.solution d' declaration
                ((preference.resolve d'.root declaration.id).render (.wellKnown .serializable))
                second ∧
              actions = [first, second])) := by
  have hd := FixContext.mem_documents hdocument
  rcases enclosingField_cases (hs.nodes.nodup_ids hd) hnode with
    ⟨hnone, houtside⟩ | ⟨field, above, below, hfield, hpath⟩
  · exact ⟨[], s, fixes_of_no_field hlive hdocument hnone, Or.inl ⟨houtside, rfl⟩⟩
  · have hnearest := hpath.nearestField (hs.nodes.nodup_ids hd) hnode
    by_cases hmark : ∃ name, ctx.solution.ToMark field ctx.node name
    · obtain ⟨name, hname⟩ := hmark
      obtain ⟨first, d', declaration, second, s', hfixes, hmade, hhead, -, hmade'⟩ :=
        fixes_of_toMark preference hs hsemantic hdocument hnode hlive hhost hfield hpath hname
      exact ⟨_, s', hfixes, Or.inr ⟨field, first, hnearest, hmade,
        Or.inr ⟨name, d', declaration, second, hname, hhead, hmade', rfl⟩⟩⟩
    · have hnot := not_exists.1 hmark
      obtain ⟨first, s', hfixes, hmade⟩ :=
        fixes_of_not_toMark preference hs hsemantic hdocument hnode hlive hfield hpath hnot
      exact ⟨_, s', hfixes, Or.inr ⟨field, first, hnearest, hmade, Or.inl ⟨hnot, rfl⟩⟩⟩

end Offers

/-- At the field of `Holder` both fixes are offered. -/
theorem fixes_holder :
    ∃ first second s', fixes .auto enclosingField Holder.context ⟨⟨100⟩, false⟩ =
      .ok [first, second] s' ∧ first.title = excludeField.title ∧
        second.title = markType.title := by
  have hmark : Holder.solution.ToMark Holder.field Holder.context.node "Foo" := by
    refine ⟨⟨_, .first (by decide) rfl rfl, _, rfl⟩,
      ⟨_, _, rfl, rfl, false, by decide +kernel, by simp⟩,
      ⟨Holder.document, by decide, Holder.type, by decide, by decide, rfl⟩, ?_⟩
    have hnone : ∀ d ∈ Holder.solution.documents, ∀ n ∈ d.root.preorder,
        n.attributeNames = [] := by decide
    rintro d hd n hn - ⟨spelled, hspelled, -⟩
    rw [hnone d hd n hn] at hspelled
    cases hspelled
  have hdistinct : Holder.context.solution.Distinct := by decide
  have hnode : Holder.context.node ∈ Holder.document.root.preorder := by decide
  obtain ⟨actions, s', hfixes, ⟨houtside, -⟩ | ⟨field, first, hnearest, hfirst, hrest⟩⟩ :=
    fixes_exact .auto hdistinct rfl rfl hnode (s := ⟨⟨100⟩, false⟩) rfl rfl
  · exact absurd (Node.mem_preorder_self _) (houtside Holder.field (by decide) rfl)
  · have hfield : field = Holder.field := hnearest.eq
      ⟨by decide, rfl, Node.mem_preorder_self _, fun _ _ _ h ↦ h⟩
    subst hfield
    rcases hrest with ⟨hnot, -⟩ | ⟨name, d', t, second, -, -, hsecond, rfl⟩
    · exact absurd hmark (hnot "Foo")
    · exact ⟨first, second, s', hfixes, hfirst.title_eq, hsecond.title_eq⟩

end Serialization

end CodeFix
