import CodeFix.Fix.Serialization
import CodeFix.Proofs.Attribute.Identity
import CodeFix.Proofs.Solution.Documents

/-!
# What the provider offers

Every action of the provider adds one attribute to one declaration of one document of the snapshot
(`Offer.Made`); the two offers differ in the declaration they pick and in the scope their producer
edits. The field that a candidate excludes lies in the document of the context. The type that the
other candidate marks may lie anywhere, but as the host serves the trees of the snapshot, it is
edited in the tree in which it was found.
-/

namespace CodeFix

theorem FixContext.mem_documents {ctx : FixContext} {d : Document} (h : ctx.document = .ok d) :
    d ∈ ctx.solution.documents := by
  rw [FixContext.document] at h
  cases hfound : ctx.solution.document? ctx.documentId with
  | none =>
    rw [hfound] at h
    cases h
  | some b =>
    rw [hfound] at h
    cases h
    exact List.mem_of_find?_eq_some hfound

theorem enclosingField_eq_some {root node field : Node}
    (h : enclosingField root node = some field) :
    field ∈ root.preorder ∧ field.kind = Kind.fieldDeclaration ∧ node.id ∈ field.ids := by
  obtain ⟨path, hpath, hfind⟩ := Option.bind_eq_some_iff.1 h
  have hmem : field ∈ path := List.mem_reverse.1 (List.mem_of_find?_eq_some hfind)
  obtain ⟨hroot, hid⟩ := Node.mem_preorder_of_mem_pathTo? hpath hmem
  exact ⟨hroot, by simpa using List.find?_some hfind, hid⟩

namespace Serialization

variable {preference : NameStylePreference} {ctx : FixContext} {base : Solution} {d : Document}
  {field n : Node} {s s' : FixState} {cls : AttributeClass}

/-- The action adds the attribute of an offer, under the given name, to a declaration of a document.
What it edits is the document alone or, with the same outcome, the whole solution. -/
structure Offer.Made (o : Offer) (base : Solution) (d : Document) (n : Node) (name : String)
    (a : CodeAction) : Prop where
  title_eq : a.title = o.title
  key_eq : a.equivalenceKey = o.key
  base_eq : a.base = base
  document : d ∈ base.documents
  declaration : n ∈ d.root.preorder
  producer : ∃ updated, n.Annotated name updated ∧
    (a.producer = (do return .document (← d.replaceNode n.id updated)) ∨
      a.producer = (do return .solution (← base.replaceNode d.root n.id updated)))

/-- The action of an offer whose nodes were synthesized between two states of the supply. -/
structure Offer.Issued (o : Offer) (base : Solution) (d : Document) (n : Node) (name : String)
    (u v : Supply) (a : CodeAction) : Prop where
  title_eq : a.title = o.title
  key_eq : a.equivalenceKey = o.key
  base_eq : a.base = base
  document : d ∈ base.documents
  declaration : n ∈ d.root.preorder
  producer : ∃ list new, n.Extended list new name u v ∧
    (a.producer = (do return .document (← d.replaceNode n.id new)) ∨
      a.producer = (do return .solution (← base.replaceNode d.root n.id new)))

theorem Offer.Issued.made {o : Offer} {name : String} {u v : Supply} {a : CodeAction}
    (h : o.Issued base d n name u v a) : o.Made base d n name a := by
  obtain ⟨list, new, hextended, hproducer⟩ := h.producer
  exact ⟨h.title_eq, h.key_eq, h.base_eq, h.document, h.declaration, new, hextended.annotated,
    hproducer⟩

/-- The name is a spelling of the class that the semantic model has for the offer's attribute. -/
def Offer.Names (o : Offer) (ctx : FixContext) (name : String) : Prop :=
  ∃ (cls : AttributeClass) (style : NameStyle),
    ctx.semantic.attributeClass o.added = some cls ∧ name = style.render cls

theorem Offer.attributeClass_of_some {o : Offer}
    (h : ctx.semantic.attributeClass o.added = some cls) :
    o.attributeClass ctx = .ok cls := by
  rw [Offer.attributeClass, h]

theorem Offer.attributeClass_of_none {o : Offer} (h : ctx.semantic.attributeClass o.added = none) :
    o.attributeClass ctx = .error (.attributeUnavailable o.added.metadataName) := by
  rw [Offer.attributeClass, h]

/-! ## Excluding the field -/

theorem excludeFieldAction_issued (preference : NameStylePreference)
    (hd : d ∈ ctx.solution.documents) (hfield : field ∈ d.root.preorder)
    (hkind : field.kind = Kind.fieldDeclaration)
    (hcls : ctx.semantic.attributeClass .nonSerialized = some cls) (s : FixState) :
    ∃ a v, excludeFieldAction preference ctx d field s = .ok a { s with supply := v } ∧
      excludeField.Issued ctx.solution d field
        ((preference.resolve d.root field.id).render cls) s.supply v a := by
  have hcontains : d.root.contains field.id = true :=
    Node.contains_iff.2 (Node.mem_ids_of_mem hfield)
  have hattributable : Kind.isAttributable field.kind = true := by
    rw [hkind]
    decide
  obtain ⟨list, new, v, hrun, hextended⟩ := addAttributes_extended hattributable cls
    (preference.resolve d.root field.id) s.supply
  have hclass : excludeField.attributeClass ctx = .ok cls := Offer.attributeClass_of_some hcls
  refine ⟨⟨excludeField.title, excludeField.key, ctx.solution,
    do return .document (← d.replaceNode field.id new)⟩, v, ?_,
    ⟨rfl, rfl, rfl, hd, hfield, list, new, hextended, Or.inl rfl⟩⟩
  rw [excludeFieldAction, hcontains, hclass]
  exact bind_of_ok (FixM.ofEdit_of_ok hrun)

theorem excludeFieldAction_of_class (preference : NameStylePreference)
    (hd : d ∈ ctx.solution.documents) (hfield : field ∈ d.root.preorder)
    (hkind : field.kind = Kind.fieldDeclaration)
    (hcls : ctx.semantic.attributeClass .nonSerialized = some cls) (s : FixState) :
    ∃ a u, excludeFieldAction preference ctx d field s = .ok a { s with supply := u } ∧
      excludeField.Made ctx.solution d field
        ((preference.resolve d.root field.id).render cls) a := by
  obtain ⟨a, v, hrun, hissued⟩ :=
    excludeFieldAction_issued preference hd hfield hkind hcls s
  exact ⟨a, v, hrun, hissued.made⟩

theorem excludeFieldAction_of_no_class (preference : NameStylePreference)
    (hfield : field ∈ d.root.preorder)
    (hcls : ctx.semantic.attributeClass .nonSerialized = none) (s : FixState) :
    ∃ e, excludeFieldAction preference ctx d field s = .error e s := by
  have hcontains : d.root.contains field.id = true :=
    Node.contains_iff.2 (Node.mem_ids_of_mem hfield)
  have hclass : excludeField.attributeClass ctx =
      .error (.attributeUnavailable excludeField.added.metadataName) :=
    Offer.attributeClass_of_none hcls
  exact ⟨_, by rw [excludeFieldAction, hcontains, hclass]; rfl⟩

theorem excludeFieldAction_cases (preference : NameStylePreference)
    (hd : d ∈ ctx.solution.documents) (hfield : field ∈ d.root.preorder)
    (hkind : field.kind = Kind.fieldDeclaration) (s : FixState) :
    (∃ a v name, excludeFieldAction preference ctx d field s = .ok a { s with supply := v } ∧
        excludeField.Names ctx name ∧
        excludeField.Issued ctx.solution d field name s.supply v a) ∨
      ∃ e, excludeFieldAction preference ctx d field s = .error e s := by
  cases hcls : ctx.semantic.attributeClass .nonSerialized with
  | none => exact Or.inr (excludeFieldAction_of_no_class preference hfield hcls s)
  | some cls =>
    obtain ⟨a, v, hrun, hissued⟩ :=
      excludeFieldAction_issued preference hd hfield hkind hcls s
    exact Or.inl ⟨a, v, _, hrun, ⟨cls, _, hcls, rfl⟩, hissued⟩

/-- What an action of this kind is. Of the tree nothing is known but that it has the field's id. -/
theorem exists_of_excludeFieldAction {a : CodeAction}
    (h : excludeFieldAction preference ctx d field s = .ok a s') :
    d.root.contains field.id = true ∧ ∃ cls new u v,
      addAttributes field [cls] (preference.resolve d.root field.id) u = .ok new v ∧
        a = ⟨excludeField.title, excludeField.key, ctx.solution,
          do return .document (← d.replaceNode field.id new)⟩ := by
  rw [excludeFieldAction] at h
  cases hcontains : d.root.contains field.id with
  | false =>
    rw [hcontains] at h
    cases h
  | true =>
    rw [hcontains] at h
    obtain ⟨cls, s₁, -, hrest⟩ := bind_eq_ok_iff.1 h
    obtain ⟨new, s₂, hadd, hreturn⟩ := bind_eq_ok_iff.1 hrest
    obtain ⟨v, hnew⟩ := FixM.exists_of_ofEdit hadd
    cases hreturn
    exact ⟨rfl, cls, new, _, v, hnew, rfl⟩

/-! ## Marking the type -/

/-- The node whose declaration is to be marked, as the semantic model knows it. -/
def referenceToMark? (ctx : FixContext) : Option SyntaxReference :=
  (typeToMark? ctx).bind fun type ↦ (ctx.semantic.declaringReferences type).head?

theorem markTypeAction?_of_none (preference : NameStylePreference)
    (href : referenceToMark? ctx = none) (s : FixState) :
    markTypeAction? preference ctx s = .ok none s := by
  rw [referenceToMark?] at href
  rw [markTypeAction?, href]
  rfl

theorem markTypeAction?_of_fetched (preference : NameStylePreference) {reference : SyntaxReference}
    {root : Node} (href : referenceToMark? ctx = some reference)
    (howner : ctx.solution.documentOwning? reference.node.id = some d)
    (hfetch : ctx.fetchRoot d s = .ok root s') :
    markTypeAction? preference ctx s = (do
      let declaration ← FixM.ofEdit (EditM.ofOption
        (.nodeNotFound reference.node.id d.path.text) (root.find? reference.node.id))
      let cls ← FixM.ofExcept (markType.attributeClass ctx)
      let updated ← FixM.ofEdit
        (addAttributes declaration [cls] (preference.resolve root reference.node.id))
      return some {
        title := markType.title
        equivalenceKey := markType.key
        base := ctx.solution
        producer := return .solution (← ctx.solution.replaceNode root reference.node.id
          updated) } :
        FixM (Option CodeAction)) s' := by
  rw [referenceToMark?] at href
  rw [markTypeAction?, href]
  simp only []
  rw [howner]
  exact bind_of_ok hfetch

section MarkType

variable (preference) (hs : ctx.solution.Distinct) (hhost : ctx.host = snapshotHost)
  (hlive : s.cancelled = false)
include hs hhost hlive

private theorem markTypeAction?_of_reference {reference : SyntaxReference}
    (href : referenceToMark? ctx = some reference) (hd : d ∈ ctx.solution.documents)
    (hn : n ∈ d.root.preorder) (hid : n.id = reference.node.id) :
    markTypeAction? preference ctx s = (do
      let cls ← FixM.ofExcept (markType.attributeClass ctx)
      let updated ← FixM.ofEdit (addAttributes n [cls] (preference.resolve d.root n.id))
      return some {
        title := markType.title
        equivalenceKey := markType.key
        base := ctx.solution
        producer := return .solution (← ctx.solution.replaceNode d.root n.id updated) } :
        FixM (Option CodeAction)) s := by
  have howner : ctx.solution.documentOwning? reference.node.id = some d :=
    hid ▸ hs.nodes.documentOwning?_of_mem hd hn
  rw [markTypeAction?_of_fetched preference href howner
    (FixContext.fetchRoot_snapshotHost hhost hlive d), ← hid,
    Node.find?_of_mem (hs.nodes.nodup_ids hd) hn]
  rfl

theorem markTypeAction?_issued {reference : SyntaxReference}
    (href : referenceToMark? ctx = some reference) (hd : d ∈ ctx.solution.documents)
    (hn : n ∈ d.root.preorder) (hid : n.id = reference.node.id)
    (hkind : Kind.isAttributable n.kind = true)
    (hcls : ctx.semantic.attributeClass .serializable = some cls) :
    ∃ a v, markTypeAction? preference ctx s = .ok (some a) { s with supply := v } ∧
      markType.Issued ctx.solution d n ((preference.resolve d.root n.id).render cls) s.supply v
        a := by
  obtain ⟨list, new, v, hrun, hextended⟩ := addAttributes_extended hkind cls
    (preference.resolve d.root n.id) s.supply
  have hclass : markType.attributeClass ctx = .ok cls := Offer.attributeClass_of_some hcls
  refine ⟨⟨markType.title, markType.key, ctx.solution,
    do return .solution (← ctx.solution.replaceNode d.root n.id new)⟩, v, ?_,
    ⟨rfl, rfl, rfl, hd, hn, list, new, hextended, Or.inr rfl⟩⟩
  rw [markTypeAction?_of_reference preference hs hhost hlive href hd hn hid, hclass]
  exact bind_of_ok (FixM.ofEdit_of_ok hrun)

/-- Either nothing comes about and nothing is drawn, or an action is built for a declaration of the
snapshot. -/
theorem markTypeAction?_cases :
    (markTypeAction? preference ctx s = .ok none s ∨
        ∃ e, markTypeAction? preference ctx s = .error e s) ∨
      ∃ a v d n name, markTypeAction? preference ctx s = .ok (some a) { s with supply := v } ∧
        markType.Names ctx name ∧ markType.Issued ctx.solution d n name s.supply v a := by
  cases href : referenceToMark? ctx with
  | none => exact Or.inl (Or.inl (markTypeAction?_of_none preference href s))
  | some reference =>
    cases howner : ctx.solution.documentOwning? reference.node.id with
    | none =>
      refine Or.inl (Or.inr ⟨.nodeNotFound reference.node.id "solution", ?_⟩)
      rw [referenceToMark?] at href
      rw [markTypeAction?, href]
      simp only []
      rw [howner]
      rfl
    | some d =>
      obtain ⟨hd, hid⟩ := hs.nodes.documentOwning?_eq_some_iff.1 howner
      obtain ⟨n, hn, hnid⟩ := List.mem_map.1 hid
      have hrest := markTypeAction?_of_reference preference hs hhost hlive href hd hn hnid
      cases hcls : ctx.semantic.attributeClass .serializable with
      | none =>
        have hclass : markType.attributeClass ctx =
            .error (.attributeUnavailable markType.added.metadataName) :=
          Offer.attributeClass_of_none hcls
        rw [hclass] at hrest
        exact Or.inl (Or.inr ⟨_, hrest⟩)
      | some cls =>
        by_cases hkind : Kind.isAttributable n.kind = true
        · obtain ⟨a, v, hrun, hissued⟩ :=
            markTypeAction?_issued preference hs hhost hlive href hd hn hnid hkind hcls
          exact Or.inr ⟨a, v, d, n, _, hrun, ⟨cls, _, hcls, rfl⟩, hissued⟩
        · have hclass : markType.attributeClass ctx = .ok cls := Offer.attributeClass_of_some hcls
          have hfound : FixM.ofExcept (Except.ok cls : Except FixError AttributeClass) s =
              .ok cls s := rfl
          rw [hclass, bind_of_ok hfound] at hrest
          exact Or.inl (Or.inr ⟨_, hrest.trans (bind_of_error (FixM.ofEdit_of_error
            (addAttributes_of_not_attributable (Bool.eq_false_iff.2 hkind) _ _ _)))⟩)

end MarkType

theorem markTypeAction?_of_class (preference : NameStylePreference) (hs : ctx.solution.Distinct)
    (hhost : ctx.host = snapshotHost) {reference : SyntaxReference}
    (href : referenceToMark? ctx = some reference) (hd : d ∈ ctx.solution.documents)
    (hn : n ∈ d.root.preorder) (hid : n.id = reference.node.id)
    (hkind : Kind.isAttributable n.kind = true)
    (hcls : ctx.semantic.attributeClass .serializable = some cls) (hlive : s.cancelled = false) :
    ∃ a u, markTypeAction? preference ctx s = .ok (some a) { s with supply := u } ∧
      markType.Made ctx.solution d n ((preference.resolve d.root n.id).render cls) a := by
  obtain ⟨a, v, hrun, hissued⟩ :=
    markTypeAction?_issued preference hs hhost hlive href hd hn hid hkind hcls
  exact ⟨a, v, hrun, hissued.made⟩

/-! ## Both candidates -/

/-- The actions for a context were built one after another. -/
inductive IssuedInTurn (ctx : FixContext) : Supply → List CodeAction → Supply → Prop
  | nil {u v : Supply} (hle : u.next ≤ v.next) : IssuedInTurn ctx u [] v
  | cons {u v w : Supply} {a : CodeAction} {as : List CodeAction} {o : Offer} {d : Document}
      {n : Node} {name : String} (hname : o.Names ctx name)
      (ha : o.Issued ctx.solution d n name u v a) (has : IssuedInTurn ctx v as w) :
      IssuedInTurn ctx u (a :: as) w

theorem IssuedInTurn.exists_of_mem {u w : Supply} {a : CodeAction}
    {as : List CodeAction} (h : IssuedInTurn ctx u as w) (ha : a ∈ as) :
    ∃ o d n name v v', Offer.Names o ctx name ∧ o.Issued ctx.solution d n name v v' a := by
  induction h with
  | nil => cases ha
  | cons hname hb _ ih =>
    rcases List.mem_cons.1 ha with rfl | ha
    · exact ⟨_, _, _, _, _, _, hname, hb⟩
    · exact ih ha

section Candidates

variable {extract : FieldExtractor} {s₁ s₂ : FixState} {a : CodeAction} {b : Option CodeAction}
  {actions : List CodeAction} {e : FixError}

theorem fixes_of_cancelled (hdead : s.cancelled = true) :
    fixes preference extract ctx s = .error .cancelled s := by
  rw [fixes]
  exact bind_of_error ((FixM.checkCancelled_eq s).trans (if_pos hdead))

theorem fixes_of_live (hlive : s.cancelled = false) (hdocument : ctx.document = .ok d) :
    fixes preference extract ctx s = (match extract d.root ctx.node with
      | none => return []
      | some field => candidates preference ctx d field : FixM (List CodeAction)) s := by
  have hcheck : FixM.checkCancelled s = .ok () s :=
    (FixM.checkCancelled_eq s).trans (if_neg (by rw [hlive]; exact Bool.false_ne_true))
  rw [fixes, bind_of_ok hcheck, hdocument]
  rfl

theorem fixes_of_no_field (hlive : s.cancelled = false) (hdocument : ctx.document = .ok d)
    (hfield : extract d.root ctx.node = none) : fixes preference extract ctx s = .ok [] s := by
  rw [fixes_of_live hlive hdocument, hfield]
  rfl

theorem fixes_of_candidates (hlive : s.cancelled = false) (hdocument : ctx.document = .ok d)
    (hfield : extract d.root ctx.node = some field)
    (hfirst : excludeFieldAction preference ctx d field s = .ok a s₁)
    (hsecond : markTypeAction? preference ctx s₁ = .ok b s₂) :
    fixes preference extract ctx s = .ok (a :: b.toList) s₂ := by
  rw [fixes_of_live hlive hdocument, hfield]
  simp only [candidates]
  rw [bind_of_ok (FixM.outcome_of_ok hfirst), bind_of_ok (FixM.outcome_of_ok hsecond)]
  rfl

/-- Every action comes from one of the two candidates. -/
theorem exists_candidate_of_mem_fixes (h : fixes preference extract ctx s = .ok actions s')
    (ha : a ∈ actions) :
    (∃ d field s₁ s₂, ctx.document = .ok d ∧
        excludeFieldAction preference ctx d field s₁ = .ok a s₂) ∨
      ∃ s₁ s₂, markTypeAction? preference ctx s₁ = .ok (some a) s₂ := by
  obtain ⟨-, s₁, -, hsteps⟩ := bind_eq_ok_iff.1 h
  obtain ⟨d, s₂, hread, hfields⟩ := bind_eq_ok_iff.1 hsteps
  have hdocument := FixM.eq_ok_of_ofExcept hread
  cases hfield : extract d.root ctx.node with
  | none =>
    rw [hfield] at hfields
    cases hfields
    cases ha
  | some field =>
    rw [hfield] at hfields
    obtain ⟨first, s₃, hfirst, hrest⟩ := bind_eq_ok_iff.1 hfields
    obtain ⟨second, s₄, hsecond, hsettled⟩ := bind_eq_ok_iff.1 hrest
    have hmark : ∀ b, second = .ok b → a ∈ b.toList →
        ∃ s₁ s₂, markTypeAction? preference ctx s₁ = .ok (some a) s₂ := by
      rintro b rfl hb
      rw [Option.mem_toList] at hb
      rw [hb] at hsecond
      exact ⟨_, _, FixM.exists_of_outcome hsecond⟩
    cases first with
    | ok a₁ =>
      have hexclude := FixM.exists_of_outcome hfirst
      cases second with
      | ok b =>
        cases hsettled
        rcases List.mem_cons.1 ha with rfl | hb
        · exact Or.inl ⟨d, field, _, _, hdocument, hexclude⟩
        · exact Or.inr (hmark b rfl hb)
      | error e =>
        cases hsettled
        rw [List.mem_singleton.1 ha]
        exact Or.inl ⟨d, field, _, _, hdocument, hexclude⟩
    | error e =>
      cases second with
      | ok b =>
        cases b with
        | none => cases hsettled
        | some a₂ =>
          cases hsettled
          exact Or.inr (hmark (some a₂) rfl ha)
      | error e' => cases hsettled

/-- **The fixes for a context are built one after another**, whatever the semantic model answers.
The two candidates are independent: each may fail, and what they offer is strung together. -/
theorem fixes_issued (hs : ctx.solution.Distinct) (hhost : ctx.host = snapshotHost)
    (h : fixes preference enclosingField ctx s = .ok actions s') :
    IssuedInTurn ctx s.supply actions s'.supply := by
  have hlive : s.cancelled = false := by
    rw [← Bool.not_eq_true]
    intro hdead
    rw [fixes_of_cancelled hdead] at h
    cases h
  cases hdocument : ctx.document with
  | error e =>
    obtain ⟨-, s₁, -, hsteps⟩ := bind_eq_ok_iff.1 h
    rw [hdocument] at hsteps
    cases hsteps
  | ok d =>
    cases hfield : enclosingField d.root ctx.node with
    | none =>
      rw [fixes_of_no_field hlive hdocument hfield] at h
      cases h
      exact .nil (Nat.le_refl _)
    | some field =>
      obtain ⟨hmem, hkind, -⟩ := enclosingField_eq_some hfield
      rw [fixes_of_live hlive hdocument, hfield] at h
      simp only [candidates] at h
      rcases excludeFieldAction_cases preference (FixContext.mem_documents hdocument) hmem hkind s
        with ⟨a, v, name, hfirst, hname, ha⟩ | ⟨e, hfirst⟩
      · rw [bind_of_ok (FixM.outcome_of_ok hfirst)] at h
        rcases markTypeAction?_cases preference hs hhost (s := { s with supply := v }) hlive with
          (hsecond | ⟨e, hsecond⟩) | ⟨b, w, d', n, name', hsecond, hname', hb⟩
        · rw [bind_of_ok (FixM.outcome_of_ok hsecond)] at h
          cases h
          exact .cons hname ha (.nil (Nat.le_refl _))
        · rw [bind_of_ok (FixM.outcome_of_error hsecond)] at h
          cases h
          exact .cons hname ha (.nil (Nat.le_refl _))
        · rw [bind_of_ok (FixM.outcome_of_ok hsecond)] at h
          cases h
          exact .cons hname ha (.cons hname' hb (.nil (Nat.le_refl _)))
      · rw [bind_of_ok (FixM.outcome_of_error hfirst)] at h
        rcases markTypeAction?_cases preference hs hhost hlive with
          (hsecond | ⟨e', hsecond⟩) | ⟨b, w, d', n, name', hsecond, hname', hb⟩
        · rw [bind_of_ok (FixM.outcome_of_ok hsecond)] at h
          cases h
        · rw [bind_of_ok (FixM.outcome_of_error hsecond)] at h
          cases h
        · rw [bind_of_ok (FixM.outcome_of_ok hsecond)] at h
          cases h
          exact .cons hname' hb (.nil (Nat.le_refl _))

/-- **Every action adds an attribute.** Whatever the semantic model answers, an action edits one
declaration in the tree that the snapshot has. -/
theorem made_of_mem_fixes (hs : ctx.solution.Distinct) (hhost : ctx.host = snapshotHost)
    (h : fixes preference enclosingField ctx s = .ok actions s') (ha : a ∈ actions) :
    ∃ o d n name, Offer.Names o ctx name ∧ o.Made ctx.solution d n name a := by
  obtain ⟨o, d, n, name, u, v, hname, hissued⟩ := (fixes_issued hs hhost h).exists_of_mem ha
  exact ⟨o, d, n, name, hname, hissued.made⟩

end Candidates

end Serialization

/-! ## A file with a field to mend -/

namespace Holder

private def synthesize (id : Nat) (kind : String) (children : List Element) : Node :=
  ⟨⟨⟨id⟩, ⟨id, []⟩, kind, false⟩, children⟩

/-- The field `Foo foo;`. -/
def field : Node :=
  synthesize 4 Kind.fieldDeclaration
    [.node (synthesize 5 Kind.variableDeclaration
      [.token ⟨Kind.identifier, "\n    ", "Foo"⟩,
        .node (synthesize 6 Kind.variableDeclarator [.token ⟨Kind.identifier, " ", "foo"⟩])]),
      .token ⟨";", "", ";"⟩]

/-- The class `Foo`. -/
def type : Node :=
  synthesize 1 Kind.classDeclaration
    [.token ⟨"class", "", "class"⟩, .token ⟨Kind.identifier, " ", "Foo"⟩,
      .token ⟨"\x7b", " ", "\x7b"⟩, .token ⟨"\x7d", " ", "\x7d"⟩]

/-- The class `Foo` and, on the lines behind it, the class `Holder` with the field. -/
def document : Document where
  id := ⟨0⟩
  project := ⟨0⟩
  path := ⟨"Holder.cs"⟩
  root := synthesize 0 Kind.compilationUnit
    [.node type, .node (synthesize 2 Kind.classDeclaration
      [.token ⟨"class", "\n", "class"⟩, .token ⟨Kind.identifier, " ", "Holder"⟩,
        .token ⟨"\x7b", " ", "\x7b"⟩, .node field, .token ⟨"\x7d", "\n", "\x7d"⟩])]
  version := 0

/-- The solution with that file alone. -/
def solution : Solution :=
  Solution.empty.withProject ((Project.create "Holder" ⟨0⟩).1.withDocument document rfl)

/-- The context of a finding at the field. -/
def context : FixContext :=
  ⟨solution, document.id, field, ⟨Serialization.rule, document.path, 3, 5, .warning, none⟩,
    solution.semanticModel, snapshotHost⟩

end Holder

end CodeFix
