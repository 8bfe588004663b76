import CodeFix.Proofs.Semantic.FieldSymbol
import CodeFix.Proofs.Solution.PathOrder

/-!
# Where the type of a field is declared

A type may be declared in parts, and which part comes first decides which file an edit of the type
goes to. The references to a declared type are its declarations, each one once, file after file in
the order of the paths and in each file from the front (`Solution.References`). Ids of documents
follow their creation and paths do not, so snapshots that hold the same files answer with the same
declarations of the same files, whichever file was added first.

The index is a filter on each tree, one tree after the other (`declarationsOf_eq`). What is shown of
the references is shown on that form: the order of two declarations in different trees is the order
of the trees, and in the same tree a filter keeps the order of the nodes.
-/

namespace CodeFix

instance {n : Node} {name : String} : Decidable (n.DeclaresType name) :=
  decidable_of_iff (Kind.isTypeDeclaration n.kind = true ∧ n.declaredName? = some name)
    ⟨fun h ↦ ⟨h.1, h.2⟩, fun h ↦ ⟨h.kind, h.name_eq⟩⟩

/-- The nodes of a tree that declare a type, from the front. -/
def Node.declaring (root : Node) (name : String) : List Node :=
  root.preorder.filter fun n ↦ n.DeclaresType name

theorem Node.mem_declaring_iff {root n : Node} {name : String} :
    n ∈ root.declaring name ↔ n ∈ root.preorder ∧ n.DeclaresType name := by
  rw [declaring, List.mem_filter, decide_eq_true_iff]

theorem Document.filter_typeDeclarations (d : Document) (name : String) :
    d.typeDeclarations.filter (fun t ↦ t.name == name) =
      (d.root.declaring name).map fun n ↦ ⟨name, d.id, n⟩ := by
  rw [typeDeclarations, Node.descendants_eq, Node.declaring, List.filterMap_filter,
    List.filter_filterMap, ← List.filterMap_eq_map, List.filterMap_filter]
  refine List.filterMap_congr fun n _ ↦ ?_
  by_cases h : n.DeclaresType name
  · rw [if_pos h.kind, h.name_eq, if_pos (decide_eq_true h)]
    simp
  · rw [if_neg (mt of_decide_eq_true h), Option.filter_eq_none_iff]
    intro t ht hname
    split at ht
    · next hkind =>
      obtain ⟨declared, hdeclared, rfl⟩ := Option.map_eq_some_iff.1 ht
      exact h ⟨hkind, beq_iff_eq.1 hname ▸ hdeclared⟩
    · cases ht

namespace Solution

variable {s s' : Solution} {name : String}

/-! ## Complete and in order -/

/-- The first reference is to a document with an earlier path, or to an earlier node of the same
document. -/
def RefersBefore (s : Solution) (r r' : SyntaxReference) : Prop :=
  ∃ d ∈ s.documents, ∃ d' ∈ s.documents, r.document = d.id ∧ r'.document = d'.id ∧
    (d.path.lt d'.path = true ∨ d = d' ∧ [r.node, r'.node].Sublist d.root.preorder)

/-- The references are to the declarations of a type, all of them and each one once, in the order of
the paths and from the front of each tree. -/
structure References (s : Solution) (name : String) (refs : List SyntaxReference) : Prop where
  mem_iff : ∀ r, r ∈ refs ↔ ∃ d ∈ s.documents, r.document = d.id ∧ r.node ∈ d.root.preorder ∧
    r.node.DeclaresType name
  nodup : refs.Nodup
  ordered : refs.Pairwise s.RefersBefore

theorem declarationsOf_eq (s : Solution) (name : String) :
    s.declarationsOf name = s.documentsByPath.flatMap fun d ↦
      (d.root.declaring name).map fun n ↦ ⟨name, d.id, n⟩ := by
  rw [declarationsOf, typeIndex, List.filter_flatMap]
  simp only [Document.filter_typeDeclarations]

theorem declaringReferences_eq (hs : s.Distinct) (name : String) :
    s.declaringReferences (s.typeSymbol name) = s.documentsByPath.flatMap fun d ↦
      (d.root.declaring name).map fun n ↦ ⟨d.id, n⟩ := by
  rw [declaringReferences_typeSymbol hs, declarationsOf_eq, List.map_flatMap]
  simp only [List.map_map]
  rfl

theorem RefersBefore.ne (hs : s.Distinct) {r r' : SyntaxReference} (h : s.RefersBefore r r') :
    r ≠ r' := by
  rintro rfl
  obtain ⟨d, hd, d', hd', hdocument, hdocument', hlt | ⟨-, hsublist⟩⟩ := h
  · -- a document does not come before itself
    rw [eq_of_id_eq hs.documents hd hd' (hdocument.symm.trans hdocument')] at hlt
    exact PathName.lt_irrefl _ hlt
  · have hnodup : d.root.preorder.Nodup := (hs.nodes.nodup_ids hd).of_map
    exact List.not_nodup_pair r.node (hnodup.sublist hsublist)

theorem references_typeSymbol (hs : s.Distinct) (hpaths : s.DistinctPaths) (name : String) :
    s.References name (s.declaringReferences (s.typeSymbol name)) := by
  rw [declaringReferences_eq hs]
  have hordered : (s.documentsByPath.flatMap fun d ↦ (d.root.declaring name).map
      fun n ↦ (⟨d.id, n⟩ : SyntaxReference)).Pairwise s.RefersBefore := by
    rw [List.pairwise_flatMap]
    constructor
    · intro d hd
      rw [mem_documentsByPath_iff] at hd
      rw [List.pairwise_map, List.pairwise_iff_forall_sublist]
      exact fun hsublist ↦
        ⟨d, hd, d, hd, rfl, rfl, .inr ⟨rfl, hsublist.trans List.filter_sublist⟩⟩
    · refine (pairwise_documentsByPath hpaths).imp_of_mem fun {d d'} hd hd' hlt ↦ ?_
      rw [mem_documentsByPath_iff] at hd hd'
      intro r hr r' hr'
      obtain ⟨n, -, rfl⟩ := List.mem_map.1 hr
      obtain ⟨n', -, rfl⟩ := List.mem_map.1 hr'
      exact ⟨d, hd, d', hd', rfl, rfl, .inl hlt⟩
  refine ⟨fun r ↦ ?_, hordered.imp (RefersBefore.ne hs), hordered⟩
  simp only [List.mem_flatMap, mem_documentsByPath_iff, List.mem_map, Node.mem_declaring_iff]
  constructor
  · rintro ⟨d, hd, n, ⟨hn, hdeclares⟩, rfl⟩
    exact ⟨d, hd, rfl, hn, hdeclares⟩
  · rintro ⟨d, hd, hdocument, hn, hdeclares⟩
    exact ⟨d, hd, r.node, ⟨hn, hdeclares⟩, by rw [← hdocument]⟩

/-! ## Independence of the order of creation -/

/-- References with the documents given by their paths. -/
def located (s : Solution) (refs : List SyntaxReference) : List (Option PathName × Node) :=
  refs.map fun r ↦ ((s.document? r.document).map Document.path, r.node)

theorem located_declaringReferences (hs : s.Distinct) (name : String) :
    s.located (s.declaringReferences (s.typeSymbol name)) =
      (s.documentsByPath.map Document.file).flatMap fun f ↦
        (f.2.declaring name).map fun n ↦ (some f.1, n) := by
  rw [declaringReferences_eq hs, located, List.map_flatMap, List.flatMap_map]
  refine List.flatMap_congr fun d hd ↦ ?_
  rw [List.map_map]
  refine List.map_congr_left fun n _ ↦ ?_
  change ((s.document? d.id).map Document.path, n) = _
  rw [document?_of_mem hs.documents (mem_documentsByPath_iff.1 hd)]
  rfl

theorem isValueType_eq (s : Solution) (name : String) :
    s.isValueType name = ((s.documentsByPath.map Document.file).flatMap fun f ↦
      f.2.declaring name).head?.any fun n ↦ Kind.isValueTypeDeclaration n.kind := by
  have hnodes : (s.documentsByPath.map Document.file).flatMap (fun f ↦ f.2.declaring name) =
      (s.declarationsOf name).map TypeDeclaration.node := by
    rw [declarationsOf_eq, List.map_flatMap, List.flatMap_map]
    simp only [List.map_map]
    exact List.flatMap_congr fun d _ ↦ (List.map_id _).symm
  rw [hnodes, isValueType, List.head?_map, Option.any_map]

theorem Distinct.of_perm (hs : s.Distinct) (hs' : s'.DistinctDocuments)
    (h : (s.documents.map Document.file).Perm (s'.documents.map Document.file)) :
    s'.Distinct := by
  have hids := h.flatMap_right fun f ↦ f.2.ids
  rw [List.flatMap_map, List.flatMap_map] at hids
  exact ⟨hs', hids.nodup_iff.1 hs.nodes⟩

/-- The type of the field, if its spelling makes no other type of the declared one. -/
theorem fieldType?_of_plain {field : Symbol} {spelled : String} {t : TypeName}
    (hkind : field.kind = .field) (hspelled : field.typeName = some spelled)
    (hparse : TypeName.parse spelled = some t) (harray : t.array = false)
    (hvalue : t.nullable = true → s.isValueType t.name = false) :
    s.fieldType? field = some (s.typeSymbol t.name) := by
  rw [fieldType?_of_typeName hkind hspelled, hparse, Option.map_some, if_neg]
  simpa [harray] using hvalue

theorem fieldType?_of_undeclared {field : Symbol} {spelled : String} {t : TypeName}
    (hkind : field.kind = .field) (hspelled : field.typeName = some spelled)
    (hparse : TypeName.parse spelled = some t)
    (hundeclared : ∀ d ∈ s.documents, ∀ n ∈ d.root.preorder, ¬n.DeclaresType t.name) :
    ∃ name, s.fieldType? field = some (metadataType name) := by
  have hnil : s.declarationsOf t.name = [] := by
    by_contra hne
    obtain ⟨d, hd, n, hn, hdeclares⟩ := declarationsOf_ne_nil_iff.1 hne
    exact hundeclared d hd n hn hdeclares
  have hmetadata : s.typeSymbol t.name = metadataType t.name := by rw [typeSymbol, hnil]
  rw [fieldType?_of_typeName hkind hspelled, hparse, Option.map_some, hmetadata]
  split
  · exact ⟨_, rfl⟩
  · exact ⟨_, rfl⟩

/-- **The references to the type of a field.** If its spelling comes down to a name, they are to the
declarations of that name, complete and in order, and to the same declarations in every snapshot of
the same files. A type that is declared nowhere comes from metadata and has none. -/
theorem declaringReferences_fieldType (hs : s.Distinct) (hpaths : s.DistinctPaths)
    {field : Symbol} {spelled : String} {t : TypeName} (hkind : field.kind = .field)
    (hspelled : field.typeName = some spelled) (hparse : TypeName.parse spelled = some t) :
    (t.array = false → (t.nullable = true → s.isValueType t.name = false) →
      ∃ type, s.semanticModel.fieldType field = some type ∧
        s.References t.name (s.semanticModel.declaringReferences type) ∧
        ∀ (s' : Solution) (field' : Symbol), s'.DistinctDocuments →
          (s.documents.map Document.file).Perm (s'.documents.map Document.file) →
          field'.kind = .field → field'.typeName = some spelled →
          ∃ type', s'.semanticModel.fieldType field' = some type' ∧
            s'.located (s'.semanticModel.declaringReferences type') =
              s.located (s.semanticModel.declaringReferences type)) ∧
    ((∀ d ∈ s.documents, ∀ n ∈ d.root.preorder, ¬n.DeclaresType t.name) →
      ∃ type, s.semanticModel.fieldType field = some type ∧
        type.locations = [.metadata metadataAssembly] ∧
        s.semanticModel.declaringReferences type = []) := by
  constructor
  · intro harray hvalue
    refine ⟨s.typeSymbol t.name, fieldType?_of_plain hkind hspelled hparse harray hvalue,
      references_typeSymbol hs hpaths t.name, fun s' field' hs' hfiles hkind' hspelled' ↦ ?_⟩
    have hsorted := map_file_documentsByPath hpaths hfiles
    have hvalue' : t.nullable = true → s'.isValueType t.name = false := by
      rwa [isValueType_eq, ← hsorted, ← isValueType_eq]
    refine ⟨s'.typeSymbol t.name, fieldType?_of_plain hkind' hspelled' hparse harray hvalue', ?_⟩
    change s'.located (s'.declaringReferences _) = s.located (s.declaringReferences _)
    rw [located_declaringReferences hs, hsorted,
      located_declaringReferences (hs.of_perm hs' hfiles)]
  · intro hundeclared
    obtain ⟨name, htype⟩ := fieldType?_of_undeclared hkind hspelled hparse hundeclared
    exact ⟨metadataType name, htype, rfl, rfl⟩

/-! ### A type in two files -/

private def partialType (id : Nat) : Node :=
  (Node.create Kind.classDeclaration [.token ⟨"partial", "", "partial"⟩,
    .token ⟨"class", " ", "class"⟩, .token ⟨Kind.identifier, " ", "Foo"⟩] ⟨id⟩).1

private def partialFile (id : Nat) (path : String) : Document :=
  .create ⟨id⟩ ⟨0⟩ ⟨path⟩
    (Node.create Kind.compilationUnit [.node (partialType (2 * id + 1))] ⟨2 * id⟩).1

/-- The file with the later path was added first. -/
private def partialSolution : Solution :=
  Solution.empty.withProject (((Project.create "Parts" ⟨0⟩).1.withDocument
    (partialFile 0 "B.cs") rfl).withDocument (partialFile 1 "A.cs") rfl)

private def partialField : Symbol :=
  { name := "foo", kind := .field, typeName := some "Foo" }

/-- Both parts of `Foo` are found from the type of a field. -/
theorem declaringReferences_of_parts :
    partialSolution.documents = [partialFile 0 "B.cs", partialFile 1 "A.cs"] ∧
    ∃ type, partialSolution.semanticModel.fieldType partialField = some type ∧
      partialSolution.References "Foo"
        (partialSolution.semanticModel.declaringReferences type) := by
  have hdistinct : partialSolution.Distinct := by decide
  have hpaths : partialSolution.DistinctPaths := by decide +kernel
  have hkind : partialField.kind = .field := rfl
  have hparse : TypeName.parse "Foo" = some ⟨"Foo", false, false⟩ := by decide +kernel
  obtain ⟨type, htype, hreferences, -⟩ :=
    (declaringReferences_fieldType hdistinct hpaths hkind rfl hparse).1 rfl nofun
  exact ⟨by decide, type, htype, hreferences⟩

end Solution

end CodeFix
