import CodeFix.Proofs.Solution.Documents
import CodeFix.Semantic.Model

/-!
# The symbol of a type

A type symbol stands for all declarations of one name, in whatever documents. What is asked of it
comes down to the list of these declarations: the type is in source if the list is not empty, it has
an attribute if some declaration carries it, and its declaring references are the declarations
again, one by one and in the same order. The last point needs distinct identities, because a
reference is found again by the ids of its document and of its node.
-/

namespace CodeFix

/-- The node declares the type with a name. -/
structure Node.DeclaresType (n : Node) (name : String) : Prop where
  kind : Kind.isTypeDeclaration n.kind = true
  name_eq : n.declaredName? = some name

theorem Node.DeclaresType.isAttributable {n : Node} {name : String} (h : n.DeclaresType name) :
    Kind.isAttributable n.kind = true := by
  have hkind := h.kind
  rw [Kind.isTypeDeclaration, List.contains_iff_mem] at hkind
  rw [Kind.isAttributable, List.contains_iff_mem]
  exact List.mem_append_left _ hkind

/-- Some attribute on the declaration has the name, with the conventional suffix or without it. -/
def Node.HasAttribute (n : Node) (shortName : String) : Prop :=
  ∃ spelled ∈ n.attributeNames, Text.lastSegment '.' spelled = shortName ∨
    Text.lastSegment '.' spelled = shortName ++ attributeSuffix

theorem Document.mem_typeDeclarations_iff {d : Document} {t : TypeDeclaration} :
    t ∈ d.typeDeclarations ↔
      t.document = d.id ∧ t.node ∈ d.root.preorder ∧ t.node.DeclaresType t.name := by
  rw [typeDeclarations, Node.descendants_eq, List.mem_filterMap]
  constructor
  · rintro ⟨n, hn, ht⟩
    obtain ⟨hmem, hkind⟩ := List.mem_filter.1 hn
    obtain ⟨name, hname, rfl⟩ := Option.map_eq_some_iff.1 ht
    exact ⟨rfl, hmem, hkind, hname⟩
  · rintro ⟨hdocument, hmem, hkind, hname⟩
    refine ⟨t.node, List.mem_filter.2 ⟨hmem, hkind⟩, ?_⟩
    rw [hname, Option.map_some, ← hdocument]

namespace Solution

variable {s : Solution} {d : Document} {n : Node} {t : TypeDeclaration} {name : String}

/-- **The index.** The declarations of a type are the nodes that declare its name. -/
theorem mem_declarationsOf_iff :
    t ∈ s.declarationsOf name ↔ t.name = name ∧
      ∃ d ∈ s.documents, t.document = d.id ∧ t.node ∈ d.root.preorder ∧
        t.node.DeclaresType name := by
  rw [declarationsOf, List.mem_filter, typeIndex, List.mem_flatMap, beq_iff_eq, and_comm]
  refine and_congr_right fun hname ↦ exists_congr fun d ↦ ?_
  rw [documentsByPath, List.mem_mergeSort, Document.mem_typeDeclarations_iff, hname]

theorem declarationsOf_ne_nil_iff :
    s.declarationsOf name ≠ [] ↔
      ∃ d ∈ s.documents, ∃ n ∈ d.root.preorder, n.DeclaresType name := by
  constructor
  · intro h
    obtain ⟨t, ht⟩ := List.exists_mem_of_ne_nil _ h
    obtain ⟨-, d, hd, -, hn, hdeclares⟩ := mem_declarationsOf_iff.1 ht
    exact ⟨d, hd, t.node, hn, hdeclares⟩
  · rintro ⟨d, hd, n, hn, hdeclares⟩
    exact List.ne_nil_of_mem (a := ⟨name, d.id, n⟩)
      (mem_declarationsOf_iff.2 ⟨rfl, d, hd, rfl, hn, hdeclares⟩)

/-! ## What the symbol tells -/

theorem typeSymbol_of_ne_nil (h : s.declarationsOf name ≠ []) :
    s.typeSymbol name =
      { name, kind := .type
        attributes := (s.declarationsOf name).flatMap fun t ↦ t.node.attributeNames
        locations := (s.declarationsOf name).map fun t ↦ .inSource t.document t.node.id } := by
  rw [typeSymbol]
  cases hds : s.declarationsOf name with
  | nil => exact absurd hds h
  | cons t ts => rfl

theorem typeSymbol_inSource_iff :
    (s.typeSymbol name).locations.any SymbolLocation.isInSource = true ↔
      s.declarationsOf name ≠ [] := by
  constructor
  · intro h hnil
    rw [typeSymbol, hnil] at h
    cases h
  · intro h
    rw [typeSymbol_of_ne_nil h, List.any_map]
    obtain ⟨t, ts, hts⟩ := List.exists_cons_of_ne_nil h
    rw [hts]
    rfl

theorem typeSymbol_hasAttribute_eq_false_iff (h : s.declarationsOf name ≠ [])
    (shortName : String) :
    (s.typeSymbol name).hasAttribute shortName = false ↔
      ∀ d ∈ s.documents, ∀ n ∈ d.root.preorder, n.DeclaresType name →
        ¬n.HasAttribute shortName := by
  have hany : (s.typeSymbol name).hasAttribute shortName = true ↔
      ∃ t ∈ s.declarationsOf name, t.node.HasAttribute shortName := by
    rw [typeSymbol_of_ne_nil h, Symbol.hasAttribute, List.any_flatMap, List.any_eq_true]
    simp only [List.any_eq_true, Bool.or_eq_true, beq_iff_eq]
    rfl
  rw [← Bool.not_eq_true, hany]
  constructor
  · intro hnone d hd n hn hdeclares hattribute
    exact hnone ⟨⟨name, d.id, n⟩, mem_declarationsOf_iff.2 ⟨rfl, d, hd, rfl, hn, hdeclares⟩,
      hattribute⟩
  · rintro hall ⟨t, ht, hattribute⟩
    obtain ⟨-, d, hd, -, hn, hdeclares⟩ := mem_declarationsOf_iff.1 ht
    exact hall d hd t.node hn hdeclares hattribute

theorem metadataType_not_inSource (spelled : String) :
    (metadataType spelled).locations.any SymbolLocation.isInSource = false := rfl

/-- **References.** They are the declarations of the type, in the order of the index. -/
theorem declaringReferences_typeSymbol (hs : s.Distinct) (name : String) :
    s.declaringReferences (s.typeSymbol name) =
      (s.declarationsOf name).map fun t ↦ ⟨t.document, t.node⟩ := by
  by_cases h : s.declarationsOf name = []
  · rw [declaringReferences, typeSymbol, h]
    rfl
  · rw [declaringReferences, typeSymbol_of_ne_nil h, List.filterMap_map]
    refine List.filterMap_eq_map_iff_forall_eq_some.2 fun t ht ↦ ?_
    obtain ⟨-, d, hd, hdocument, hn, -⟩ := mem_declarationsOf_iff.1 ht
    change ((s.document? t.document).bind fun d ↦ (d.root.find? t.node.id).map _) = _
    rw [hdocument, document?_of_mem hs.documents hd, Option.bind_some,
      Node.find?_of_mem (hs.nodes.nodup_ids hd) hn]
    rfl

end Solution

end CodeFix
