import CodeFix.Proofs.Fix.Condition
import CodeFix.Proofs.Semantic.Reading

/-!
# The index after an edit

A snapshot in which a type declaration got an attribute is indexed anew, all trees and all paths.
As every tree follows the one before, the new index lists the same names for the same documents in
the same order, and what the model tells of a type stays what it was, except for the type that the
edited declaration declares. In particular a field asks for the same type as before, and that type
is to be marked exactly if it was to be marked before (`Solution.Edited.toMark_iff`).
-/

namespace CodeFix

variable {s s' : Solution} {old list new n : Node} {f : Document → Document} {d : Document}
  {name : String}

/-- A snapshot in which a type declaration was exchanged for a version with one more attribute list;
the function tells what became of each document. -/
structure Solution.Edited (s s' : Solution) (old list new : Node) (f : Document → Document) :
    Prop where
  gains : old.Gains list new
  declaration : Kind.isTypeDeclaration old.kind = true
  ordinary : ∀ d ∈ s.documents, d.root.Ordinary
  documents : s'.documents = s.documents.map f
  id_eq : ∀ d ∈ s.documents, (f d).id = d.id
  path_eq : ∀ d ∈ s.documents, (f d).path = d.path
  follows : ∀ d ∈ s.documents, Node.Follows old new d.root (f d).root
  fresh : ∀ id ∈ new.id :: list.ids, ∀ d ∈ s.documents, id ∉ d.root.ids
  gone : ∀ d ∈ s'.documents, old.id ∉ d.root.ids

theorem Solution.edited_of_updatedBy {x : Document} (hs : s.Distinct) (hd : d ∈ s.documents)
    (hgains : old.Gains list new) (hold : Kind.isTypeDeclaration old.kind = true)
    (hordinary : ∀ d ∈ s.documents, d.root.Ordinary)
    (hdocuments : s'.documents = s.documents.map fun y ↦ y.updatedBy [x])
    (hid : x.id = d.id) (hpath : x.path = d.path)
    (hexchanged : Node.Exchanged old new d.root x.root)
    (hfresh : ∀ id ∈ new.id :: list.ids, ∀ d ∈ s.documents, id ∉ d.root.ids)
    (hgone : old.id ∉ x.root.ids) :
    s.Edited s' old list new fun y ↦ y.updatedBy [x] := by
  have hcases : ∀ y ∈ s.documents,
      (y = d ∧ y.updatedBy [x] = x) ∨ (y ≠ d ∧ y.updatedBy [x] = y) :=
    fun y hy ↦ updatedBy_cases hs.documents hd hid hy
  refine ⟨hgains, hold, hordinary, hdocuments, fun y _ ↦ y.updatedBy_id _, fun y hy ↦ ?_,
    fun y hy ↦ ?_, hfresh, fun y hy hmem ↦ ?_⟩
  · rcases hcases y hy with ⟨rfl, h⟩ | ⟨-, h⟩ <;> rw [h]
    exact hpath
  · rcases hcases y hy with ⟨rfl, h⟩ | ⟨-, h⟩ <;> rw [h]
    · exact Or.inr hexchanged
    · exact Node.Follows.refl old new y.root
  · rw [hdocuments] at hy
    obtain ⟨z, hz, rfl⟩ := List.mem_map.1 hy
    rcases hcases z hz with ⟨rfl, h⟩ | ⟨hne, h⟩ <;> rw [h] at hmem
    · exact hgone hmem
    · -- no other document has the id of a node in this one
      exact hne (hs.nodes.eq_of_mem_ids hz hd hmem (Node.mem_ids_of_mem hexchanged.mem_preorder))

/-- An entry of the new index for an entry of the old one. -/
structure TypeDeclaration.Follows (old new : Node) (t t' : TypeDeclaration) : Prop where
  name_eq : t'.name = t.name
  document_eq : t'.document = t.document
  node : Node.Follows old new t.node t'.node

theorem Kind.isTypeDeclaration_of_mem_attributeParts {kind : String}
    (h : kind ∈ Kind.attributeParts) : Kind.isTypeDeclaration kind = false := by
  revert kind
  decide

namespace Solution.Edited

variable (h : s.Edited s' old list new f)
include h

/-! ## Type declarations -/

theorem forall₂_typeDeclarations (hd : d ∈ s.documents) :
    List.Forall₂ (TypeDeclaration.Follows old new) d.typeDeclarations (f d).typeDeclarations := by
  have hnodes := (h.follows d hd).forall₂_preorder h.gains
    (p := fun n ↦ Kind.isTypeDeclaration n.kind) (q := fun n ↦ Kind.isTypeDeclaration n.kind)
    (fun x x' hx ↦ by rw [hx.kind_eq h.gains])
    fun x hx ↦ Kind.isTypeDeclaration_of_mem_attributeParts (h.gains.kinds x hx)
  rw [Document.typeDeclarations, Document.typeDeclarations, Node.descendants_eq,
    Node.descendants_eq]
  refine List.rel_filterMap ?_ hnodes
  intro x x' hx
  beta_reduce
  rw [hx.declaredName?_eq h.gains, h.id_eq d hd]
  cases x.declaredName? with
  | none => exact .none
  | some name => exact .some ⟨rfl, rfl, hx⟩

theorem documentsByPath_eq : s'.documentsByPath = s.documentsByPath.map f := by
  rw [documentsByPath, documentsByPath, h.documents]
  exact (List.map_mergeSort fun a ha b hb ↦ by rw [h.path_eq a ha, h.path_eq b hb]).symm

/-- **The index** lists the same types in the same order. -/
theorem forall₂_typeIndex :
    List.Forall₂ (TypeDeclaration.Follows old new) s.typeIndex s'.typeIndex := by
  rw [typeIndex, typeIndex, h.documentsByPath_eq]
  have hpaths : List.Forall₂ (fun d d' ↦ d ∈ s.documents ∧ d' = f d) s.documentsByPath
      (s.documentsByPath.map f) := by
    rw [List.forall₂_map_right_iff, List.forall₂_same]
    exact fun d hd ↦ ⟨List.mem_mergeSort.1 hd, rfl⟩
  refine List.rel_flatMap hpaths ?_
  rintro d _ ⟨hd, rfl⟩
  exact h.forall₂_typeDeclarations hd

theorem forall₂_declarationsOf (name : String) :
    List.Forall₂ (fun t t' ↦ t ∈ s.declarationsOf name ∧ TypeDeclaration.Follows old new t t')
      (s.declarationsOf name) (s'.declarationsOf name) := by
  have hfilter := forall₂_filter h.forall₂_typeIndex (p := (·.name == name))
    (q := (·.name == name)) fun t t' ht ↦ by rw [ht.name_eq]
  exact hfilter.imp fun t t' ht ↦ ⟨List.mem_filter.2 ht.1, ht.2⟩

theorem isValueType_eq (name : String) : s'.isValueType name = s.isValueType name := by
  have hkinds : (s.declarationsOf name).map (·.node.kind) =
      (s'.declarationsOf name).map (·.node.kind) :=
    forall₂_iff_map_eq.1 ((h.forall₂_declarationsOf name).imp fun _ _ ht ↦
      (ht.2.node.kind_eq h.gains).symm)
  have hfirst : ∀ s : Solution, s.isValueType name =
      ((s.declarationsOf name).map (·.node.kind)).head?.any Kind.isValueTypeDeclaration := by
    intro s
    rw [isValueType, List.head?_map, Option.any_map]
  rw [hfirst, hfirst, hkinds]

theorem declarationsOf_ne_nil_iff (name : String) :
    s'.declarationsOf name ≠ [] ↔ s.declarationsOf name ≠ [] := by
  rw [← List.length_pos_iff, ← List.length_pos_iff, (h.forall₂_declarationsOf name).length_eq]

/-- A type that the edited declaration does not declare is marked as much as before. -/
theorem unmarked_iff (hne : ¬old.DeclaresType name) :
    (∀ t ∈ s'.declarationsOf name, ¬t.node.HasAttribute "Serializable") ↔
      ∀ t ∈ s.declarationsOf name, ¬t.node.HasAttribute "Serializable" := by
  refine (forall_mem_iff_of_forall₂ ((h.forall₂_declarationsOf name).imp ?_)).symm
  rintro t t' ⟨ht, hfollows⟩
  obtain ⟨-, d, hd, -, hn, hdeclares⟩ := mem_declarationsOf_iff.1 ht
  have hold : t.node ≠ old := fun hold ↦ hne (hold ▸ hdeclares)
  have hitems : ∀ a ∈ t.node.preorder, a.kind = Kind.attributeItem →
      ∀ x ∈ a.preorder, Kind.isTypeDeclaration x.kind = false := fun a ha ↦
    (h.ordinary d hd).attributes a (Node.mem_preorder_trans ha hn)
  rw [Node.HasAttribute, Node.HasAttribute,
    hfollows.node.attributeNames_eq h.gains h.declaration hold hitems]

end Solution.Edited

/-! ## Fields -/

theorem Node.Follows.declarator_eq {field field' : Node} {path path' : List Node}
    (hnew : old.Gains list new) (hold : Kind.isTypeDeclaration old.kind = true)
    (hfield : Follows old new field field') (hkind : field.kind = Kind.fieldDeclaration)
    (hpath : List.Forall₂ (Follows old new) path path') :
    (Solution.declaratorFor? field' path').bind declaredName? =
      (Solution.declaratorFor? field path).bind declaredName? := by
  have hfind := rel_find? hpath (p := (·.kind == Kind.variableDeclarator))
    (q := (·.kind == Kind.variableDeclarator)) fun _ _ hx ↦ by rw [hx.kind_eq hnew]
  rw [Solution.declaratorFor?, Solution.declaratorFor?]
  generalize path.find? _ = o at hfind ⊢
  generalize path'.find? _ = o' at hfind ⊢
  cases hfind with
  | some hx => exact hx.2.declaredName?_eq hnew
  | none =>
    -- the first declarator of the field, found one child at a time
    rw [Option.none_or, Option.none_or, Option.bind_assoc, Option.bind_assoc]
    refine (bind_eq_of_rel (hfield.rel_childNode? hnew (ne_of_kind_eq hold hkind (by decide)) _)
      fun declaration declaration' hd ↦ ?_).symm
    have hdne := ne_of_kind_eq hold (beq_iff_eq.1 hd.1.2) (by decide)
    exact bind_eq_of_rel (hd.2.rel_childNode? hnew hdne _)
      fun x x' hx ↦ (hx.2.declaredName?_eq hnew).symm

namespace Solution

variable {node node' field field' : Node} {above above' below below' : List Node}

/-- What makes a type one to mark, as far as it is read from the tree and the index. -/
theorem toMark_iff (hs : s.Distinct) (hd : d ∈ s.documents) (hnode : node ∈ d.root.preorder)
    (hpath : d.root.FieldPath node field above below) :
    s.ToMark field node name ↔
      (∃ n, (declaratorFor? field (field :: below)).bind Node.declaredName? = some n) ∧
      (∃ spelled, field.spelledType? = some spelled ∧
        ∃ nullable, TypeName.parse spelled = some ⟨name, false, nullable⟩ ∧
          (nullable = true → s.isValueType name = false)) ∧
      s.declarationsOf name ≠ [] ∧
      ∀ t ∈ s.declarationsOf name, ¬t.node.HasAttribute "Serializable" := by
  have hnearest := hpath.nearestField (hs.nodes.nodup_ids hd) hnode
  have hnamed : ∀ x, declaratorFor? field (field :: below) = some x ↔ field.NamedBy node x :=
    fun x ↦ declaratorFor?_eq_some_iff (Node.nodup_ids_of_mem (hs.nodes.nodup_ids hd) hnearest.mem)
      hnearest.inside (Node.pathTo?_of_append hpath.path)
  constructor
  · rintro ⟨⟨x, hx, n, hn⟩, ⟨declaration, e, hdeclaration, he, hparse⟩, hdeclared, hunmarked⟩
    refine ⟨⟨n, ?_⟩, ⟨e.trimmedText, ?_, hparse⟩, declarationsOf_ne_nil_iff.2 hdeclared,
      fun t ht ↦ ?_⟩
    · rw [(hnamed x).2 hx, Option.bind_some, hn]
    · rw [Node.spelledType?, hdeclaration, Option.bind_some, he, Option.map_some]
    · obtain ⟨-, d', hd', -, hn', hdeclares⟩ := mem_declarationsOf_iff.1 ht
      exact hunmarked d' hd' _ hn' hdeclares
  · rintro ⟨⟨n, hn⟩, ⟨spelled, hspelled, hparse⟩, hdeclared, hunmarked⟩
    obtain ⟨x, hx, hxn⟩ := Option.bind_eq_some_iff.1 hn
    obtain ⟨declaration, hdeclaration, hhead⟩ := Option.bind_eq_some_iff.1 hspelled
    obtain ⟨e, he, rfl⟩ := Option.map_eq_some_iff.1 hhead
    refine ⟨⟨x, (hnamed x).1 hx, n, hxn⟩, ⟨declaration, e, hdeclaration, he, hparse⟩,
      declarationsOf_ne_nil_iff.1 hdeclared, fun d' hd' m hm hdeclares ↦ ?_⟩
    exact hunmarked ⟨name, d'.id, m⟩
      (mem_declarationsOf_iff.2 ⟨rfl, d', hd', rfl, hm, hdeclares⟩)

theorem ToMark.typeNamed (h : s.ToMark field node name) : field.TypeNamed name := by
  obtain ⟨declaration, e, hdeclaration, he, nullable, hparse, -⟩ := h.spelled
  refine ⟨e.trimmedText, _, ?_, hparse, rfl⟩
  rw [Node.spelledType?, hdeclaration, Option.bind_some, he, Option.map_some]

namespace Edited

variable (h : s.Edited s' old list new f)
include h

theorem spelledType?_eq (hd : d ∈ s.documents) (hfield : field ∈ d.root.preorder)
    (hkind : field.kind = Kind.fieldDeclaration) (hfollows : Node.Follows old new field field') :
    field'.spelledType? = field.spelledType? :=
  hfollows.spelledType?_eq h.gains h.declaration hkind
    ((h.ordinary d hd).types field hfield hkind)

/-- **Other types** are to be marked exactly if they were to be marked before. -/
theorem toMark_iff (hs : s.Distinct) (hs' : s'.Distinct) (hd : d ∈ s.documents)
    (hnode : node ∈ d.root.preorder) (hnode' : node' ∈ (f d).root.preorder)
    (hpath : d.root.FieldPath node field above below)
    (hpath' : (f d).root.FieldPath node' field' above' below')
    (hfollows : List.Forall₂ (Node.Follows old new) (field :: below) (field' :: below'))
    (hne : ¬old.DeclaresType name) : s'.ToMark field' node' name ↔ s.ToMark field node name := by
  have hd' : f d ∈ s'.documents := h.documents ▸ List.mem_map_of_mem hd
  have hfield := (List.forall₂_cons.1 hfollows).1
  have hmem := (hpath.nearestField (hs.nodes.nodup_ids hd) hnode).mem
  rw [Solution.toMark_iff hs hd hnode hpath, Solution.toMark_iff hs' hd' hnode' hpath',
    hfield.declarator_eq h.gains h.declaration hpath.kind hfollows,
    h.spelledType?_eq hd hmem hpath.kind hfield, h.isValueType_eq, h.declarationsOf_ne_nil_iff,
    h.unmarked_iff hne]

/-- **The edited type** is not to be marked again, once its new version has the attribute. -/
theorem not_toMark (hold : old.DeclaresType name) (hd : d ∈ s'.documents)
    (hnew : new ∈ d.root.preorder) (hmarked : new.HasAttribute "Serializable") :
    ¬s'.ToMark field' node' name := by
  intro htoMark
  have hfollows : Node.Follows old new old new := Or.inr .hole
  exact htoMark.unmarked d hd new hnew ⟨h.gains.kind ▸ hold.kind,
    (hfollows.declaredName?_eq h.gains).trans hold.name_eq⟩ hmarked

/-! ### The same place in both snapshots -/

/-- Every field was there before, under its id and with the type that it is spelled with. -/
theorem exists_field (hd : d ∈ s.documents) (hfield : field' ∈ (f d).root.preorder)
    (hkind : field'.kind = Kind.fieldDeclaration) :
    ∃ field ∈ d.root.preorder, field.kind = Kind.fieldDeclaration ∧ field.id = field'.id ∧
      field.spelledType? = field'.spelledType? := by
  have hfields := (h.follows d hd).forall₂_preorder h.gains
    (p := (·.kind == Kind.fieldDeclaration)) (q := (·.kind == Kind.fieldDeclaration))
    (fun x x' hx ↦ by rw [hx.kind_eq h.gains]) fun x hx ↦ by
      have hparts : ∀ kind ∈ Kind.attributeParts, (kind == Kind.fieldDeclaration) = false := by
        decide
      exact hparts x.kind (h.gains.kinds x hx)
  obtain ⟨field, hmem, hfollows⟩ := exists_of_mem_right hfields
    (List.mem_filter.2 ⟨hfield, beq_iff_eq.2 hkind⟩)
  obtain ⟨hmem, hfieldKind⟩ := List.mem_filter.1 hmem
  have hne := Node.ne_of_kind_eq h.declaration (beq_iff_eq.1 hfieldKind) (by decide)
  exact ⟨field, hmem, beq_iff_eq.1 hfieldKind, (hfollows.id_eq hne).symm,
    (h.spelledType?_eq hd hmem (beq_iff_eq.1 hfieldKind) hfollows).symm⟩

theorem exists_fieldPath (hs : s.Distinct) (hs' : s'.Distinct) (hd : d ∈ s.documents)
    (hnode : node ∈ d.root.preorder) (hnode' : node' ∈ (f d).root.preorder)
    (hid : node.id = node'.id) (hpath' : (f d).root.FieldPath node' field' above' below') :
    ∃ field above below, d.root.FieldPath node field above below ∧
      List.Forall₂ (Node.Follows old new) (field :: below) (field' :: below') := by
  have hd' : f d ∈ s'.documents := h.documents ▸ List.mem_map_of_mem hd
  have hnodeid := Node.mem_ids_of_mem hnode
  have hold : node.id ≠ old.id := by
    intro heq
    exact h.gone _ hd' (heq ▸ hid ▸ Node.mem_ids_of_mem hnode')
  have hfresh : node.id ∉ new.id :: list.ids := fun hmem ↦ h.fresh _ hmem d hd hnodeid
  obtain ⟨path, path', hpath, hpath₂, hfollows⟩ := (h.follows d hd).exists_pathTo? h.gains
    (hs.nodes.nodup_ids hd) (hs'.nodes.nodup_ids hd') hnodeid hold hfresh
  rw [hid, hpath'.path] at hpath₂
  cases hpath₂
  obtain ⟨above, field, below, rfl, -, hfield, hbelow⟩ := exists_append_cons_of_forall₂ hfollows
  have hkinds : (∀ x ∈ below, x.kind ≠ Kind.fieldDeclaration) ↔
      ∀ x ∈ below', x.kind ≠ Kind.fieldDeclaration :=
    forall_mem_iff_of_forall₂ (hbelow.imp fun x x' hx ↦ by rw [hx.kind_eq h.gains])
  exact ⟨field, above, below, ⟨hpath, (hfield.kind_eq h.gains) ▸ hpath'.kind,
    hkinds.2 hpath'.below_kind⟩, .cons hfield hbelow⟩

end Edited

end Solution

end CodeFix
