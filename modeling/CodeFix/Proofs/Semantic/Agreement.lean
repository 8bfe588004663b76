import CodeFix.Proofs.Semantic.FieldSymbol

/-!
# The extractor and the semantic model agree on the field

A fix asks two parties about the flagged node. The extractor looks for the field in the tree that it
is given, and the semantic model looks for the document that owns the node and answers with a
symbol. Both cut the same path at the same place, so the symbol is that of the extracted field
(`Symbol.Describes`): nothing of it is taken from another field, however fields, types and
declarators are nested.

The model answers with a field whenever it could read one off the extracted declaration. It does not
answer with a type there.
-/

namespace CodeFix

variable {root node field x type : Node} {above below : List Node} {s : Solution} {d : Document}

/-! ## The type around a field -/

/-- The innermost type declaration around a field. -/
structure Node.TypeAround (root field type : Node) : Prop where
  mem : type ∈ root.preorder
  kind : Kind.isTypeDeclaration type.kind = true
  inside : field ∈ type.preorder
  proper : type ≠ field
  innermost : ∀ g ∈ root.preorder, Kind.isTypeDeclaration g.kind = true → field ∈ g.preorder →
    g ≠ field → type ∈ g.preorder

theorem Node.TypeAround.eq {type' : Node} (h : root.TypeAround field type)
    (h' : root.TypeAround field type') : type = type' :=
  Node.eq_of_mem_preorder (h.innermost type' h'.mem h'.kind h'.inside h'.proper)
    (h'.innermost type h.mem h.kind h.inside h.proper)

namespace Node.FieldPath

variable (hroot : root.ids.Nodup) (hnode : node ∈ root.preorder)
  (h : root.FieldPath node field above below)
include hroot hnode h

/-- The nodes above the field on the path are those properly around it. -/
theorem mem_above_iff {m : Node} :
    m ∈ above ↔ m ∈ root.preorder ∧ field ∈ m.preorder ∧ m ≠ field := by
  have hpairwise := List.pairwise_append.1 (Node.pairwise_pathTo? h.path)
  have hnodup : (above ++ field :: below).Nodup :=
    List.Nodup.sublist (Node.sublist_pathTo? h.path) hroot.of_map
  constructor
  · intro hm
    refine ⟨(Node.mem_preorder_of_mem_pathTo? h.path (List.mem_append_left _ hm)).1,
      hpairwise.2.2 m hm field List.mem_cons_self, ?_⟩
    rintro rfl
    exact (List.nodup_append.1 hnodup).2.2 m hm m List.mem_cons_self rfl
  · rintro ⟨hm, hinside, hne⟩
    have hin := Node.mem_preorder_trans (h.nearestField hroot hnode).inside hinside
    have hpath := (Node.mem_pathTo?_iff hroot h.path).2 ⟨hm, Node.mem_ids_of_mem hin⟩
    rcases List.mem_append.1 hpath with habove | hbelow
    · exact habove
    · rcases List.mem_cons.1 hbelow with rfl | hbelow
      · exact absurd rfl hne
      · -- what lies below the field does not lie around it
        have hmfield := (List.pairwise_cons.1 hpairwise.2.1).1 m hbelow
        exact absurd (Node.eq_of_mem_preorder hmfield hinside) hne

theorem find?_above_eq_some_iff :
    above.reverse.find? (fun n ↦ Kind.isTypeDeclaration n.kind) = some type ↔
      root.TypeAround field type := by
  have hfound : ∀ {t : Node},
      above.reverse.find? (fun n ↦ Kind.isTypeDeclaration n.kind) = some t →
        root.TypeAround field t := by
    intro t ht
    obtain ⟨before, after, habove, hkind, hafter⟩ := find?_reverse_eq_some_iff.1 ht
    obtain ⟨hmem, hinside, hne⟩ := (h.mem_above_iff hroot hnode).1
      (habove ▸ List.mem_append_right before List.mem_cons_self)
    refine ⟨hmem, hkind, hinside, hne, fun g hg hgkind hgin hgne ↦ ?_⟩
    have hgabove := (h.mem_above_iff hroot hnode).2 ⟨hg, hgin, hgne⟩
    have hpairwise := (List.pairwise_append.1 (Node.pairwise_pathTo? h.path)).1
    rw [habove] at hgabove hpairwise
    rcases List.mem_append.1 hgabove with hbefore | hbehind
    · exact (List.pairwise_append.1 hpairwise).2.2 g hbefore t List.mem_cons_self
    · rcases List.mem_cons.1 hbehind with rfl | hbehind
      · exact g.mem_preorder_self
      · rw [hafter g hbehind] at hgkind
        cases hgkind
  refine ⟨hfound, fun ht ↦ ?_⟩
  cases hfind : above.reverse.find? fun n ↦ Kind.isTypeDeclaration n.kind with
  | none =>
    have hmem := (h.mem_above_iff hroot hnode).2 ⟨ht.mem, ht.inside, ht.proper⟩
    exact absurd ht.kind (List.find?_eq_none.1 hfind type (List.mem_reverse.2 hmem))
  | some t => rw [(hfound hfind).eq ht]

end Node.FieldPath

/-! ## The symbol of an extracted field -/

/-- The symbol is that of a field in a document, asked for at a node in the field. -/
structure Symbol.Describes (symbol : Symbol) (d : Document) (field node : Node) : Prop where
  kind : symbol.kind = .field
  declarator : ∃ x, field.NamedBy node x ∧ x ∈ field.preorder ∧
    x.kind = Kind.variableDeclarator ∧ x.declaredName? = some symbol.name ∧
    symbol.locations = [.inSource d.id x.id]
  typeName : ∃ declaration type, field.childNode? Kind.variableDeclaration = some declaration ∧
    declaration.children.head? = some type ∧ symbol.typeName = some type.trimmedText
  attributes : symbol.attributes = field.attributeNames
  container_iff : ∀ name, symbol.container = some name ↔
    ∃ type, d.root.TypeAround field type ∧ type.declaredName? = some name

theorem Node.childNode?_eq_some {n k : Node} {kind : String} (h : n.childNode? kind = some k) :
    k ∈ n.preorder ∧ k.kind = kind := by
  have hmem := List.mem_of_find?_eq_some h
  exact ⟨Node.mem_preorder_of_child (Node.mem_childNodes_iff.1 hmem) k.mem_preorder_self,
    by simpa using List.find?_some h⟩

theorem Node.NamedBy.mem_kind (h : field.NamedBy node x) :
    x ∈ field.preorder ∧ x.kind = Kind.variableDeclarator := by
  cases h with
  | around mem kind => exact ⟨mem, kind⟩
  | first _ hdeclaration hx =>
    obtain ⟨hmem, -⟩ := Node.childNode?_eq_some hdeclaration
    obtain ⟨hxmem, hkind⟩ := Node.childNode?_eq_some hx
    exact ⟨Node.mem_preorder_trans hxmem hmem, hkind⟩

namespace Solution

theorem cutAtLast?_eq_none {kind : String} {path : List Node} (h : ∀ x ∈ path, x.kind ≠ kind) :
    cutAtLast? kind path = none := by
  have htake : path.reverse.takeWhile (fun n ↦ n.kind != kind) = path.reverse :=
    List.takeWhile_eq_self_iff.2 fun x hx ↦ by simpa using h x (List.mem_reverse.1 hx)
  simp only [cutAtLast?, htake, List.length_reverse, Nat.sub_self, if_pos]

theorem typeSymbol_kind (s : Solution) (name : String) : (s.typeSymbol name).kind = .type := by
  rw [typeSymbol]
  split <;> rfl

theorem kind_of_declaredSymbol? (hs : s.DistinctNodes) (hd : d ∈ s.documents)
    (hnode : node ∈ d.root.preorder)
    (houtside : ∀ g ∈ d.root.preorder, g.kind = Kind.fieldDeclaration → node ∉ g.preorder)
    {symbol : Symbol} (h : s.declaredSymbol? node = some symbol) : symbol.kind = .type := by
  have hroot := hs.nodup_ids hd
  obtain ⟨path, hpath⟩ := Node.exists_pathTo? (Node.mem_ids_of_mem hnode)
  have hkind : ∀ x ∈ path, x.kind ≠ Kind.fieldDeclaration := by
    intro x hx hkind
    obtain ⟨hmem, hid⟩ := (Node.mem_pathTo?_iff hroot hpath).1 hx
    exact houtside x hmem hkind ((Node.id_mem_ids_iff hroot hmem hnode).1 hid)
  rw [declaredSymbol?, hs.documentOwning?_of_mem hd hnode, Option.bind_eq_bind, Option.bind_some,
    hpath, Option.bind_eq_bind, Option.bind_some, cutAtLast?_eq_none hkind] at h
  dsimp only at h
  split at h
  · obtain ⟨name, -, rfl⟩ := Option.map_eq_some_iff.1 h
    exact typeSymbol_kind s name
  · cases h

/-- **Agreement.** A field symbol is that of the field which the extractor finds in the document
that holds the node. Where the extractor finds a field, the model does not answer with a type, and
it answers if the field spells out a type and the declarator has a name. -/
theorem declaredSymbol_agrees (hs : s.DistinctNodes) (hd : d ∈ s.documents)
    (hnode : node ∈ d.root.preorder) :
    (∀ symbol, s.semanticModel.declaredSymbol node = some symbol → symbol.kind = .field →
      ∃ field, enclosingField d.root node = some field ∧ symbol.Describes d field node) ∧
    ∀ field, enclosingField d.root node = some field →
      (∀ symbol, s.semanticModel.declaredSymbol node = some symbol → symbol.kind ≠ .type) ∧
      ∀ declaration type x name, field.childNode? Kind.variableDeclaration = some declaration →
        declaration.children.head? = some type → field.NamedBy node x →
        x.declaredName? = some name →
        ∃ symbol, s.semanticModel.declaredSymbol node = some symbol := by
  have hroot := hs.nodup_ids hd
  rcases enclosingField_cases hroot hnode with
    ⟨hnone, houtside⟩ | ⟨field, above, below, hfield, hpath⟩
  · constructor
    · intro symbol hsymbol hkind
      rw [kind_of_declaredSymbol? hs hd hnode houtside hsymbol] at hkind
      cases hkind
    · intro field hfield
      rw [hnone] at hfield
      cases hfield
  · constructor
    · intro symbol hsymbol _
      obtain ⟨x, name, declaration, type, hx, hname, hdeclaration, htype, rfl⟩ :=
        (declaredSymbol?_eq_some_iff hs hd hnode hpath).1 hsymbol
      obtain ⟨hmem, hkind⟩ := hx.mem_kind
      refine ⟨field, hfield, rfl, ⟨x, hx, hmem, hkind, hname, rfl⟩,
        ⟨declaration, type, hdeclaration, htype, rfl⟩, rfl, fun name ↦ ?_⟩
      rw [Option.bind_eq_some_iff]
      exact exists_congr fun t ↦ and_congr_left fun _ ↦ hpath.find?_above_eq_some_iff hroot hnode
    · intro field' hfield'
      obtain rfl := Option.some.inj (hfield.symm.trans hfield')
      constructor
      · intro symbol hsymbol
        obtain ⟨x, name, declaration, type, hx, hname, hdeclaration, htype, rfl⟩ :=
          (declaredSymbol?_eq_some_iff hs hd hnode hpath).1 hsymbol
        exact nofun
      · intro declaration type x name hdeclaration htype hx hname
        exact ⟨_, (declaredSymbol?_eq_some_iff hs hd hnode hpath).2
          ⟨x, name, declaration, type, hx, hname, hdeclaration, htype, rfl⟩⟩

/-! ### Two declarators in a nested type -/

private def nestedNode (id : Nat) (kind : String) (children : List Element) : Node :=
  (Node.create kind children ⟨id⟩).1

private def nestedDeclarator (id : Nat) (name : String) : Node :=
  nestedNode id Kind.variableDeclarator [.token ⟨Kind.identifier, " ", name⟩]

/-- The field `int a, b`. -/
private def nestedField : Node :=
  nestedNode 3 Kind.fieldDeclaration [.node (nestedNode 4 Kind.variableDeclaration
    [.token ⟨Kind.identifier, "", "int"⟩, .node (nestedDeclarator 5 "a"), .token ⟨",", "", ","⟩,
      .node (nestedDeclarator 6 "b")])]

private def nestedDocument : Document :=
  .create ⟨0⟩ ⟨0⟩ ⟨"Outer.cs"⟩ (nestedNode 0 Kind.compilationUnit
    [.node (nestedNode 1 Kind.classDeclaration [.token ⟨Kind.identifier, "", "Outer"⟩,
      .node (nestedNode 2 Kind.classDeclaration
        [.token ⟨Kind.identifier, " ", "Inner"⟩, .node nestedField])])])

private def nestedSolution : Solution :=
  Solution.empty.withProject ((Project.create "Nested" ⟨0⟩).1.withDocument nestedDocument rfl)

/-- At the second declarator the model answers with a symbol of the extracted field. -/
theorem declaredSymbol_of_nested :
    ∃ symbol field, nestedSolution.semanticModel.declaredSymbol (nestedDeclarator 6 "b") =
        some symbol ∧
      enclosingField nestedDocument.root (nestedDeclarator 6 "b") = some field ∧
      symbol.Describes nestedDocument field (nestedDeclarator 6 "b") := by
  have hnodes : nestedSolution.DistinctNodes := by decide
  have hfield : enclosingField nestedDocument.root (nestedDeclarator 6 "b") = some nestedField := by
    decide +kernel
  have hnamed : nestedField.NamedBy (nestedDeclarator 6 "b") (nestedDeclarator 6 "b") :=
    .around (by decide) rfl (Node.mem_preorder_self _) (by decide)
  obtain ⟨hsound, hcomplete⟩ := declaredSymbol_agrees hnodes
    (by decide : nestedDocument ∈ nestedSolution.documents)
    (by decide : nestedDeclarator 6 "b" ∈ nestedDocument.root.preorder)
  obtain ⟨hnotype, hsome⟩ := hcomplete nestedField hfield
  obtain ⟨symbol, hsymbol⟩ := hsome _ _ _ _ rfl rfl hnamed rfl
  have hkind : symbol.kind = .field := by
    cases h : symbol.kind with
    | field => rfl
    | type => exact absurd h (hnotype symbol hsymbol)
  obtain ⟨field, hfound, hdescribes⟩ := hsound symbol hsymbol hkind
  exact ⟨symbol, field, hsymbol, hfound, hdescribes⟩

end Solution

end CodeFix
