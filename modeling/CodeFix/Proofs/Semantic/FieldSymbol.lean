import CodeFix.Fix.Serialization
import CodeFix.Proofs.Semantic.TypeIndex
import CodeFix.Proofs.Text.Basic

/-!
# The field around a node and its type

The field that a finding is about is the innermost field declaration around the flagged node. Its
symbol is named by one of its declarators: the outermost one around the node, or the first one if
the node lies in none. The symbol's type is found by its spelling alone.

The extractor and the semantic model search for the field separately, on one and the same path from
the root to the node, and stop at the same place.
-/

namespace CodeFix

variable {root node field x : Node} {path above below : List Node} {s : Solution} {d : Document}

/-! ## The nearest field -/

/-- The innermost field declaration around a node, the node included. -/
structure Node.NearestField (root node field : Node) : Prop where
  mem : field ∈ root.preorder
  kind : field.kind = Kind.fieldDeclaration
  inside : node ∈ field.preorder
  innermost : ∀ g ∈ root.preorder, g.kind = Kind.fieldDeclaration → node ∈ g.preorder →
    field ∈ g.preorder

/-- The path to a node, cut at the nearest field around it. -/
structure Node.FieldPath (root node field : Node) (above below : List Node) : Prop where
  path : root.pathTo? node.id = some (above ++ field :: below)
  kind : field.kind = Kind.fieldDeclaration
  below_kind : ∀ x ∈ below, x.kind ≠ Kind.fieldDeclaration

theorem Node.FieldPath.nearestField (hroot : root.ids.Nodup) (hnode : node ∈ root.preorder)
    (h : root.FieldPath node field above below) : root.NearestField node field := by
  have hmem : ∀ m, m ∈ above ++ field :: below ↔ m ∈ root.preorder ∧ node ∈ m.preorder := by
    intro m
    rw [Node.mem_pathTo?_iff hroot h.path]
    exact and_congr_right fun hm ↦ Node.id_mem_ids_iff hroot hm hnode
  obtain ⟨hfield, hinside⟩ := (hmem field).1 (by simp)
  refine ⟨hfield, h.kind, hinside, fun g hg hkind hin ↦ ?_⟩
  -- any other field around the node lies on the path as well, and above
  rcases List.mem_append.1 ((hmem g).2 ⟨hg, hin⟩) with habove | hbelow
  · exact (List.pairwise_append.1 (Node.pairwise_pathTo? h.path)).2.2 g habove field
      List.mem_cons_self
  · rcases List.mem_cons.1 hbelow with rfl | hbelow
    · exact g.mem_preorder_self
    · exact absurd hkind (h.below_kind g hbelow)

theorem Node.NearestField.eq {field' : Node} (h : root.NearestField node field)
    (h' : root.NearestField node field') : field = field' :=
  Node.eq_of_mem_preorder (h.innermost field' h'.mem h'.kind h'.inside)
    (h'.innermost field h.mem h.kind h.inside)

theorem enclosingField_cases (hroot : root.ids.Nodup) (hnode : node ∈ root.preorder) :
    (enclosingField root node = none ∧
        ∀ g ∈ root.preorder, g.kind = Kind.fieldDeclaration → node ∉ g.preorder) ∨
      ∃ field above below, enclosingField root node = some field ∧
        root.FieldPath node field above below := by
  obtain ⟨path, hpath⟩ := Node.exists_pathTo? (Node.mem_ids_of_mem hnode)
  rw [enclosingField, hpath, Option.bind_some]
  cases hfind : path.reverse.find? fun n ↦ n.kind == Kind.fieldDeclaration with
  | none =>
    refine Or.inl ⟨rfl, fun g hg hkind hin ↦ ?_⟩
    have hmem := (Node.mem_pathTo?_iff hroot hpath).2 ⟨hg, Node.mem_ids_of_mem hin⟩
    exact List.find?_eq_none.1 hfind g (List.mem_reverse.2 hmem) (beq_iff_eq.2 hkind)
  | some field =>
    obtain ⟨above, below, rfl, hkind, hbelow⟩ := find?_reverse_eq_some_iff.1 hfind
    exact Or.inr ⟨field, above, below, rfl, hpath, beq_iff_eq.1 hkind,
      fun x hx ↦ by simpa using hbelow x hx⟩

/-! ## The declarator -/

/-- The declarator that names the symbol of a field, for a node in the field. -/
inductive Node.NamedBy (field node : Node) : Node → Prop
  /-- The outermost declarator around the node. -/
  | around {x : Node} (mem : x ∈ field.preorder) (kind : x.kind = Kind.variableDeclarator)
      (inside : node ∈ x.preorder)
      (outermost : ∀ y ∈ field.preorder, y.kind = Kind.variableDeclarator → node ∈ y.preorder →
        y ∈ x.preorder) :
      NamedBy field node x
  /-- The first declarator of the field; the node lies in none. -/
  | first {declaration x : Node}
      (outside : ∀ y ∈ field.preorder, y.kind = Kind.variableDeclarator → node ∉ y.preorder)
      (hdeclaration : field.childNode? Kind.variableDeclaration = some declaration)
      (hx : declaration.childNode? Kind.variableDeclarator = some x) :
      NamedBy field node x

theorem Solution.declaratorFor?_eq_some_iff (hfield : field.ids.Nodup)
    (hnode : node ∈ field.preorder) (hpath : field.pathTo? node.id = some path) :
    declaratorFor? field path = some x ↔ field.NamedBy node x := by
  have hmem : ∀ m, m ∈ path ↔ m ∈ field.preorder ∧ node ∈ m.preorder := by
    intro m
    rw [Node.mem_pathTo?_iff hfield hpath]
    exact and_congr_right fun hm ↦ Node.id_mem_ids_iff hfield hm hnode
  rw [declaratorFor?]
  cases hfind : path.find? fun n ↦ n.kind == Kind.variableDeclarator with
  | none =>
    have houtside : ∀ y ∈ field.preorder, y.kind = Kind.variableDeclarator →
        node ∉ y.preorder := fun y hy hkind hin ↦
      List.find?_eq_none.1 hfind y ((hmem y).2 ⟨hy, hin⟩) (beq_iff_eq.2 hkind)
    rw [Option.none_or, Option.bind_eq_some_iff]
    constructor
    · rintro ⟨declaration, hdeclaration, hx⟩
      exact .first houtside hdeclaration hx
    · intro h
      cases h with
      | around mem kind inside => exact absurd inside (houtside x mem kind)
      | first _ hdeclaration hx => exact ⟨_, hdeclaration, hx⟩
  | some y =>
    obtain ⟨hkind, before, after, rfl, hbefore⟩ := List.find?_eq_some_iff_append.1 hfind
    rw [beq_iff_eq] at hkind
    obtain ⟨hy, hinside⟩ := (hmem y).1 (by simp)
    -- a path goes from the outside to the inside, so its first declarator is the outermost
    have houtermost : ∀ z ∈ field.preorder, z.kind = Kind.variableDeclarator →
        node ∈ z.preorder → z ∈ y.preorder := by
      intro z hz hzkind hzin
      rcases List.mem_append.1 ((hmem z).2 ⟨hz, hzin⟩) with hz | hz
      · exact absurd hzkind (by simpa using hbefore z hz)
      · rcases List.mem_cons.1 hz with rfl | hz
        · exact z.mem_preorder_self
        · have hpairwise := (List.pairwise_append.1 (Node.pairwise_pathTo? hpath)).2.1
          exact (List.pairwise_cons.1 hpairwise).1 z hz
    rw [Option.some_or, Option.some_inj]
    constructor
    · rintro rfl
      exact .around hy hkind hinside houtermost
    · intro h
      cases h with
      | around mem kind inside outermost =>
        exact Node.eq_of_mem_preorder (outermost y hy hkind hinside)
          (houtermost x mem kind inside)
      | first outside => exact absurd hinside (outside y hy hkind)

/-! ## The symbol of the field -/

theorem Solution.cutAtLast?_append {kind : String} (hfield : field.kind = kind)
    (hbelow : ∀ x ∈ below, x.kind ≠ kind) :
    cutAtLast? kind (above ++ field :: below) = some (above, field :: below) := by
  have htake : (above ++ field :: below).reverse.takeWhile (fun n ↦ n.kind != kind) =
      below.reverse := by
    have hbehind : (field :: above.reverse).takeWhile (fun n ↦ n.kind != kind) = [] :=
      List.takeWhile_cons_of_neg (by simpa using hfield)
    rw [List.reverse_append, List.reverse_cons, List.append_assoc, List.singleton_append,
      List.takeWhile_append_of_pos fun x hx ↦ by simpa using hbelow x (List.mem_reverse.1 hx),
      hbehind, List.append_nil]
  have hcount : (above ++ field :: below).length - below.reverse.length = above.length + 1 := by
    rw [List.length_append, List.length_cons, List.length_reverse]
    omega
  simp only [cutAtLast?, htake, hcount]
  rw [if_neg (Nat.succ_ne_zero _), Nat.add_sub_cancel, List.take_left, List.drop_left]

namespace Solution

theorem declaredSymbol?_eq_some_iff (hs : s.DistinctNodes) (hd : d ∈ s.documents)
    (hnode : node ∈ d.root.preorder) (hpath : d.root.FieldPath node field above below)
    {symbol : Symbol} :
    s.declaredSymbol? node = some symbol ↔
      ∃ declarator name declaration type, field.NamedBy node declarator ∧
        declarator.declaredName? = some name ∧
        field.childNode? Kind.variableDeclaration = some declaration ∧
        declaration.children.head? = some type ∧
        symbol =
          { name, kind := .field
            typeName := some type.trimmedText
            attributes := field.attributeNames
            locations := [.inSource d.id declarator.id]
            container :=
              (above.reverse.find? fun n ↦ Kind.isTypeDeclaration n.kind).bind
                Node.declaredName? } := by
  have hnearest := hpath.nearestField (hs.nodup_ids hd) hnode
  have hfield := Node.nodup_ids_of_mem (hs.nodup_ids hd) hnearest.mem
  rw [declaredSymbol?, hs.documentOwning?_of_mem hd hnode, Option.bind_eq_bind, Option.bind_some,
    hpath.path, Option.bind_eq_bind, Option.bind_some,
    cutAtLast?_append hpath.kind hpath.below_kind]
  simp only [Option.bind_eq_bind, Option.bind_eq_some_iff, fieldSymbol?,
    declaratorFor?_eq_some_iff hfield hnearest.inside (Node.pathTo?_of_append hpath.path),
    hs.documentOwning?_of_mem hd hnearest.mem]
  constructor
  · rintro ⟨declarator, hnamed, name, hname, declaration, hdeclaration, type, htype, _,
      hd', hsymbol⟩
    cases hd'
    exact ⟨declarator, name, declaration, type, hnamed, hname, hdeclaration, htype,
      (Option.some.inj hsymbol).symm⟩
  · rintro ⟨declarator, name, declaration, type, hnamed, hname, hdeclaration, htype, rfl⟩
    exact ⟨declarator, hnamed, name, hname, declaration, hdeclaration, type, htype, d, rfl, rfl⟩

/-! ## The type of the field -/

theorem fieldType?_of_typeName {symbol : Symbol} {spelled : String} (hkind : symbol.kind = .field)
    (hname : symbol.typeName = some spelled) :
    s.fieldType? symbol = (TypeName.parse spelled).map fun t ↦
      if t.array || (t.nullable && s.isValueType t.name) then metadataType (Text.trim spelled)
      else s.typeSymbol t.name := by
  have hparse : TypeName.parse (Text.trim spelled) = TypeName.parse spelled := by
    rw [TypeName.parse, TypeName.parse, Text.trimChars_trim]
  rw [fieldType?, hkind, hname, ← hparse]
  change (TypeName.parse (Text.trim spelled)).bind _ = _
  cases TypeName.parse (Text.trim spelled) with
  | none => rfl
  | some t =>
    rw [Option.map_some, apply_ite some]
    rfl

/-- The type of a field is one that documents declare exactly if its spelling names such a type and
does not make another type of it. -/
theorem fieldType?_inSource_iff {symbol type : Symbol} {spelled : String}
    (hkind : symbol.kind = .field) (hname : symbol.typeName = some spelled) :
    s.fieldType? symbol = some type ∧ type.locations.any SymbolLocation.isInSource = true ↔
      ∃ name nullable, TypeName.parse spelled = some ⟨name, false, nullable⟩ ∧
        (nullable = true → s.isValueType name = false) ∧ s.declarationsOf name ≠ [] ∧
        type = s.typeSymbol name := by
  rw [fieldType?_of_typeName hkind hname]
  cases hparse : TypeName.parse spelled with
  | none => simp
  | some t =>
    obtain ⟨name, array, nullable⟩ := t
    rw [Option.map_some, Option.some_inj]
    constructor
    · rintro ⟨rfl, hin⟩
      -- a constructed type comes from metadata and is not in source
      split at hin
      · rw [metadataType_not_inSource] at hin
        cases hin
      · next hplain =>
        simp only [Bool.or_eq_true, Bool.and_eq_true, not_or, not_and, Bool.not_eq_true] at hplain
        obtain ⟨rfl, hvalue⟩ := hplain
        refine ⟨name, nullable, rfl, hvalue, typeSymbol_inSource_iff.1 hin, if_neg ?_⟩
        simpa using hvalue
    · rintro ⟨_, _, ht, hvalue, hdeclared, rfl⟩
      cases ht
      rw [if_neg (by simpa using hvalue)]
      exact ⟨rfl, typeSymbol_inSource_iff.2 hdeclared⟩

end Solution

end CodeFix
