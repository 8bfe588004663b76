import CodeFix.Proofs.Attribute.Exchange
import CodeFix.Proofs.Semantic.FieldSymbol

/-!
# What is read from a tree after an edit

The semantic model reads little of a node: its kind, the name it declares, the names of its
attributes and, for a field, the type as it is spelled. A name is a token. The other two are texts
of inner nodes, and an edit of a type declaration leaves them alone if no type is declared inside of
them. With this, whatever follows a node reads as the node itself does, except for the edited
declaration, whose new version has one more attribute.
-/

namespace CodeFix

variable {old list new m m' field : Node} {name : String}

/-! ## Spelled types -/

/-- The type of a field as it is spelled. -/
def Node.spelledType? (field : Node) : Option String :=
  (field.childNode? Kind.variableDeclaration).bind fun declaration ↦
    declaration.children.head?.map Element.trimmedText

/-- The type of the field is spelled, and the spelling reduces to the name of a type. -/
def Node.TypeNamed (field : Node) (name : String) : Prop :=
  ∃ spelled t, field.spelledType? = some spelled ∧ TypeName.parse spelled = some t ∧ t.name = name

theorem Node.TypeNamed.unique {name' : String} (h : field.TypeNamed name)
    (h' : field.TypeNamed name') : name = name' := by
  obtain ⟨spelled, t, hspelled, hparse, rfl⟩ := h
  obtain ⟨spelled', t', hspelled', hparse', rfl⟩ := h'
  cases hspelled.symm.trans hspelled'
  cases hparse.symm.trans hparse'
  rfl

/-- A tree that no edit is under way in and that declares no type inside the type of a field or
inside an attribute, as no C# source does. -/
structure Node.Ordinary (root : Node) : Prop where
  unmarked : ∀ m ∈ root.preorder, m.marked = false
  types : ∀ f ∈ root.preorder, f.kind = Kind.fieldDeclaration →
    ∀ declaration e, f.childNode? Kind.variableDeclaration = some declaration →
      declaration.children.head? = some e → ∀ x ∈ e.preorder, Kind.isTypeDeclaration x.kind = false
  attributes : ∀ a ∈ root.preorder, a.kind = Kind.attributeItem →
    ∀ x ∈ a.preorder, Kind.isTypeDeclaration x.kind = false

instance (root : Node) : Decidable root.Ordinary :=
  decidable_of_iff ((∀ m ∈ root.preorder, m.marked = false) ∧
    (∀ f ∈ root.preorder, f.kind = Kind.fieldDeclaration →
      ∀ declaration ∈ f.childNode? Kind.variableDeclaration, ∀ e ∈ declaration.children.head?,
        ∀ x ∈ e.preorder, Kind.isTypeDeclaration x.kind = false) ∧
    ∀ a ∈ root.preorder, a.kind = Kind.attributeItem →
      ∀ x ∈ a.preorder, Kind.isTypeDeclaration x.kind = false)
    ⟨fun ⟨hunmarked, htypes, hattributes⟩ ↦ ⟨hunmarked,
      fun f hf hkind declaration e hdeclaration he ↦
        htypes f hf hkind declaration hdeclaration e he, hattributes⟩,
    fun h ↦ ⟨h.unmarked, fun f hf hkind declaration hdeclaration e he ↦
      h.types f hf hkind declaration e hdeclaration he, h.attributes⟩⟩

/-! ## Nodes that read the same -/

theorem Element.trimmedText_eq_of_sketch_eq {e e' : Element}
    (h : e.sketch Node.trimmedText = e'.sketch Node.trimmedText) :
    e.trimmedText = e'.trimmedText := by
  cases e with
  | node k =>
    cases e' with
    | node k' => exact Node.label_eq_of_sketch_eq (Element.node.inj h)
    | token t => cases h
  | token t =>
    cases e' with
    | node k => cases h
    | token t' =>
      have htext : (t.withLeading "").text = (t'.withLeading "").text :=
        congrArg Token.text (Element.token.inj h)
      exact htext

theorem Node.head_trimmedText_eq (h : m.sketch trimmedText = m'.sketch trimmedText) :
    m.children.head?.map Element.trimmedText = m'.children.head?.map Element.trimmedText := by
  have hchildren := children_eq_of_sketch_eq h
  generalize m.children = es at hchildren
  generalize m'.children = es' at hchildren
  cases es with
  | nil =>
    rw [List.map_nil, List.nil_eq, List.map_eq_nil_iff] at hchildren
    rw [hchildren]
  | cons e es =>
    obtain ⟨e', es', rfl, he, -⟩ := List.map_eq_cons_iff.1 hchildren.symm
    exact congrArg some (Element.trimmedText_eq_of_sketch_eq he).symm

/-- The name that a node declares is the text of a token. -/
theorem Node.declaredName?_eq (n : Node) :
    n.declaredName? = (((n.children.filterMap Element.token?).map
      (Token.withLeading · "")).find? (·.kind == Kind.identifier)).map Token.text := by
  rw [List.find?_map, Option.map_map]
  rfl

theorem Node.ne_of_kind_eq {kind : String} (hold : Kind.isTypeDeclaration old.kind = true)
    (hm : m.kind = kind) (hkind : Kind.isTypeDeclaration kind = false) : m ≠ old := by
  rintro rfl
  rw [hm, hkind] at hold
  cases hold

theorem Node.IsListOf.mem_attributeNames {list₀ n : Node} {leading : String}
    (h : list₀.IsListOf name leading)
    (hsketch : list.sketch trimmedText = list₀.sketch trimmedText)
    (hlist : Element.node list ∈ n.children) : name ∈ n.attributeNames := by
  obtain ⟨item₀, e, hkind, hitem, htext, hleading, hchildren⟩ := h.shape
  obtain ⟨item, hmem, hitemSketch⟩ := Element.exists_node_of_sketch_eq
    (children_eq_of_sketch_eq hsketch.symm)
    (by rw [hchildren]; exact List.mem_cons_of_mem _ List.mem_cons_self :
      Element.node item₀ ∈ list₀.children)
  have hname : e.trimmedText = name := by
    rw [← htext, Element.text_eq, hleading, String.empty_append]
  refine List.mem_filterMap.2 ⟨item, List.mem_flatMap.2 ⟨list, ?_, ?_⟩, ?_⟩
  · exact List.mem_filter.2 ⟨mem_childNodes_iff.2 hlist,
      beq_iff_eq.2 ((kind_eq_of_sketch_eq hsketch).trans h.kind)⟩
  · exact List.mem_filter.2 ⟨mem_childNodes_iff.2 hmem,
      beq_iff_eq.2 ((kind_eq_of_sketch_eq hitemSketch).trans hkind)⟩
  · rw [head_trimmedText_eq hitemSketch, hitem, List.head?_cons, Option.map_some, hname]

/-! ## Nodes that follow each other -/

namespace Node.Follows

section

variable (hnew : old.Gains list new) (h : Follows old new m m')
include hnew h

/-- **Names** stay. -/
theorem declaredName?_eq : m'.declaredName? = m.declaredName? := by
  have htokens : (m'.children.filterMap Element.token?).map (Token.withLeading · "") =
      (m.children.filterMap Element.token?).map (Token.withLeading · "") := by
    rcases h with h | h
    · exact (Element.filterMap_token?_of_sketch_eq (children_eq_of_sketch_eq h)).symm
    · cases h with
      | hole =>
        obtain ⟨before, after, hchildren, hsketch⟩ := hnew.children
        rw [← Element.filterMap_token?_of_sketch_eq hsketch, hchildren, List.filterMap_append,
          List.filterMap_append, List.filterMap_cons]
        rfl
      | child =>
        simp only [List.filterMap_append, List.filterMap_cons]
        rfl
  rw [Node.declaredName?_eq, Node.declaredName?_eq, htokens]

end

theorem forall₂_childNodes (h : Follows old new m m') (hne : m ≠ old) :
    List.Forall₂ (Follows old new) m.childNodes m'.childNodes := by
  have hsame : ∀ {es es' : List Element},
      es.map (Element.sketch trimmedText) = es'.map (Element.sketch trimmedText) →
      List.Forall₂ (Follows old new) (es.filterMap Element.node?)
        (es'.filterMap Element.node?) := by
    intro es es' hes
    exact (forall₂_iff_map_eq.2 (Element.filterMap_node?_of_sketch_eq hes)).imp fun _ _ ↦ Or.inl
  rcases h with h | h
  · exact hsame (children_eq_of_sketch_eq h)
  · cases h with
    | hole => exact absurd rfl hne
    | child h =>
      rw [childNodes, childNodes, List.filterMap_append, List.filterMap_append]
      exact List.rel_append (hsame rfl) (.cons (Or.inr h) (hsame rfl))

section Read

variable (hnew : old.Gains list new)
include hnew

theorem rel_childNode? (h : Follows old new m m') (hne : m ≠ old) (kind : String) :
    Option.Rel (fun x x' ↦ (x ∈ m.childNodes ∧ (x.kind == kind) = true) ∧ Follows old new x x')
      (m.childNode? kind) (m'.childNode? kind) :=
  rel_find? (h.forall₂_childNodes hne) fun _ _ hx ↦ by rw [hx.kind_eq hnew]

theorem forall₂_childNodes_filter (h : Follows old new m m') (hne : m ≠ old) (kind : String) :
    List.Forall₂ (fun x x' ↦ (x ∈ m.childNodes ∧ (x.kind == kind) = true) ∧ Follows old new x x')
      (m.childNodes.filter (·.kind == kind)) (m'.childNodes.filter (·.kind == kind)) :=
  forall₂_filter (h.forall₂_childNodes hne) fun _ _ hx ↦ by rw [hx.kind_eq hnew]

variable (hold : Kind.isTypeDeclaration old.kind = true)
include hold

/-- **Attributes** stay, unless the node is the edited one. -/
theorem attributeNames_eq (h : Follows old new m m') (hne : m ≠ old)
    (hitems : ∀ a ∈ m.preorder, a.kind = Kind.attributeItem →
      ∀ x ∈ a.preorder, Kind.isTypeDeclaration x.kind = false) :
    m'.attributeNames = m.attributeNames := by
  have hattributes : List.Forall₂ (fun a a' : Node ↦
      a.sketch trimmedText = a'.sketch trimmedText) m.attributeItems m'.attributeItems := by
    refine List.rel_flatMap (h.forall₂_childNodes_filter hnew hne Kind.attributeList) ?_
    rintro l l' ⟨⟨hl, hlkind⟩, hll'⟩
    have hlne := ne_of_kind_eq hold (beq_iff_eq.1 hlkind) (by decide)
    refine (hll'.forall₂_childNodes_filter hnew hlne Kind.attributeItem).imp ?_
    rintro a a' ⟨⟨ha, hakind⟩, haa'⟩
    -- the edited declaration does not lie in an attribute
    refine haa'.sketch_eq fun hin ↦ ?_
    have hmem : a ∈ m.preorder := mem_preorder_of_child (mem_childNodes_iff.1 hl)
      (mem_preorder_of_child (mem_childNodes_iff.1 ha) a.mem_preorder_self)
    rw [hitems a hmem (beq_iff_eq.1 hakind) old hin] at hold
    cases hold
  exact (filterMap_eq_of_forall₂ (hattributes.imp fun a a' haa' ↦ head_trimmedText_eq haa')).symm

/-- **Spelled types** stay. -/
theorem spelledType?_eq (h : Follows old new m m') (hkind : m.kind = Kind.fieldDeclaration)
    (htypes : ∀ declaration e, m.childNode? Kind.variableDeclaration = some declaration →
      declaration.children.head? = some e →
      ∀ x ∈ e.preorder, Kind.isTypeDeclaration x.kind = false) :
    m'.spelledType? = m.spelledType? := by
  have hrel := h.rel_childNode? hnew (ne_of_kind_eq hold hkind (by decide))
    Kind.variableDeclaration
  rw [spelledType?, spelledType?]
  generalize m'.childNode? Kind.variableDeclaration = o at hrel ⊢
  cases hdeclaration : m.childNode? Kind.variableDeclaration with
  | none =>
    rw [hdeclaration] at hrel
    cases hrel
    rfl
  | some x =>
    rw [hdeclaration] at hrel
    cases hrel with
    | @some x' y hx =>
      obtain ⟨⟨-, hxkind⟩, hxx'⟩ := hx
      rw [Option.bind_some, Option.bind_some]
      rcases hxx' with hxx' | hxx'
      · exact (head_trimmedText_eq hxx').symm
      · cases hxx' with
        | hole => exact absurd rfl (ne_of_kind_eq hold (beq_iff_eq.1 hxkind) (by decide))
        | @child head before after k k' s hk =>
          cases before with
          | cons e before => rfl
          | nil =>
            have hout := htypes _ (.node k) hdeclaration rfl old hk.mem_preorder
            rw [hout] at hold
            cases hold

end Read

end Node.Follows

end CodeFix
