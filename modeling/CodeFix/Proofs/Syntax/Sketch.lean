import CodeFix.Layout
import CodeFix.Proofs.Syntax.Text

/-!
# Trees without stamps, marks and trivia

Rebuilding a node, moving its trivia and laying it out put new stamps on nodes, take marks off and
write other trivia. They leave alone what a *sketch* of the tree shows: which nodes there are, with
which ids and kinds, and how nodes and tokens are nested. Two trees with the same sketch have their
nodes in common, one by one (`exists_of_sketch_eq`), so an equation on sketches says of every single
node that it keeps its id, its kind and its place.

A sketch may carry a label on every node. Without labels (`noLabel`) it survives every edit of
trivia, also those in the middle of a node. With the nodes' own texts as labels it survives only
those in front of nodes (`sketch_withLeadingTrivia`), and tells what a reader of the tree sees of a
spelled type or the name of an attribute.
-/

namespace CodeFix

mutual

/-- The tree without stamps, marks and trivia. A label stands in front of the children of a node. -/
def Node.sketch (label : Node → String) : Node → Node
  | ⟨head, children⟩ =>
    ⟨{ head with stamp := ⟨0, []⟩, marked := false },
      .token ⟨"", "", label ⟨head, children⟩⟩ :: Element.sketchAll label children⟩
termination_by structural n => n

/-- The element without stamps, marks and trivia. -/
def Element.sketch (label : Node → String) : Element → Element
  | .node n => .node (n.sketch label)
  | .token t => .token (t.withLeading "")
termination_by structural e => e

/-- The elements without stamps, marks and trivia. -/
def Element.sketchAll (label : Node → String) : List Element → List Element
  | [] => []
  | e :: es => e.sketch label :: Element.sketchAll label es
termination_by structural es => es

end

/-- The same label on every node. -/
def Node.noLabel : Node → String := fun _ ↦ ""

variable {label : Node → String} {m n x : Node} {e : Element} {es es' : List Element}
  {s : Stamp} {newline : Newline} {trivia : String}

theorem Element.sketchAll_eq_map (label : Node → String) (es : List Element) :
    Element.sketchAll label es = es.map (Element.sketch label) := by
  induction es with
  | nil => rfl
  | cons e es ih => rw [Element.sketchAll, ih, List.map_cons]

namespace Node

theorem sketch_mk (label : Node → String) (head : NodeHead) (children : List Element) :
    (Node.mk head children).sketch label =
      ⟨{ head with stamp := ⟨0, []⟩, marked := false },
        .token ⟨"", "", label ⟨head, children⟩⟩ :: children.map (Element.sketch label)⟩ := by
  rw [sketch, Element.sketchAll_eq_map]

@[simp] theorem id_sketch (label : Node → String) (n : Node) : (n.sketch label).id = n.id := by
  obtain ⟨head, children⟩ := n
  rfl

@[simp] theorem kind_sketch (label : Node → String) (n : Node) :
    (n.sketch label).kind = n.kind := by
  obtain ⟨head, children⟩ := n
  rfl

theorem preorder_sketch (label : Node → String) (n : Node) :
    (n.sketch label).preorder = n.preorder.map (sketch label) := by
  induction n using Node.induction with
  | step head children ih =>
    have htoken : ∀ t : Token, (Element.token t).preorder = [] := fun _ ↦ rfl
    rw [sketch_mk, preorder_eq, preorder_eq (mk head children), List.map_cons, sketch_mk,
      List.flatMap_cons, htoken, List.nil_append, List.flatMap_map, List.map_flatMap]
    congr 1
    refine List.flatMap_congr fun e he ↦ ?_
    cases e with
    | node k => exact ih k he
    | token t => rfl

@[simp] theorem ids_sketch (label : Node → String) (n : Node) : (n.sketch label).ids = n.ids := by
  rw [ids, preorder_sketch, List.map_map, ids]
  exact List.map_congr_left fun m _ ↦ id_sketch label m

theorem id_eq_of_sketch_eq (h : m.sketch label = n.sketch label) : m.id = n.id := by
  rw [← id_sketch label m, h, id_sketch]

theorem kind_eq_of_sketch_eq (h : m.sketch label = n.sketch label) : m.kind = n.kind := by
  rw [← kind_sketch label m, h, kind_sketch]

theorem ids_eq_of_sketch_eq (h : m.sketch label = n.sketch label) : m.ids = n.ids := by
  rw [← ids_sketch label m, h, ids_sketch]

theorem label_eq_of_sketch_eq (h : m.sketch label = n.sketch label) : label m = label n := by
  obtain ⟨head, children⟩ := m
  obtain ⟨head', children'⟩ := n
  rw [sketch_mk, sketch_mk] at h
  exact congrArg Token.text (Element.token.inj (List.cons.inj (Node.mk.inj h).2).1)

theorem children_eq_of_sketch_eq (h : m.sketch label = n.sketch label) :
    m.children.map (Element.sketch label) = n.children.map (Element.sketch label) := by
  obtain ⟨head, children⟩ := m
  obtain ⟨head', children'⟩ := n
  rw [sketch_mk, sketch_mk] at h
  exact (List.cons.inj (Node.mk.inj h).2).2

/-- **Trees with the same sketch have their nodes in common.** -/
theorem exists_of_sketch_eq (h : m.sketch label = n.sketch label) (hx : x ∈ m.preorder) :
    ∃ y ∈ n.preorder, y.sketch label = x.sketch label := by
  have hmem : x.sketch label ∈ n.preorder.map (sketch label) := by
    rw [← preorder_sketch, ← h, preorder_sketch]
    exact List.mem_map_of_mem hx
  exact List.mem_map.1 hmem

end Node

/-! ## Runs of elements -/

namespace Element

theorem exists_node_of_sketch_eq (h : es.map (sketch label) = es'.map (sketch label))
    (hx : Element.node x ∈ es) : ∃ y, Element.node y ∈ es' ∧ y.sketch label = x.sketch label := by
  have hmem : (Element.node x).sketch label ∈ es'.map (sketch label) := by
    rw [← h]
    exact List.mem_map_of_mem hx
  obtain ⟨e, he, hex⟩ := List.mem_map.1 hmem
  cases e with
  | node y => exact ⟨y, he, Element.node.inj hex⟩
  | token t => cases hex

theorem preorder_sketch (label : Node → String) (e : Element) :
    (e.sketch label).preorder = e.preorder.map (Node.sketch label) := by
  cases e with
  | node k => exact k.preorder_sketch label
  | token t => rfl

theorem filterMap_node?_of_sketch_eq (h : es.map (sketch label) = es'.map (sketch label)) :
    (es.filterMap node?).map (Node.sketch label) =
      (es'.filterMap node?).map (Node.sketch label) := by
  have hall : ∀ es : List Element, (es.filterMap node?).map (Node.sketch label) =
      (es.map (sketch label)).filterMap node? := by
    intro es
    rw [List.map_filterMap, List.filterMap_map]
    exact List.filterMap_congr fun e _ ↦ by cases e <;> rfl
  rw [hall, h, ← hall]

theorem filterMap_token?_of_sketch_eq (h : es.map (sketch label) = es'.map (sketch label)) :
    (es.filterMap token?).map (Token.withLeading · "") =
      (es'.filterMap token?).map (Token.withLeading · "") := by
  have hall : ∀ es : List Element, (es.filterMap token?).map (Token.withLeading · "") =
      (es.map (sketch label)).filterMap token? := by
    intro es
    rw [List.map_filterMap, List.filterMap_map]
    exact List.filterMap_congr fun e _ ↦ by cases e <;> rfl
  rw [hall, h, ← hall]

theorem flatMap_preorder_of_sketch_eq (h : es.map (sketch label) = es'.map (sketch label)) :
    (es.flatMap preorder).map (Node.sketch label) =
      (es'.flatMap preorder).map (Node.sketch label) := by
  have hall : ∀ es : List Element, (es.flatMap preorder).map (Node.sketch label) =
      (es.map (sketch label)).flatMap preorder := by
    intro es
    rw [List.map_flatMap, List.flatMap_map]
    exact List.flatMap_congr fun e _ ↦ (preorder_sketch label e).symm
  rw [hall, h, ← hall]

theorem flatMap_ids_eq_of_sketch_eq (h : es.map (sketch label) = es'.map (sketch label)) :
    (es.flatMap fun e ↦ e.preorder.map Node.id) = es'.flatMap fun e ↦ e.preorder.map Node.id := by
  have hids : ∀ ns : List Node, ns.map Node.id = (ns.map (Node.sketch label)).map Node.id := by
    intro ns
    rw [List.map_map]
    exact List.map_congr_left fun n _ ↦ (n.id_sketch label).symm
  rw [← List.map_flatMap, ← List.map_flatMap, hids, flatMap_preorder_of_sketch_eq h, ← hids]

end Element

/-! ## Tokens -/

private theorem Element.length_tokensAll_eq (h : es.map (sketch label) = es'.map (sketch label))
    (hnodes : ∀ k, Element.node k ∈ es → ∀ k' : Node, k.sketch label = k'.sketch label →
      k.tokens.length = k'.tokens.length) :
    (tokensAll es).length = (tokensAll es').length := by
  induction es generalizing es' with
  | nil => rw [List.map_eq_nil_iff.1 h.symm]
  | cons e es ih =>
    cases es' with
    | nil => cases h
    | cons e' es' =>
      obtain ⟨he, hes⟩ := List.cons.inj h
      rw [tokensAll_cons, tokensAll_cons, List.length_append, List.length_append,
        ih hes fun k hk ↦ hnodes k (List.mem_cons_of_mem e hk)]
      congr 1
      cases e with
      | node k =>
        cases e' with
        | node k' => exact hnodes k List.mem_cons_self k' (Element.node.inj he)
        | token t => cases he
      | token t =>
        cases e' with
        | node k' => cases he
        | token t' => rfl

theorem Node.length_tokens_eq_of_sketch_eq (h : m.sketch label = n.sketch label) :
    m.tokens.length = n.tokens.length := by
  induction m using Node.induction generalizing n with
  | step head children ih =>
    rw [tokens_eq, tokens_eq]
    exact Element.length_tokensAll_eq (children_eq_of_sketch_eq h) fun k hk k' ↦ ih k hk

theorem Element.length_tokensAll_eq_of_sketch_eq
    (h : es.map (sketch label) = es'.map (sketch label)) :
    (tokensAll es).length = (tokensAll es').length :=
  length_tokensAll_eq h fun _ _ _ ↦ Node.length_tokens_eq_of_sketch_eq

/-! ## What leaves a sketch alone -/

/-- The label of a node is the same whatever trivia the node stands behind. -/
def Node.Inner (label : Node → String) : Prop :=
  ∀ s trivia n, label (Node.withLeadingTrivia s n trivia) = label n

theorem Node.inner_noLabel : Inner noLabel := fun _ _ _ ↦ rfl

theorem Node.inner_trimmedText : Inner trimmedText := by
  intro s trivia n
  rw [trimmedText_eq, tokens_withLeadingTrivia, Token.trimmedTextAll_releadAll, trimmedText_eq]

mutual

/-- **Other trivia in front of a node** do not show in a sketch. -/
theorem Node.sketch_withLeadingTrivia (hlabel : Node.Inner label) (s : Stamp) (trivia : String) :
    ∀ n : Node, (n.withLeadingTrivia s trivia).sketch label = n.sketch label
  | ⟨head, children⟩ => by
    have hself := hlabel s trivia ⟨head, children⟩
    rw [Node.withLeadingTrivia] at hself ⊢
    split
    · next h =>
      rw [if_pos h] at hself
      rw [Node.sketch, Node.sketch, hself,
        Element.sketchAll_withLeadingTriviaAll hlabel s trivia children]
    · rfl
termination_by structural n => n

/-- **Other trivia in front of an element** do not show in a sketch. -/
theorem Element.sketch_withLeadingTrivia (hlabel : Node.Inner label) (s : Stamp) (e : Element)
    (trivia : String) : (e.withLeadingTrivia s trivia).sketch label = e.sketch label :=
  match e with
  | .node n => congrArg Element.node (n.sketch_withLeadingTrivia hlabel s trivia)
  | .token _ => rfl
termination_by structural e

theorem Element.sketchAll_withLeadingTriviaAll (hlabel : Node.Inner label) (s : Stamp)
    (trivia : String) : ∀ es : List Element,
      Element.sketchAll label (Element.withLeadingTriviaAll s es trivia) =
        Element.sketchAll label es
  | [] => rfl
  | e :: es => by
    rw [Element.withLeadingTriviaAll, Element.sketchAll]
    split
    · rw [Element.sketchAll, Element.sketch_withLeadingTrivia hlabel s e trivia]
    · rw [Element.sketchAll, Element.sketchAll_withLeadingTriviaAll hlabel s trivia es]
termination_by structural es => es

end

theorem map_sketch_separateFrom (hlabel : Node.Inner label) (s : Stamp) (separator : String)
    (previous : Option Element) (index : Nat) (es : List Element) :
    (separateFrom s separator previous index es).map (Element.sketch label) =
      es.map (Element.sketch label) := by
  induction es generalizing previous index with
  | nil => rfl
  | cons e es ih =>
    rw [separateFrom, List.map_cons, ih, List.map_cons]
    congr 1
    split
    · exact Element.sketch_withLeadingTrivia hlabel _ e separator
    · rfl

@[simp] theorem TreeContext.sketch_fill_restamp (c : TreeContext) (s : Stamp) (n : Node) :
    ((c.restamp s).fill n).sketch Node.noLabel = (c.fill n).sketch Node.noLabel := by
  induction c with
  | hole => rfl
  | child head before inner after ih =>
    simp only [restamp, fill_child, Node.sketch_mk, List.map_append, List.map_cons, Element.sketch,
      ih]
    rfl

/-- **Layout** leaves the sketch without labels alone. -/
@[simp] theorem Node.sketch_layout (newline : Newline) (s : Stamp) (n : Node) :
    (Node.layout newline s n).sketch noLabel = n.sketch noLabel := by
  induction n using Node.induction generalizing s with
  | step head children ih =>
    have hchildren : ∀ s index,
        (Element.layoutAll newline s index children).map (Element.sketch noLabel) =
          children.map (Element.sketch noLabel) := by
      clear * - ih
      intro s index
      induction children generalizing index with
      | nil => rfl
      | cons e es ihes =>
        rw [Element.layoutAll, List.map_cons, List.map_cons,
          ihes (fun k hk ↦ ih k (List.mem_cons_of_mem e hk))]
        congr 1
        cases e with
        | node k => exact congrArg Element.node (ih k List.mem_cons_self _)
        | token t => rfl
    rw [Node.layout]
    split
    · rw [layoutMarked, sketch_mk, map_sketch_separateFrom inner_noLabel, hchildren, sketch_mk]
      rfl
    · split
      · rw [sketch_mk, hchildren, sketch_mk]
        rfl
      · rfl

theorem Document.layout_fields (d : Document) (t : Supply) :
    (d.layout t).1.id = d.id ∧ (d.layout t).1.project = d.project ∧
      t.next ≤ (d.layout t).2.next := by
  rw [Document.layout]
  split
  · exact ⟨rfl, rfl, Nat.le_succ _⟩
  · exact ⟨rfl, rfl, Nat.le_refl _⟩

theorem Document.sketch_layout (d : Document) (t : Supply) :
    (d.layout t).1.root.sketch Node.noLabel = d.root.sketch Node.noLabel := by
  rw [Document.layout]
  split
  · exact Node.sketch_layout _ _ _
  · rfl

end CodeFix
