import CodeFix.Proofs.Attribute.Identity
import CodeFix.Proofs.Layout
import CodeFix.Proofs.ListSearch

/-!
# The tree after an edit, node by node

An edit exchanges one node, puts new stamps on its ancestors and leaves everything else as it is
(`Node.Exchanged`). What a reader of the edited tree meets therefore *follows* something in the tree
before: either both read the same, up to the trivia in front of them, or the exchanged node lies in
both (`Node.Follows`). As long as the new node reads like the old one with an attribute list more
(`Node.Gains`), the nodes of the two trees follow each other one by one and in the same order, apart
from those of the list (`Exchanged.forall₂_preorder`). Lists of nodes that are picked by a property
which survives the edit, such as the path to an id or the declarations of types, follow each other
in the same way.
-/

namespace CodeFix

/-- The tree with another node in place of one of its nodes, whose ancestors have new stamps. -/
inductive Node.Exchanged (old new : Node) : Node → Node → Prop
  | hole : Exchanged old new old new
  | child {head : NodeHead} {before after : List Element} {k k' : Node} {s : Stamp}
      (h : Exchanged old new k k') :
      Exchanged old new ⟨head, before ++ .node k :: after⟩
        ⟨{ head with stamp := s }, before ++ .node k' :: after⟩

/-- What became of a node in an edit: it reads the same, or a node in it was exchanged. -/
def Node.Follows (old new m m' : Node) : Prop :=
  m.sketch trimmedText = m'.sketch trimmedText ∨ Exchanged old new m m'

/-- The node reads like another one with an attribute list more. -/
structure Node.Gains (n list new : Node) : Prop where
  kind : new.kind = n.kind
  list_kind : list.kind = Kind.attributeList
  kinds : ∀ m ∈ list.preorder, m.kind ∈ Kind.attributeParts
  children : ∃ before after, new.children = before ++ .node list :: after ∧
    (before ++ after).map (Element.sketch Node.trimmedText) =
      n.children.map (Element.sketch Node.trimmedText)

variable {old list new m m' n : Node} {id : NodeId}

namespace Node.Exchanged

theorem mem_preorder (h : Exchanged old new m m') : old ∈ m.preorder := by
  induction h with
  | hole => exact mem_preorder_self _
  | child _ ih => exact mem_preorder_of_child List.mem_append_cons_self ih

theorem mem_preorder_new (h : Exchanged old new m m') : new ∈ m'.preorder := by
  induction h with
  | hole => exact mem_preorder_self _
  | child _ ih => exact mem_preorder_of_child List.mem_append_cons_self ih

theorem kind_eq (hnew : old.Gains list new) (h : Exchanged old new m m') : m'.kind = m.kind := by
  cases h with
  | hole => exact hnew.kind
  | child => rfl

theorem id_eq (h : Exchanged old new m m') (hne : m ≠ old) : m'.id = m.id := by
  cases h with
  | hole => exact absurd rfl hne
  | child => rfl

theorem mem_ids_iff (hnew : old.Gains list new) (hold : id ≠ old.id)
    (hfresh : id ∉ new.id :: list.ids) (h : Exchanged old new m m') :
    id ∈ m'.ids ↔ id ∈ m.ids := by
  induction h with
  | hole =>
    obtain ⟨before, after, hchildren, hsketch⟩ := hnew.children
    have hlist : (Element.node list).preorder.map Node.id = list.ids := rfl
    rw [List.mem_cons, not_or] at hfresh
    rw [ids_eq, ids_eq old, ← Element.flatMap_ids_eq_of_sketch_eq hsketch, hchildren,
      List.flatMap_append, List.flatMap_append, List.flatMap_cons, hlist]
    simp only [List.mem_cons, List.mem_append, hold, hfresh.1, hfresh.2, false_or]
  | @child head before after k k' s _ ih =>
    have hk : (Element.node k).preorder.map Node.id = k.ids := rfl
    have hk' : (Element.node k').preorder.map Node.id = k'.ids := rfl
    rw [ids_eq, ids_eq]
    simp only [List.flatMap_append, List.flatMap_cons, hk, hk', List.mem_cons, List.mem_append, ih]
    rfl

end Node.Exchanged

namespace Node.Follows

theorem refl (old new m : Node) : Follows old new m m := Or.inl rfl

theorem kind_eq (hnew : old.Gains list new) (h : Follows old new m m') : m'.kind = m.kind := by
  rcases h with h | h
  · exact (kind_eq_of_sketch_eq h).symm
  · exact h.kind_eq hnew

theorem id_eq (h : Follows old new m m') (hne : m ≠ old) : m'.id = m.id := by
  rcases h with h | h
  · exact (id_eq_of_sketch_eq h).symm
  · exact h.id_eq hne

theorem mem_ids_iff (hnew : old.Gains list new) (hold : id ≠ old.id)
    (hfresh : id ∉ new.id :: list.ids) (h : Follows old new m m') :
    id ∈ m'.ids ↔ id ∈ m.ids := by
  rcases h with h | h
  · rw [ids_eq_of_sketch_eq h]
  · exact h.mem_ids_iff hnew hold hfresh

theorem sketch_eq (h : Follows old new m m') (hold : old ∉ m.preorder) :
    m.sketch trimmedText = m'.sketch trimmedText :=
  h.resolve_right fun h ↦ hold h.mem_preorder

end Node.Follows

/-! ## Node by node -/

theorem Element.forall₂_preorder {es es' : List Element}
    (h : es.map (sketch Node.trimmedText) = es'.map (sketch Node.trimmedText)) :
    List.Forall₂ (Node.Follows old new) (es.flatMap preorder) (es'.flatMap preorder) := by
  exact (forall₂_iff_map_eq.2 (flatMap_preorder_of_sketch_eq h)).imp fun _ _ ↦ Or.inl

/-- **Node by node.** The nodes with a property follow each other in pre-order, if following nodes
agree on the property and the new list has nothing to do with it. -/
theorem Node.Exchanged.forall₂_preorder (hnew : old.Gains list new) {p q : Node → Bool}
    (hp : ∀ x x', Node.Follows old new x x' → p x = q x')
    (hlist : ∀ x ∈ list.preorder, q x = false) (h : Node.Exchanged old new m m') :
    List.Forall₂ (Node.Follows old new) (m.preorder.filter p) (m'.preorder.filter q) := by
  have hfilter : ∀ {xs ys : List Node}, List.Forall₂ (Node.Follows old new) xs ys →
      List.Forall₂ (Node.Follows old new) (xs.filter p) (ys.filter q) :=
    fun hxs ↦ (forall₂_filter hxs hp).imp fun _ _ ↦ And.right
  have hcons : ∀ {x x' : Node} {xs xs' : List Node}, Node.Follows old new x x' →
      List.Forall₂ (Node.Follows old new) (xs.filter p) (xs'.filter q) →
      List.Forall₂ (Node.Follows old new) ((x :: xs).filter p) ((x' :: xs').filter q) := by
    intro x x' xs xs' hx hxs
    rw [List.filter_cons, List.filter_cons, hp x x' hx]
    split
    · exact .cons hx hxs
    · exact hxs
  induction h with
  | hole =>
    obtain ⟨before, after, hchildren, hsketch⟩ := hnew.children
    have hnone : (Element.node list).preorder.filter q = [] :=
      List.filter_eq_nil_iff.2 fun x hx ↦ Bool.eq_false_iff.1 (hlist x hx)
    rw [Node.preorder_eq, Node.preorder_eq new]
    refine hcons (Or.inr .hole) ?_
    rw [hchildren, List.flatMap_append, List.flatMap_cons, List.filter_append, List.filter_append,
      hnone, List.nil_append, ← List.filter_append, ← List.flatMap_append]
    exact hfilter (Element.forall₂_preorder hsketch.symm)
  | @child head before after k k' s hk ih =>
    have hsame : ∀ es : List Element, List.Forall₂ (Node.Follows old new)
        ((es.flatMap Element.preorder).filter p) ((es.flatMap Element.preorder).filter q) :=
      fun es ↦ hfilter (Element.forall₂_preorder rfl)
    rw [Node.preorder_eq, Node.preorder_eq ⟨{ head with stamp := s }, _⟩]
    refine hcons (Or.inr (.child hk)) ?_
    simp only [List.flatMap_append, List.flatMap_cons, List.filter_append]
    exact List.rel_append (hsame before) (List.rel_append ih (hsame after))

namespace Node.Follows

theorem forall₂_preorder (hnew : old.Gains list new) {p q : Node → Bool}
    (hp : ∀ x x', Follows old new x x' → p x = q x') (hlist : ∀ x ∈ list.preorder, q x = false)
    (h : Follows old new m m') :
    List.Forall₂ (Follows old new) (m.preorder.filter p) (m'.preorder.filter q) := by
  rcases h with h | h
  · have hmap : m.preorder.map (sketch trimmedText) = m'.preorder.map (sketch trimmedText) := by
      rw [← preorder_sketch, h, preorder_sketch]
    have hall : List.Forall₂ (Follows old new) m.preorder m'.preorder :=
      (forall₂_iff_map_eq.2 hmap).imp fun _ _ ↦ Or.inl
    exact (forall₂_filter hall hp).imp fun _ _ ↦ And.right
  · exact h.forall₂_preorder hnew hp hlist

/-- **Paths** to an id that was there before and stayed. -/
theorem exists_pathTo? (hnew : old.Gains list new) (h : Follows old new m m') (hm : m.ids.Nodup)
    (hm' : m'.ids.Nodup) (hid : id ∈ m.ids) (hold : id ≠ old.id)
    (hfresh : id ∉ new.id :: list.ids) :
    ∃ path path', m.pathTo? id = some path ∧ m'.pathTo? id = some path' ∧
      List.Forall₂ (Follows old new) path path' := by
  have hcontains : ∀ x x', Follows old new x x' → x.contains id = x'.contains id := by
    intro x x' hx
    rw [Bool.eq_iff_iff, contains_iff, contains_iff, hx.mem_ids_iff hnew hold hfresh]
  have hlist : ∀ x ∈ list.preorder, x.contains id = false := by
    intro x hx
    rw [Bool.eq_false_iff, ne_eq, contains_iff]
    intro hidx
    have hids : id ∈ list.ids := ((preorder_isInfix hx).sublist.map Node.id).subset hidx
    exact hfresh (List.mem_cons_of_mem _ hids)
  exact ⟨_, _, pathTo?_eq_filter hm hid,
    pathTo?_eq_filter hm' ((h.mem_ids_iff hnew hold hfresh).2 hid),
    h.forall₂_preorder hnew hcontains hlist⟩

end Node.Follows

/-! ## Layout -/

variable {newline : Newline} {s : Stamp} {name : String} {u v : Supply}

/-- **Layout exchanges.** A marked node with settled children is laid out in place, if nothing
around it is marked. -/
theorem TreeContext.layout_fill {c : TreeContext} (hc : c.hasMark = false)
    (hmarked : new.marked = true) (hchildren : ∀ e ∈ new.children, e.hasMark = false)
    (old : Node) (s₀ s : Stamp) :
    ∃ s', Node.Exchanged old (layoutMarked s' newline new) (c.fill old)
      (Node.layout newline s ((c.restamp s₀).fill new)) := by
  induction c generalizing s with
  | hole =>
    obtain ⟨head, children⟩ := new
    refine ⟨s, ?_⟩
    have hhead : head.marked = true := hmarked
    rw [restamp, fill_hole, fill_hole, Node.layout, if_pos hhead,
      Element.layoutAll_of_hasMark_eq_false hchildren]
    exact .hole
  | child head before inner after ih =>
    simp only [hasMark, Bool.or_eq_false_iff] at hc
    obtain ⟨⟨⟨hhead, hbefore⟩, hinner⟩, hafter⟩ := hc
    have hsettled : ∀ {es : List Element}, es.any Element.hasMark = false → ∀ index,
        Element.layoutAll newline s index es = es := fun hes index ↦
      Element.layoutAll_of_hasMark_eq_false
        (fun e he ↦ Bool.eq_false_iff.2 (List.any_eq_false.1 hes e he)) index
    have hnode : ((inner.restamp s₀).fill new).hasMark = true := by
      obtain ⟨newHead, children⟩ := new
      rw [hasMark_fill, Node.hasMark, show newHead.marked = true from hmarked, Bool.true_or,
        Bool.or_true]
    have hall :
        Element.hasMarkAll (before ++ .node ((inner.restamp s₀).fill new) :: after) = true := by
      rw [Element.hasMarkAll_eq_any, List.any_append, List.any_cons, Element.hasMark, hnode,
        Bool.true_or, Bool.or_true]
    obtain ⟨s', h⟩ := ih hinner (s.below (0 + before.length))
    refine ⟨s', ?_⟩
    rw [restamp, fill_child, fill_child, Node.layout, if_neg (Bool.eq_false_iff.1 hhead),
      if_pos hall, Element.layoutAll_append, Element.layoutAll, hsettled hbefore, hsettled hafter]
    exact .child h

/-- After layout the new version of a declaration still reads like it with a list more. -/
theorem Node.Extended.gains (h : n.Extended list new name u v) (s : Stamp) (newline : Newline) :
    ∃ list', n.Gains list' (layoutMarked s newline new) ∧
      list'.sketch Node.trimmedText = list.sketch Node.trimmedText := by
  obtain ⟨before, after, hchildren, hsketch⟩ := h.children_eq
  have hmap := map_sketch_separateFrom Node.inner_trimmedText s
    (separatorFor new.leadingTrivia newline) none 0 new.children
  rw [hchildren, List.map_append, List.map_cons, ← hchildren] at hmap
  obtain ⟨before', rest, hsplit, hbefore, hrest⟩ := List.map_eq_append_iff.1 hmap
  obtain ⟨e, after', rfl, he, hafter⟩ := List.map_eq_cons_iff.1 hrest
  cases e with
  | token t => cases he
  | node list' =>
    have hlist : list'.sketch Node.trimmedText = list.sketch Node.trimmedText :=
      Element.node.inj he
    obtain ⟨leading, hlistOf, -⟩ := h.placed
    refine ⟨list', ⟨h.kind, (Node.kind_eq_of_sketch_eq hlist).trans hlistOf.kind, fun m hm ↦ ?_,
      before', after', hsplit, ?_⟩, hlist⟩
    · obtain ⟨k, hk, hkm⟩ := Node.exists_of_sketch_eq hlist hm
      rw [← Node.kind_eq_of_sketch_eq hkm]
      exact h.kinds k hk
    · rw [← hsketch _ Node.inner_trimmedText, List.map_append, hbefore, hafter, List.map_append]

end CodeFix
