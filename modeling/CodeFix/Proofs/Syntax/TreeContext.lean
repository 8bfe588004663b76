import CodeFix.Proofs.Syntax.Preorder
import CodeFix.Syntax.Text

/-!
# Trees with a hole

Where a node stands in a tree is a `TreeContext`: the tree without the node. Filling the hole with
the node gives the tree back, and replacing the node is filling the hole with another one after a
stamp was put on the ancestors (`replace?_fill`). What an edit does to the tokens, the ids or the
layout of a tree is then one equation on `fill` each, by induction on the context, and no proof
follows the search for the node a second time.

The search stops at the first node with the id. All equations about it therefore ask that the id
does not occur in front of the hole (`idsBefore`), which holds when the ids of the tree are pairwise
distinct.
-/

namespace CodeFix

/-- A tree without one of its nodes. -/
inductive TreeContext where
  /-- The whole tree is missing. -/
  | hole
  /-- The missing node stands in a child, between two runs of siblings. -/
  | child (head : NodeHead) (before : List Element) (inner : TreeContext) (after : List Element)

namespace TreeContext

/-- The tree with a node in the hole. -/
def fill : TreeContext → Node → Node
  | hole, n => n
  | child head before inner after, n => ⟨head, before ++ .node (inner.fill n) :: after⟩

/-- The context whose ancestors of the hole were rebuilt by an edit. -/
def restamp (s : Stamp) : TreeContext → TreeContext
  | hole => hole
  | child head before inner after =>
    child { head with stamp := s } before (inner.restamp s) after

/-- The context that is left when the hole of one context is filled with another one. -/
def comp : TreeContext → TreeContext → TreeContext
  | hole, c => c
  | child head before inner after, c => child head before (inner.comp c) after

/-- The ids that come before the hole in pre-order. -/
def idsBefore : TreeContext → List NodeId
  | hole => []
  | child head before inner _ =>
    head.id :: (before.flatMap fun e ↦ e.preorder.map Node.id) ++ inner.idsBefore

/-- The ids that come after the hole in pre-order. -/
def idsAfter : TreeContext → List NodeId
  | hole => []
  | child _ _ inner after =>
    inner.idsAfter ++ after.flatMap fun e ↦ e.preorder.map Node.id

/-- The tokens in front of the hole. -/
def tokensBefore : TreeContext → List Token
  | hole => []
  | child _ before inner _ => Element.tokensAll before ++ inner.tokensBefore

/-- The tokens behind the hole. -/
def tokensAfter : TreeContext → List Token
  | hole => []
  | child _ _ inner after => inner.tokensAfter ++ Element.tokensAll after

variable {c : TreeContext} {m n new : Node} {s : Stamp} {id : NodeId}

@[simp] theorem fill_hole (n : Node) : hole.fill n = n := rfl

@[simp] theorem fill_child (head : NodeHead) (before after : List Element) (c : TreeContext)
    (n : Node) :
    (child head before c after).fill n = ⟨head, before ++ .node (c.fill n) :: after⟩ := rfl

/-- **A node of a tree stands in a context.** -/
theorem exists_fill_of_mem (h : m ∈ n.preorder) : ∃ c : TreeContext, n = c.fill m := by
  induction n using Node.induction with
  | step head children ih =>
    rcases Node.mem_preorder_iff.1 h with rfl | ⟨k, hk, hm⟩
    · exact ⟨hole, rfl⟩
    · obtain ⟨inner, rfl⟩ := ih k hk hm
      obtain ⟨before, after, rfl⟩ := List.append_of_mem hk
      exact ⟨child head before inner after, rfl⟩

@[simp] theorem fill_comp (c c' : TreeContext) (n : Node) :
    (c.comp c').fill n = c.fill (c'.fill n) := by
  induction c with
  | hole => rfl
  | child head before inner after ih => rw [comp, fill_child, ih, fill_child]

theorem mem_preorder_fill (c : TreeContext) (n : Node) : n ∈ (c.fill n).preorder := by
  induction c with
  | hole => exact n.mem_preorder_self
  | child head before inner after ih =>
    exact Node.mem_preorder_of_child List.mem_append_cons_self ih

/-- Where a node of a filled tree stands: in the node in the hole, around the hole, or beside it. -/
theorem mem_preorder_fill_cases (h : m ∈ (c.fill n).preorder) :
    m ∈ n.preorder ∨
      (∃ head before inner after, m = (child head before inner after).fill n ∧
        ∀ x, (child head before inner after).fill x ∈ (c.fill x).preorder) ∨
      (∀ x, m ∈ (c.fill x).preorder) ∧ ∀ id ∈ m.ids, id ∈ c.idsBefore ∨ id ∈ c.idsAfter := by
  induction c with
  | hole => exact Or.inl h
  | child head before inner after ih =>
    have hinner : ∀ x {k : Node}, k ∈ (inner.fill x).preorder →
        k ∈ ((child head before inner after).fill x).preorder :=
      fun x k hk ↦ Node.mem_preorder_of_child List.mem_append_cons_self hk
    rcases Node.mem_preorder_iff.1 h with rfl | ⟨k, hk, hm⟩
    · exact Or.inr (Or.inl ⟨head, before, inner, after, rfl, fun x ↦ Node.mem_preorder_self _⟩)
    · have hids : ∀ id ∈ m.ids, id ∈ k.ids :=
        fun id hid ↦ ((Node.preorder_isInfix hm).sublist.map Node.id).subset hid
      rcases List.mem_append.1 hk with hk | hk
      · refine Or.inr (Or.inr ⟨fun x ↦ Node.mem_preorder_of_child
          (List.mem_append_left _ hk) hm, fun id hid ↦ Or.inl ?_⟩)
        rw [idsBefore, List.cons_append, List.mem_cons, List.mem_append, List.mem_flatMap]
        exact Or.inr (Or.inl ⟨.node k, hk, hids id hid⟩)
      · rcases List.mem_cons.1 hk with hk | hk
        · obtain rfl : k = inner.fill n := Element.node.inj hk
          rcases ih hm with hm | ⟨head', before', inner', after', rfl, hfill⟩ | ⟨hfill, hbeside⟩
          · exact Or.inl hm
          · exact Or.inr (Or.inl ⟨head', before', inner', after', rfl, fun x ↦ hinner x (hfill x)⟩)
          · refine Or.inr (Or.inr ⟨fun x ↦ hinner x (hfill x), fun id hid ↦ ?_⟩)
            rw [idsBefore, idsAfter, List.mem_append, List.mem_append]
            exact (hbeside id hid).imp Or.inr Or.inl
        · refine Or.inr (Or.inr ⟨fun x ↦ Node.mem_preorder_of_child
            (List.mem_append_right _ (List.mem_cons_of_mem _ hk)) hm, fun id hid ↦ Or.inr ?_⟩)
          rw [idsAfter, List.mem_append, List.mem_flatMap]
          exact Or.inr ⟨.node k, hk, hids id hid⟩

/-! ## Views of a filled tree -/

theorem ids_fill (c : TreeContext) (n : Node) :
    (c.fill n).ids = c.idsBefore ++ n.ids ++ c.idsAfter := by
  induction c with
  | hole => rw [fill_hole, idsBefore, idsAfter, List.nil_append, List.append_nil]
  | child head before inner after ih =>
    have hnode : (Element.node (inner.fill n)).preorder.map Node.id = (inner.fill n).ids := rfl
    rw [fill_child, Node.ids_eq, List.flatMap_append, List.flatMap_cons, hnode, ih, idsBefore,
      idsAfter]
    simp only [List.append_assoc, List.cons_append]
    rfl

theorem tokens_fill (c : TreeContext) (n : Node) :
    (c.fill n).tokens = c.tokensBefore ++ n.tokens ++ c.tokensAfter := by
  induction c with
  | hole => rw [fill_hole, tokensBefore, tokensAfter, List.nil_append, List.append_nil]
  | child head before inner after ih =>
    rw [fill_child, Node.tokens_mk, Element.tokensAll_append, Element.tokensAll_cons,
      Element.tokens_node, ih, tokensBefore, tokensAfter]
    simp only [List.append_assoc]

@[simp] theorem tokensBefore_comp (c c' : TreeContext) :
    (c.comp c').tokensBefore = c.tokensBefore ++ c'.tokensBefore := by
  induction c with
  | hole => rfl
  | child head before inner after ih =>
    rw [comp, tokensBefore, ih, tokensBefore, List.append_assoc]

@[simp] theorem tokensBefore_restamp (c : TreeContext) (s : Stamp) :
    (c.restamp s).tokensBefore = c.tokensBefore := by
  induction c with
  | hole => rfl
  | child head before inner after ih => rw [restamp, tokensBefore, ih, tokensBefore]

@[simp] theorem tokensAfter_restamp (c : TreeContext) (s : Stamp) :
    (c.restamp s).tokensAfter = c.tokensAfter := by
  induction c with
  | hole => rfl
  | child head before inner after ih => rw [restamp, tokensAfter, ih, tokensAfter]

theorem id_not_mem_idsBefore (h : (c.fill n).ids.Nodup) : n.id ∉ c.idsBefore := by
  intro hmem
  rw [ids_fill, List.append_assoc] at h
  have hn : n.id ∈ n.ids ++ c.idsAfter :=
    List.mem_append_left _ (Node.mem_ids_of_mem n.mem_preorder_self)
  exact (List.nodup_append.1 h).2.2 _ hmem _ hn rfl

end TreeContext

/-! ## Replacement -/

theorem Element.replaceAll?_append {before : List Element} {s : Stamp} {id : NodeId} {new : Node}
    (es : List Element)
    (h : ∀ e ∈ before, e.replace? s id new = none) :
    Element.replaceAll? s id new (before ++ es) =
      (Element.replaceAll? s id new es).map (before ++ ·) := by
  induction before with
  | nil =>
    rw [List.nil_append]
    cases Element.replaceAll? s id new es <;> rfl
  | cons e before ih =>
    rw [List.cons_append, Element.replaceAll?, h e List.mem_cons_self,
      ih fun e' he' ↦ h e' (List.mem_cons_of_mem e he'), Option.map_map]
    rfl

theorem Element.replaceAll?_ne_none {e : Element} {es : List Element} {s : Stamp} {id : NodeId}
    {new : Node} (he : e ∈ es) (h : e.replace? s id new ≠ none) :
    Element.replaceAll? s id new es ≠ none := by
  induction es with
  | nil => cases he
  | cons x es ih =>
    rw [Element.replaceAll?]
    split
    · exact Option.some_ne_none _
    · next hnone =>
      rw [Ne, Option.map_eq_none_iff]
      refine ih ((List.mem_cons.1 he).resolve_left fun hex ↦ h ?_)
      rw [hex, hnone]

theorem Node.replace?_eq_none {s : Stamp} {id : NodeId} {new n : Node} (h : id ∉ n.ids) :
    Node.replace? s id new n = none := by
  induction n using Node.induction with
  | step head children ih =>
    rw [Node.ids_eq, List.mem_cons, List.mem_flatMap, not_or] at h
    have hnone : ∀ e ∈ children, e.replace? s id new = none := by
      intro e he
      cases e with
      | node c =>
        rw [Element.replace?, ih c he fun hc ↦ h.2 ⟨.node c, he, hc⟩, Option.map_none]
      | token t => rfl
    have hall := Element.replaceAll?_append [] hnone
    rw [List.append_nil] at hall
    rw [Node.replace?, if_neg fun hid ↦ h.1 hid.symm, hall]
    rfl

theorem Node.replace?_ne_none {s : Stamp} {id : NodeId} {new n : Node} (h : id ∈ n.ids) :
    Node.replace? s id new n ≠ none := by
  induction n using Node.induction with
  | step head children ih =>
    rw [Node.replace?]
    split
    · exact Option.some_ne_none new
    · next hhead =>
      rw [Node.ids_eq, List.mem_cons, List.mem_flatMap] at h
      obtain ⟨e, he, hid⟩ := h.resolve_left fun hid ↦ hhead hid.symm
      have hsome : e.replace? s id new ≠ none := by
        cases e with
        | node c =>
          rw [Element.replace?, Ne, Option.map_eq_none_iff]
          exact ih c he hid
        | token t => cases hid
      rw [Ne, Option.map_eq_none_iff]
      exact Element.replaceAll?_ne_none he hsome

namespace TreeContext

/-- **Replacement.** The node in the hole is replaced, and its ancestors get the stamp. -/
theorem replace?_fill {c : TreeContext} {n new : Node} {s : Stamp} (h : n.id ∉ c.idsBefore) :
    Node.replace? s n.id new (c.fill n) = some ((c.restamp s).fill new) := by
  induction c with
  | hole =>
    obtain ⟨head, children⟩ := n
    exact if_pos rfl
  | child head before inner after ih =>
    rw [idsBefore, List.mem_append, List.mem_cons, not_or, not_or] at h
    obtain ⟨⟨hhead, hbefore⟩, hinner⟩ := h
    have hnone : ∀ e ∈ before, e.replace? s n.id new = none := by
      intro e he
      cases e with
      | node k =>
        have hk : n.id ∉ k.ids := fun hk ↦ hbefore (List.mem_flatMap.2 ⟨.node k, he, hk⟩)
        rw [Element.replace?, Node.replace?_eq_none hk, Option.map_none]
      | token t => rfl
    rw [fill_child, Node.replace?, if_neg fun hid ↦ hhead hid.symm,
      Element.replaceAll?_append _ hnone, Element.replaceAll?, Element.replace?, ih hinner]
    rfl

end TreeContext

end CodeFix
