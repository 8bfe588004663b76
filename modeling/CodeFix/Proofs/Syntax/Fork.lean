import CodeFix.Proofs.Syntax.Alike
import CodeFix.Proofs.Syntax.Splice

/-!
# Two replacements in one tree

Of two nodes of a tree one lies in the other, or the ways to them part at some node and go on below
two of its children. A `Fork` is a tree without two nodes of the second kind. It is a context of
either node as soon as the other one is filled in, so a replacement is known from `TreeContext`: it
puts its stamp on the way to its own node and leaves the other way below the parting alone.

The second of two replacements searches a tree that holds foreign nodes already. It still comes to
the right node, because a new node in front of it does not hold its id
(`mem_idsBefore_second_restampFirst`), and one behind it is not reached. In the end both orders have
put the same nodes in the same holes; only stamps tell them apart.
-/

namespace CodeFix

/-! ## Stamps on contexts -/

namespace TreeContext

variable {c : TreeContext} {n n' : Node} {r : NodeId → NodeId → Prop}

@[simp] theorem restamp_comp (c c' : TreeContext) (s : Stamp) :
    (c.comp c').restamp s = (c.restamp s).comp (c'.restamp s) := by
  induction c with
  | hole => rfl
  | child head before inner after ih => rw [comp, restamp, ih, restamp, comp]

@[simp] theorem restamp_restamp (c : TreeContext) (s t : Stamp) :
    (c.restamp s).restamp t = c.restamp t := by
  induction c with
  | hole => rfl
  | child head before inner after ih => rw [restamp, restamp, ih, restamp]

theorem idsBefore_comp (c c' : TreeContext) :
    (c.comp c').idsBefore = c.idsBefore ++ c'.idsBefore := by
  induction c with
  | hole => rfl
  | child head before inner after ih => rw [comp, idsBefore, ih, idsBefore, List.append_assoc]

theorem alike_fill_restamp (hr : ∀ id, r id id) (h : n.Alike r n') (c : TreeContext)
    (s t : Stamp) : ((c.restamp s).fill n).Alike r ((c.restamp t).fill n') := by
  induction c with
  | hole => exact h
  | child head before inner after ih =>
    exact .mk (hr head.id) rfl rfl
      ((Element.AlikeAll.refl hr before).append (.cons (.node ih) (.refl hr after)))

end TreeContext

/-! ## Forks -/

/-- A tree without two of its nodes, which lie below different children of one node. -/
structure Fork where
  above : TreeContext
  head : NodeHead
  before : List Element
  left : TreeContext
  between : List Element
  right : TreeContext
  after : List Element

namespace Fork

open TreeContext

/-- The tree with both nodes. -/
def fill (f : Fork) (a b : Node) : Node :=
  f.above.fill ⟨f.head, f.before ++ .node (f.left.fill a) ::
    (f.between ++ .node (f.right.fill b) :: f.after)⟩

/-- The context of the first node. -/
def first (f : Fork) (b : Node) : TreeContext :=
  f.above.comp (child f.head f.before f.left (f.between ++ .node (f.right.fill b) :: f.after))

/-- The context of the second node. -/
def second (f : Fork) (a : Node) : TreeContext :=
  f.above.comp (child f.head (f.before ++ .node (f.left.fill a) :: f.between) f.right f.after)

/-- The fork after an edit of the first node. -/
def restampFirst (s : Stamp) (f : Fork) : Fork :=
  { f with above := f.above.restamp s, head.stamp := s, left := f.left.restamp s }

/-- The fork after an edit of the second node. -/
def restampSecond (s : Stamp) (f : Fork) : Fork :=
  { f with above := f.above.restamp s, head.stamp := s, right := f.right.restamp s }

variable {f : Fork} {a b na nb new : Node} {s t : Stamp} {id : NodeId}

theorem fill_first (f : Fork) (a b : Node) : (f.first b).fill a = f.fill a b := fill_comp _ _ a

theorem fill_second (f : Fork) (a b : Node) : (f.second a).fill b = f.fill a b := by
  rw [second, fill_comp, fill_child, List.append_assoc]
  rfl

/-- **Two nodes of a tree**, neither of which lies in the other, stand in a fork. -/
theorem exists_fork {root : Node} (ha : a ∈ root.preorder) (hb : b ∈ root.preorder)
    (hab : a ∉ b.preorder) (hba : b ∉ a.preorder) :
    ∃ f : Fork, root = f.fill a b ∨ root = f.fill b a := by
  induction root using Node.induction with
  | step head children ih =>
    rcases Node.mem_preorder_iff.1 ha with rfl | ⟨k, hk, hak⟩
    · exact absurd hb hba
    rcases Node.mem_preorder_iff.1 hb with rfl | ⟨k', hk', hbk⟩
    · exact absurd ha hab
    by_cases hsame : k = k'
    · -- the ways to both nodes go on below one child
      obtain ⟨f, hf⟩ := ih k hk hak (hsame ▸ hbk)
      obtain ⟨before, after, rfl⟩ := List.append_of_mem hk
      refine ⟨{ f with above := child head before f.above after }, hf.imp ?_ ?_⟩ <;>
        · rintro rfl
          rfl
    · obtain ⟨left, rfl⟩ := exists_fill_of_mem hak
      obtain ⟨right, rfl⟩ := exists_fill_of_mem hbk
      obtain ⟨before, after, rfl⟩ := List.append_of_mem hk
      rcases List.mem_append.1 hk' with hfront | hbehind
      · obtain ⟨before, between, rfl⟩ := List.append_of_mem hfront
        refine ⟨⟨hole, head, before, right, between, left, after⟩, .inr ?_⟩
        rw [fill, fill_hole, List.append_assoc]
        rfl
      · have hne : Element.node (right.fill b) ≠ .node (left.fill a) :=
          fun h ↦ hsame (Element.node.inj h).symm
        obtain ⟨between, after, rfl⟩ :=
          List.append_of_mem ((List.mem_cons.1 hbehind).resolve_left hne)
        exact ⟨⟨hole, head, before, left, between, right, after⟩, .inl rfl⟩

/-! ## Replacing one of the nodes -/

theorem replace?_first (h : a.id ∉ (f.first b).idsBefore) (s : Stamp) (new : Node) :
    Node.replace? s a.id new (f.fill a b) = some ((f.restampFirst s).fill new b) := by
  rw [← fill_first, replace?_fill h, first, restamp_comp, fill_comp]
  rfl

theorem replace?_second (h : b.id ∉ (f.second a).idsBefore) (s : Stamp) (new : Node) :
    Node.replace? s b.id new (f.fill a b) = some ((f.restampSecond s).fill a new) := by
  rw [← fill_second, replace?_fill h, ← fill_second, second, restamp_comp]
  rfl

/-- An edit of the second node changes nothing in front of the first one. -/
theorem idsBefore_first_restampSecond (f : Fork) (b nb : Node) (s : Stamp) :
    ((f.restampSecond s).first nb).idsBefore = (f.first b).idsBefore := by
  rw [first, first, idsBefore_comp, idsBefore_comp, idsBefore, idsBefore, restampSecond,
    idsBefore_restamp]

/-- An edit of the first node brings no ids in front of the second one but those of the new node. -/
theorem mem_idsBefore_second_restampFirst
    (h : id ∈ ((f.restampFirst s).second na).idsBefore) :
    id ∈ (f.second a).idsBefore ∨ id ∈ na.ids := by
  have hnode : ∀ n : Node, (Element.node n).preorder.map Node.id = n.ids := fun _ ↦ rfl
  rw [second, idsBefore_comp, idsBefore, restampFirst, idsBefore_restamp, List.flatMap_append,
    List.flatMap_cons, hnode, ids_fill, idsBefore_restamp, idsAfter_restamp] at h
  rw [second, idsBefore_comp, idsBefore, List.flatMap_append, List.flatMap_cons, hnode, ids_fill]
  simp only [List.mem_append, List.mem_cons] at h ⊢
  tauto

/-! ## Replacing both -/

theorem alike_fill_restamp (f : Fork) (a b : Node) (s s' t t' : Stamp) :
    (((f.restampFirst s).restampSecond s').fill a b).Alike Eq
      (((f.restampSecond t).restampFirst t').fill a b) := by
  have hrefl : ∀ id : NodeId, id = id := fun _ ↦ rfl
  have hleft := TreeContext.alike_fill_restamp hrefl (.refl hrefl a) f.left s t'
  have hright := TreeContext.alike_fill_restamp hrefl (.refl hrefl b) f.right s' t
  have hchildren := (Element.AlikeAll.refl hrefl f.before).append (.cons (.node hleft)
    ((Element.AlikeAll.refl hrefl f.between).append (.cons (.node hright) (.refl hrefl f.after))))
  have hparting : Node.Alike Eq ⟨{ f.head with stamp := s' }, _⟩ ⟨{ f.head with stamp := t' }, _⟩ :=
    .mk rfl rfl rfl hchildren
  simp only [restampFirst, restampSecond, fill, restamp_restamp]
  exact TreeContext.alike_fill_restamp hrefl hparting f.above s' t'

/-- In a fork both orders of replacing succeed, with trees that are alike. -/
theorem replace?_both (hf : (f.fill a b).ids.Nodup) (hna : b.id ∉ na.ids) (s s' t t' : Stamp)
    (nb : Node) : ∃ x x' y y',
      Node.replace? s a.id na (f.fill a b) = some x ∧ Node.replace? s' b.id nb x = some x' ∧
      Node.replace? t b.id nb (f.fill a b) = some y ∧ Node.replace? t' a.id na y = some y' ∧
      x'.Alike Eq y' := by
  have ha : a.id ∉ (f.first b).idsBefore := id_not_mem_idsBefore (fill_first f a b ▸ hf)
  have hb : b.id ∉ (f.second a).idsBefore := id_not_mem_idsBefore (fill_second f a b ▸ hf)
  have hb' : b.id ∉ ((f.restampFirst s).second na).idsBefore :=
    fun h ↦ (mem_idsBefore_second_restampFirst h).elim hb hna
  have ha' : a.id ∉ ((f.restampSecond t).first nb).idsBefore := by
    rwa [idsBefore_first_restampSecond f b]
  exact ⟨_, _, _, _, replace?_first ha s na, replace?_second hb' s' nb, replace?_second hb t nb,
    replace?_first ha' t' na, f.alike_fill_restamp na nb s s' t t'⟩

end Fork

namespace Node

/-- **Independent replacements commute.** Of two nodes of a tree, neither of which lies in the
other, both are replaced in either order, whatever edits the replacements belong to, and the trees
have the same kinds, ids, marks and tokens in the same places. -/
theorem replacements_commute {root a b na nb : Node} (hroot : root.ids.Nodup)
    (ha : a ∈ root.preorder) (hb : b ∈ root.preorder) (hab : a ∉ b.preorder)
    (hba : b ∉ a.preorder) (hna : b.id ∉ na.ids) (hnb : a.id ∉ nb.ids) (s s' t t' : Stamp) :
    ∃ x x' y y', Node.replace? s a.id na root = some x ∧ Node.replace? s' b.id nb x = some x' ∧
      Node.replace? t b.id nb root = some y ∧ Node.replace? t' a.id na y = some y' ∧
      x'.Alike Eq y' := by
  obtain ⟨f, rfl | rfl⟩ := Fork.exists_fork ha hb hab hba
  · exact Fork.replace?_both hroot hna s s' t t' nb
  · obtain ⟨y, y', x, x', hy, hy', hx, hx', hyx⟩ := Fork.replace?_both hroot hnb t t' s s' na
    exact ⟨x, x', y, y', hx, hx', hy, hy', hyx.symm Eq.symm⟩

/-- Both new nodes hold the same third id, so each order meets it before its second replacement. -/
theorem replacements_commute_siblings :
    let a := named 1 "" "a"
    let b := named 2 " " "b"
    let na := named 3 "" "c"
    let nb : Node := ⟨⟨⟨4⟩, ⟨5, []⟩, Kind.variableDeclarator, false⟩, [.node (named 3 "\t" "d")]⟩
    siblings.ids.Nodup ∧ a ∈ siblings.preorder ∧ b ∈ siblings.preorder ∧
      a ∉ b.preorder ∧ b ∉ a.preorder ∧ b.id ∉ na.ids ∧ a.id ∉ nb.ids ∧ ∃ x x' y y',
        Node.replace? ⟨6, []⟩ a.id na siblings = some x ∧
        Node.replace? ⟨7, []⟩ b.id nb x = some x' ∧
        Node.replace? ⟨6, []⟩ b.id nb siblings = some y ∧
        Node.replace? ⟨7, []⟩ a.id na y = some y' ∧ x'.Alike Eq y' := by
  intro a b na nb
  have hroot : siblings.ids.Nodup := by decide
  have ha : a ∈ siblings.preorder := by decide
  have hb : b ∈ siblings.preorder := by decide
  have hab : a ∉ b.preorder := by decide
  have hba : b ∉ a.preorder := by decide
  have hna : b.id ∉ na.ids := by decide
  have hnb : a.id ∉ nb.ids := by decide
  exact ⟨hroot, ha, hb, hab, hba, hna, hnb,
    replacements_commute hroot ha hb hab hba hna hnb _ _ _ _⟩

end Node

end CodeFix
