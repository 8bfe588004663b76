import CodeFix.Proofs.Syntax.Place
import CodeFix.Syntax.Kind

/-!
# Replacement splices one subtree

Replacing a node cuts one subtree out of a tree and puts another one into the gap. `Node.Spliced`
says of every place of the tree what is found there afterwards: at the place of the old node and
below it stands the new one, above it stand the ancestors with all their other children, and beside
it nothing has changed. Of the text and of the ids, which are both read off from left to right, one
stretch is exchanged.

In terms of contexts this is what filling a restamped context does, so each clause is an induction
on the context, and the search for the id is left to `replace?_fill`.
-/

namespace CodeFix

/-- The tree `n'` is the tree `n` with `new` in place of `old`, which stands at the place; the
ancestors of that place have the stamp of the edit. -/
structure Node.Spliced (s : Stamp) (place : List Nat) (old new n n' : Node) : Prop where
  at_old : n.at? place = some (.node old)
  at_new : ∀ rest, n'.at? (place ++ rest) = new.at? rest
  /-- An ancestor is the same up to its stamp and the one child on the way to the place. -/
  above : ∀ path i rest, place = path ++ i :: rest → ∃ head children child,
    n.at? path = some (.node ⟨head, children⟩) ∧
      n'.at? path = some (.node ⟨{ head with stamp := s }, children.set i child⟩)
  beside : ∀ path, ¬place <+: path → ¬path <+: place → n'.at? path = n.at? path
  /-- The stretch of text that is exchanged is the full span of the old node. -/
  text : ∃ before behind, n.text = before ++ old.text ++ behind ∧
    n'.text = before ++ new.text ++ behind ∧
    n.textRange? old.id = some (before.utf8ByteSize + old.leadingTrivia.utf8ByteSize,
      before.utf8ByteSize + old.text.utf8ByteSize)
  ids : ∃ before behind, n.ids = before ++ old.ids ++ behind ∧ n'.ids = before ++ new.ids ++ behind

/-! ## Filling a restamped context -/

namespace TreeContext

variable {c : TreeContext} {n new : Node} {s : Stamp} {path rest : List Nat} {i : Nat}

theorem children_fill_restamp (head : NodeHead) (before after : List Element) (c : TreeContext)
    (s : Stamp) (n new : Node) :
    (((child head before c after).restamp s).fill new).children =
      ((child head before c after).fill n).children.set before.length
        (.node ((c.restamp s).fill new)) := by
  rw [restamp, fill_child, fill_child]
  exact append_cons_eq_set before after _ _

@[simp] theorem place_restamp (c : TreeContext) (s : Stamp) : (c.restamp s).place = c.place := by
  induction c with
  | hole => rfl
  | child head before inner after ih => rw [restamp, place, ih, place]

@[simp] theorem idsBefore_restamp (c : TreeContext) (s : Stamp) :
    (c.restamp s).idsBefore = c.idsBefore := by
  induction c with
  | hole => rfl
  | child head before inner after ih => rw [restamp, idsBefore, ih, idsBefore]

@[simp] theorem idsAfter_restamp (c : TreeContext) (s : Stamp) :
    (c.restamp s).idsAfter = c.idsAfter := by
  induction c with
  | hole => rfl
  | child head before inner after ih => rw [restamp, idsAfter, ih, idsAfter]

theorem at?_fill_restamp_above (h : c.place = path ++ i :: rest) (s : Stamp) (n new : Node) :
    ∃ head children child, (c.fill n).at? path = some (.node ⟨head, children⟩) ∧
      ((c.restamp s).fill new).at? path =
        some (.node ⟨{ head with stamp := s }, children.set i child⟩) := by
  induction c generalizing path with
  | hole => exact absurd h.symm (List.append_ne_nil_of_right_ne_nil _ (List.cons_ne_nil _ _))
  | child head before inner after ih =>
    have hchildren := children_fill_restamp head before after inner s n new
    rw [place] at h
    cases path with
    | nil =>
      obtain ⟨rfl, -⟩ := List.cons.inj h
      exact ⟨head, _, _, rfl,
        congrArg (fun es ↦ some (Element.node ⟨{ head with stamp := s }, es⟩)) hchildren⟩
    | cons j path =>
      obtain ⟨rfl, hinner⟩ := List.cons.inj h
      have hfill := getElem?_children_fill head before after inner n
      have hfill' := getElem?_children_fill { head with stamp := s } before after
        (inner.restamp s) new
      obtain ⟨head', children, x, hold, hnew⟩ := ih hinner
      exact ⟨head', children, x, Element.at?_cons_eq_some_iff.2 ⟨_, hfill, hold⟩,
        Element.at?_cons_eq_some_iff.2 ⟨_, hfill', hnew⟩⟩

theorem at?_fill_restamp_beside (h : ¬c.place <+: path) (h' : ¬path <+: c.place) (s : Stamp)
    (n new : Node) : ((c.restamp s).fill new).at? path = (c.fill n).at? path := by
  induction c generalizing path with
  | hole => exact absurd List.nil_prefix h
  | child head before inner after ih =>
    cases path with
    | nil => exact absurd List.nil_prefix h'
    | cons j path =>
      rw [place, List.cons_prefix_cons] at h h'
      rw [Node.at?, Node.at?, Element.at?_cons, Element.at?_cons, Element.children_node,
        Element.children_node, children_fill_restamp head before after inner s n new]
      by_cases hj : before.length = j
      · -- the way to the place is left further below
        subst hj
        have hfill := getElem?_children_fill head before after inner n
        rw [List.getElem?_set_self (List.getElem?_eq_some_iff.1 hfill).1, hfill]
        exact ih (fun hp ↦ h ⟨rfl, hp⟩) fun hp ↦ h' ⟨rfl, hp⟩
      · rw [List.getElem?_set_ne hj]

/-- **Splicing.** A node with an id of its own is cut out of the tree and the new one put in. -/
theorem spliced_fill (h : n.id ∉ c.idsBefore) (s : Stamp) (new : Node) :
    Node.Spliced s c.place n new (c.fill n) ((c.restamp s).fill new) where
  at_old := at?_eq_some_node_iff.2 ⟨c, rfl, rfl⟩
  at_new rest := by
    rw [← place_restamp c s]
    exact at?_fill (c.restamp s) new rest
  above path i rest hplace := at?_fill_restamp_above hplace s n new
  beside path hbelow habove := at?_fill_restamp_beside hbelow habove s n new
  text := by
    refine ⟨Token.textAll c.tokensBefore, Token.textAll c.tokensAfter, c.text_fill n, ?_, ?_⟩
    · rw [text_fill, tokensBefore_restamp, tokensAfter_restamp]
    · exact textRange?_fill h
  ids := by
    refine ⟨c.idsBefore, c.idsAfter, ids_fill c n, ?_⟩
    rw [ids_fill, idsBefore_restamp, idsAfter_restamp]

end TreeContext

/-! ## Replacement by id -/

namespace Node

theorem replace?_eq_none_iff {n new : Node} {s : Stamp} {id : NodeId} :
    Node.replace? s id new n = none ↔ id ∉ n.ids :=
  ⟨fun hnone hid ↦ replace?_ne_none hid hnone, replace?_eq_none⟩

/-- **Replacement splices one subtree.** It fails only for an id that no node of the tree has. -/
theorem replace_splices {n : Node} (hn : n.ids.Nodup) (s : Stamp) (id : NodeId) (new : Node) :
    (Node.replace? s id new n = none ↔ ∀ m ∈ n.preorder, m.id ≠ id) ∧
      ∀ n', Node.replace? s id new n = some n' →
        n'.fullLength = n'.text.utf8ByteSize ∧
          ∃ place old, old.id = id ∧ Spliced s place old new n n' := by
  refine ⟨?_, fun n' hn' ↦ ⟨fullLength_eq n', ?_⟩⟩
  · rw [replace?_eq_none_iff, ids, List.mem_map, not_exists]
    simp only [not_and, ne_eq]
  · have hid : id ∈ n.ids := by
      by_contra hid
      rw [replace?_eq_none hid] at hn'
      cases hn'
    obtain ⟨old, hold, rfl⟩ := List.mem_map.1 hid
    obtain ⟨c, rfl⟩ := TreeContext.exists_fill_of_mem hold
    have hfirst := TreeContext.id_not_mem_idsBefore hn
    obtain rfl := Option.some.inj ((TreeContext.replace?_fill hfirst).symm.trans hn')
    exact ⟨c.place, old, rfl, TreeContext.spliced_fill hfirst s new⟩

/-- A node around one name. -/
def named (id : Nat) (leading name : String) : Node :=
  ⟨⟨⟨id⟩, ⟨id, []⟩, Kind.variableDeclarator, false⟩, [.token ⟨Kind.identifier, leading, name⟩]⟩

/-- Two names side by side, and the end of the file. -/
def siblings : Node :=
  ⟨⟨⟨0⟩, ⟨0, []⟩, Kind.compilationUnit, false⟩,
    [.node (named 1 "" "a"), .node (named 2 " " "b"), .token ⟨Kind.endOfFile, "\n", ""⟩]⟩

theorem replace_splices_siblings :
    siblings.ids.Nodup ∧ ∃ n', Node.replace? ⟨4, []⟩ ⟨2⟩ (named 3 "\t" "cd") siblings = some n' ∧
      n'.text = "a\tcd\n" ∧
      ∃ place old, old.id = ⟨2⟩ ∧ Spliced ⟨4, []⟩ place old (named 3 "\t" "cd") siblings n' := by
  have hn : siblings.ids.Nodup := by decide
  exact ⟨hn, _, rfl, by decide, ((replace_splices hn ⟨4, []⟩ ⟨2⟩ _).2 _ rfl).2⟩

end Node

end CodeFix
