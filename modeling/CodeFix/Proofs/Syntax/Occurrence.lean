import CodeFix.Proofs.Syntax.Splice
import CodeFix.Text.Offset

/-!
# The first occurrence of an id and its range

Ids may repeat, and one node value may stand in several places, so which occurrence a look-up means
is said by its place. Places are compared like words in a dictionary: a place comes before the
places below it, and those below a child before those below its later siblings. In this order a
traversal yields the nodes of a tree, each place once (`map_at?_places`).

The occurrence that comes first fills a context in front of whose hole the id does not occur
(`exists_first_fill`). Every look-up finds the node in such a hole, whether it takes nodes off a
stack or follows the tree and stops at the first success, so all of them mean the same occurrence
(`lookups_agree`).

A range is added up from the lengths of the elements that are passed on the way to a node, while the
text of a tree is read off its tokens. The two agree because a node in a context stands between the
text in front of the hole and the text behind it (`delimits_fill`): its full text begins where the
text in front ends, and its own leading trivia, wherever below it their token stands, are the first
part of it.

Nothing is asked of the tree. Whatever operations built it, the length of each of its nodes is that
of the node's text (`Node.fullLength_eq`), since every node gets its length from its children when
it is built.
-/

namespace CodeFix

/-! ## The places of nodes -/

mutual

/-- The places of all nodes of the tree, in pre-order. -/
def Node.places : Node → List (List Nat)
  | ⟨_, children⟩ => [] :: Element.placesFrom 0 children
termination_by structural n => n

/-- The places of all nodes of the element. -/
def Element.places : Element → List (List Nat)
  | .node n => n.places
  | .token _ => []
termination_by structural e => e

/-- The places of all nodes of the elements, which are numbered from `index` on. -/
def Element.placesFrom : Nat → List Element → List (List Nat)
  | _, [] => []
  | index, e :: es => e.places.map (index :: ·) ++ Element.placesFrom (index + 1) es
termination_by structural _ es => es

end

theorem Element.mem_placesFrom_iff {index : Nat} {es : List Element} {place : List Nat} :
    place ∈ Element.placesFrom index es ↔
      ∃ i e rest, place = (index + i) :: rest ∧ es[i]? = some e ∧ rest ∈ e.places := by
  induction es generalizing index with
  | nil => simp [Element.placesFrom]
  | cons e es ih =>
    rw [Element.placesFrom, List.mem_append, List.mem_map, ih]
    constructor
    · rintro (⟨rest, hrest, rfl⟩ | ⟨i, x, rest, rfl, hx, hrest⟩)
      · exact ⟨0, e, rest, rfl, rfl, hrest⟩
      · exact ⟨i + 1, x, rest, by rw [Nat.add_right_comm, Nat.add_assoc], hx, hrest⟩
    · rintro ⟨i, x, rest, rfl, hx, hrest⟩
      cases i with
      | zero =>
        obtain rfl := Option.some.inj hx
        exact .inl ⟨rest, hrest, rfl⟩
      | succ i => exact .inr ⟨i, x, rest, by rw [Nat.add_right_comm, Nat.add_assoc], hx, hrest⟩

namespace Node

variable {n m : Node} {place : List Nat}

theorem mem_places_iff : place ∈ n.places ↔ ∃ m, n.at? place = some (.node m) := by
  induction n using Node.induction generalizing place with
  | step head children ih =>
    rw [places, List.mem_cons, Element.mem_placesFrom_iff]
    cases place with
    | nil => exact iff_of_true (.inl rfl) ⟨_, rfl⟩
    | cons i rest =>
      rw [at?, Element.at?_cons, Element.children_node]
      constructor
      · rintro (h | ⟨j, e, rest, hplace, he, hrest⟩)
        · cases h
        · obtain ⟨rfl, rfl⟩ := List.cons.inj hplace
          rw [Nat.zero_add, he, Option.bind_some]
          cases e with
          | node k => exact (ih k (List.mem_of_getElem? he)).1 hrest
          | token t => cases hrest
      · rintro ⟨m, hm⟩
        obtain ⟨e, he, hm⟩ := Option.bind_eq_some_iff.1 hm
        refine .inr ⟨i, e, rest, by rw [Nat.zero_add], he, ?_⟩
        cases e with
        | node k => exact (ih k (List.mem_of_getElem? he)).2 ⟨m, hm⟩
        | token t => cases rest <;> cases hm

/-- The places stand in the order of a dictionary, so none of them is listed twice. -/
theorem pairwise_places (n : Node) : n.places.Pairwise (· < ·) := by
  induction n using Node.induction with
  | step head children ih =>
    have hchildren : ∀ index, (Element.placesFrom index children).Pairwise (· < ·) := by
      induction children with
      | nil => exact fun _ ↦ .nil
      | cons e es ihes =>
        intro index
        rw [Element.placesFrom, List.pairwise_append, List.pairwise_map]
        refine ⟨?_, ihes (fun k hk ↦ ih k (List.mem_cons_of_mem e hk)) _, ?_⟩
        · cases e with
          | node k =>
            exact (ih k List.mem_cons_self).imp fun h ↦ List.cons_lt_cons_iff.2 (.inr ⟨rfl, h⟩)
          | token t => exact .nil
        · intro p hp q hq
          obtain ⟨rest, -, rfl⟩ := List.mem_map.1 hp
          obtain ⟨i, x, rest', rfl, -, -⟩ := Element.mem_placesFrom_iff.1 hq
          exact List.cons_lt_cons_iff.2 (.inl (by omega))
    rw [places, List.pairwise_cons]
    refine ⟨fun p hp ↦ ?_, hchildren 0⟩
    obtain ⟨i, x, rest, rfl, -, -⟩ := Element.mem_placesFrom_iff.1 hp
    exact List.nil_lt_cons _ _

theorem map_at?_places (n : Node) :
    n.places.map n.at? = n.preorder.map fun m ↦ some (.node m) := by
  induction n using Node.induction with
  | step head children ih =>
    -- below the root a place begins with the number of a child among all the children
    have hchildren : ∀ before es, children = before ++ es →
        (Element.placesFrom before.length es).map (mk head children).at? =
          (Element.preorderAll es).map fun m ↦ some (.node m) := by
      intro before es hsplit
      induction es generalizing before with
      | nil => rfl
      | cons e es ihes =>
        have hrest := ihes (before ++ [e]) (by rw [hsplit, List.append_cons])
        rw [List.length_append, List.length_singleton] at hrest
        have hchild : children[before.length]? = some e := by
          rw [hsplit]
          exact getElem?_append_cons before es e
        have hbelow : (e.places.map (before.length :: ·)).map (mk head children).at? =
            e.places.map e.at? := by
          rw [List.map_map]
          refine List.map_congr_left fun rest _ ↦ ?_
          rw [Function.comp_apply, at?, Element.at?_cons, Element.children_node, hchild,
            Option.bind_some]
        rw [Element.placesFrom, List.map_append, hrest, hbelow, Element.preorderAll,
          List.map_append]
        congr 1
        cases e with
        | node k => exact ih k (List.mem_of_getElem? hchild)
        | token t => rfl
    rw [places, List.map_cons, preorder, List.map_cons]
    exact congrArg _ (hchildren [] children rfl)

end Node

/-! ## The context of the first occurrence -/

theorem Element.mem_preorder_of_at? {e : Element} {m : Node} {place : List Nat}
    (h : e.at? place = some (.node m)) : m ∈ e.preorder := by
  cases e with
  | node k =>
    obtain ⟨c, rfl, -⟩ := TreeContext.at?_eq_some_node_iff.1 h
    exact TreeContext.mem_preorder_fill c m
  | token t => cases place <;> cases h

namespace TreeContext

variable {c : TreeContext} {n m : Node} {id : NodeId} {place : List Nat}

theorem exists_first_fill (h : id ∈ n.ids) :
    ∃ (c : TreeContext) (m : Node), n = c.fill m ∧ m.id = id ∧ id ∉ c.idsBefore := by
  induction n using Node.induction with
  | step head children ih =>
    by_cases hid : head.id = id
    · exact ⟨hole, _, rfl, hid, List.not_mem_nil⟩
    · rw [Node.ids_eq, List.mem_cons, List.mem_flatMap] at h
      obtain ⟨e, he, hmem⟩ := h.resolve_left fun hhead ↦ hid hhead.symm
      -- the first child that holds the id
      have hsome : (children.find? fun e ↦ decide (id ∈ e.preorder.map Node.id)).isSome :=
        List.find?_isSome.2 ⟨e, he, decide_eq_true hmem⟩
      obtain ⟨x, hfind⟩ := Option.isSome_iff_exists.1 hsome
      obtain ⟨hx, before, after, rfl, hbefore⟩ := List.find?_eq_some_iff_append.1 hfind
      cases x with
      | token t => cases of_decide_eq_true hx
      | node k =>
        obtain ⟨inner, m, rfl, rfl, hinner⟩ :=
          ih k List.mem_append_cons_self (of_decide_eq_true hx)
        refine ⟨child head before inner after, m, rfl, rfl, ?_⟩
        rw [idsBefore, List.mem_append, List.mem_cons, List.mem_flatMap]
        rintro ((hhead | ⟨e, he, hmem⟩) | hmem)
        · exact hid hhead.symm
        · have hnot := hbefore e he
          rw [decide_eq_true hmem] at hnot
          cases hnot
        · exact hinner hmem

/-- What stands at an earlier place comes before the hole. -/
theorem id_mem_idsBefore_of_lt (hlt : place < c.place)
    (h : (c.fill n).at? place = some (.node m)) : m.id ∈ c.idsBefore := by
  induction c generalizing place with
  | hole => exact absurd hlt (List.not_lt_nil place)
  | child head before inner after ih =>
    rw [idsBefore, List.mem_append, List.mem_cons, List.mem_flatMap]
    cases place with
    | nil =>
      obtain rfl := Element.node.inj (Option.some.inj h)
      exact .inl (.inl rfl)
    | cons i rest =>
      rw [Node.at?, Element.at?_cons, Element.children_node, fill_child] at h
      obtain ⟨e, he, hm⟩ := Option.bind_eq_some_iff.1 h
      rcases List.cons_lt_cons_iff.1 hlt with hi | ⟨rfl, hrest⟩
      · rw [List.getElem?_append_left hi] at he
        exact .inl (.inr ⟨e, List.mem_of_getElem? he,
          List.mem_map_of_mem (Element.mem_preorder_of_at? hm)⟩)
      · rw [getElem?_append_cons] at he
        obtain rfl := Option.some.inj he
        exact .inr (ih hrest hm)

/-! ## Look-ups from a context -/

theorem find?_fill (h : n.id ∉ c.idsBefore) : (c.fill n).find? n.id = some n := by
  rw [Node.find?, Node.descendants_eq]
  induction c with
  | hole =>
    rw [fill_hole, Node.preorder_eq]
    exact List.find?_cons_of_pos (beq_self_eq_true n.id)
  | child head before inner after ih =>
    rw [idsBefore, List.mem_append, List.mem_cons, not_or, not_or] at h
    obtain ⟨⟨hhead, hbefore⟩, hinner⟩ := h
    have hnone : (before.flatMap Element.preorder).find? (fun d ↦ d.id == n.id) = none := by
      refine find?_key_eq_none_iff.2 fun d hd hid ↦ hbefore ?_
      obtain ⟨e, he, hde⟩ := List.mem_flatMap.1 hd
      exact List.mem_flatMap.2 ⟨e, he, hid ▸ List.mem_map_of_mem hde⟩
    have hnode : (Element.node (inner.fill n)).preorder = (inner.fill n).preorder := rfl
    rw [fill_child, Node.preorder_eq, List.find?_cons_of_neg (by simpa using Ne.symm hhead),
      List.flatMap_append, List.find?_append, hnone, Option.none_or, List.flatMap_cons,
      List.find?_append, hnode, ih hinner, Option.some_or]

theorem exists_pathTo?_fill (h : n.id ∉ c.idsBefore) : ∃ path,
    (c.fill n).pathTo? n.id = some path ∧
      path.map (fun m ↦ some (.node m)) = c.place.inits.map (c.fill n).at? := by
  induction c with
  | hole =>
    obtain ⟨head, children⟩ := n
    refine ⟨[⟨head, children⟩], ?_, rfl⟩
    rw [fill_hole, Node.pathTo?]
    exact if_pos rfl
  | child head before inner after ih =>
    rw [idsBefore, List.mem_append, List.mem_cons, not_or, not_or] at h
    obtain ⟨⟨hhead, hbefore⟩, hinner⟩ := h
    obtain ⟨path, hpath, hplaces⟩ := ih hinner
    have hnone : before.findSome? (Element.pathTo? n.id) = none := by
      refine List.findSome?_eq_none_iff.2 fun e he ↦ ?_
      cases e with
      | node k =>
        exact Node.pathTo?_eq_none fun hk ↦ hbefore (List.mem_flatMap.2 ⟨.node k, he, hk⟩)
      | token t => rfl
    have hchild : Element.pathTo? n.id (.node (inner.fill n)) = some path := hpath
    refine ⟨(child head before inner after).fill n :: path, ?_, ?_⟩
    · rw [fill_child, Node.pathTo?, if_neg fun hid ↦ hhead hid.symm,
        Element.pathToAll?_eq_findSome?, List.findSome?_append, hnone, Option.none_or,
        List.findSome?_cons, hchild, Option.map_some]
    · have hbelow : ∀ rest, ((child head before inner after).fill n).at? (before.length :: rest) =
          (inner.fill n).at? rest := fun rest ↦ by
        rw [Node.at?, Element.at?_cons, Element.children_node, getElem?_children_fill,
          Option.bind_some, Node.at?]
      rw [List.map_cons, hplaces, place, List.inits_cons, List.map_cons, List.map_map]
      congr 1
      exact List.map_congr_left fun rest _ ↦ (hbelow rest).symm

end TreeContext

/-! ## All look-ups -/

namespace Node

/-- The node stands at the place, has the id, and no node at an earlier place has it. -/
structure FirstAt (root : Node) (id : NodeId) (place : List Nat) (n : Node) : Prop where
  at_place : root.at? place = some (.node n)
  id_eq : n.id = id
  first : ∀ earlier < place, ∀ m, root.at? earlier = some (.node m) → m.id ≠ id

theorem firstAt_fill {c : TreeContext} {n : Node} (h : n.id ∉ c.idsBefore) :
    (c.fill n).FirstAt n.id c.place n where
  at_place := TreeContext.at?_eq_some_node_iff.2 ⟨c, rfl, rfl⟩
  id_eq := rfl
  first _ hlt _ hm hid := h (hid ▸ TreeContext.id_mem_idsBefore_of_lt hlt hm)

theorem not_mem_ids_iff {n : Node} {id : NodeId} :
    id ∉ n.ids ↔ ∀ place m, n.at? place = some (.node m) → m.id ≠ id := by
  constructor
  · rintro h place m hm rfl
    obtain ⟨c, rfl, -⟩ := TreeContext.at?_eq_some_node_iff.1 hm
    exact h (mem_ids_of_mem (TreeContext.mem_preorder_fill c m))
  · intro h hid
    obtain ⟨c, m, rfl, hm, -⟩ := TreeContext.exists_first_fill hid
    exact h c.place m (TreeContext.at?_eq_some_node_iff.2 ⟨c, rfl, rfl⟩) hm

/-- **Look-ups.** A traversal yields what stands at the places of nodes, each place once, and the
places come in the order of a dictionary. For an id that stands at none of them all look-ups fail.
Otherwise all of them mean the first place: the node there is found, the path goes through the
places above it, the range is that of its text, and a replacement exchanges what stands there. -/
theorem lookups_agree (root : Node) :
    (root.places.Pairwise (· < ·) ∧
        (∀ place, place ∈ root.places ↔ ∃ m, root.at? place = some (.node m)) ∧
        root.descendants.map (fun m ↦ some (.node m)) = root.places.map root.at?) ∧
      ∀ id,
        ((∀ place m, root.at? place = some (.node m) → m.id ≠ id) ∧
          root.find? id = none ∧ root.contains id = false ∧ root.pathTo? id = none ∧
          root.textRange? id = none ∧ ∀ s new, Node.replace? s id new root = none) ∨
        ∃ place n, root.FirstAt id place n ∧
          root.find? id = some n ∧ root.contains id = true ∧
          (∃ path, root.pathTo? id = some path ∧
            path.map (fun m ↦ some (.node m)) = place.inits.map root.at?) ∧
          root.textRange? id =
            some ((Token.textAll (root.tokensTo place)).utf8ByteSize +
                n.leadingTrivia.utf8ByteSize,
              (Token.textAll (root.tokensTo place)).utf8ByteSize + n.text.utf8ByteSize) ∧
          ∀ s new, ∃ root', Node.replace? s id new root = some root' ∧
            Spliced s place n new root root' := by
  refine ⟨⟨root.pairwise_places, fun _ ↦ mem_places_iff, ?_⟩, fun id ↦ ?_⟩
  · rw [descendants_eq, map_at?_places]
  · by_cases hid : id ∈ root.ids
    · obtain ⟨c, n, rfl, rfl, hfirst⟩ := TreeContext.exists_first_fill hid
      refine .inr ⟨c.place, n, firstAt_fill hfirst, TreeContext.find?_fill hfirst,
        contains_iff.2 hid, TreeContext.exists_pathTo?_fill hfirst, ?_, fun s new ↦
          ⟨_, TreeContext.replace?_fill hfirst, TreeContext.spliced_fill hfirst s new⟩⟩
      rw [textRange?, TreeContext.rangeFrom?_fill hfirst, TreeContext.tokensTo_fill, Nat.zero_add]
    · have hcontains : root.contains id = false := Bool.eq_false_iff.2 (mt contains_iff.1 hid)
      have hfind : root.find? id = none := by
        rw [contains, Option.isSome_eq_false_iff, Option.isNone_iff_eq_none] at hcontains
        exact hcontains
      exact .inl ⟨not_mem_ids_iff.1 hid, hfind, hcontains, pathTo?_eq_none hid,
        rangeFrom?_eq_none hid 0, fun s new ↦ replace?_eq_none hid⟩

-- two siblings have one id: the first of them is found and replaced
example :
    let name (id : Nat) (leading text : String) : Node :=
      ⟨⟨⟨id⟩, ⟨id, []⟩, Kind.variableDeclarator, false⟩, [.token ⟨Kind.identifier, leading, text⟩]⟩
    let root : Node := ⟨⟨⟨0⟩, ⟨0, []⟩, Kind.compilationUnit, false⟩,
      [.node (name 1 "" "a"), .node (name 1 " " "b")]⟩
    root.find? ⟨1⟩ = some (name 1 "" "a") ∧ root.textRange? ⟨1⟩ = some (0, 1) ∧
      (Node.replace? ⟨4, []⟩ ⟨1⟩ (name 3 "" "cd") root).map Node.text = some "cd b" := by
  decide

end Node

end CodeFix

/-! ## What a range delimits -/

namespace CodeFix.Node

/-- Between the two offsets the text of the tree holds the text of a node, without its leading
trivia; these stand right in front of the first offset. -/
structure Delimits (root n : Node) (start stop : Nat) : Prop where
  le : start ≤ stop
  le_fullLength : stop ≤ root.fullLength
  start_boundary : Text.IsBoundary root.text start
  stop_boundary : Text.IsBoundary root.text stop
  slice_trimmed : Text.slice root.text start stop = n.trimmedText
  leading_le : n.leadingTrivia.utf8ByteSize ≤ start
  full_boundary : Text.IsBoundary root.text (start - n.leadingTrivia.utf8ByteSize)
  slice_full : Text.slice root.text (start - n.leadingTrivia.utf8ByteSize) stop = n.text

/-- **A node in a context** is delimited by the text in front of the hole. -/
theorem delimits_fill (c : TreeContext) (n : Node) :
    (c.fill n).Delimits n
      ((Token.textAll c.tokensBefore).utf8ByteSize + n.leadingTrivia.utf8ByteSize)
      ((Token.textAll c.tokensBefore).utf8ByteSize + n.text.utf8ByteSize) := by
  set before := Token.textAll c.tokensBefore
  set behind := Token.textAll c.tokensAfter
  have hfull : (c.fill n).text = before ++ n.text ++ behind := c.text_fill n
  have htrimmed :
      (c.fill n).text = before ++ n.leadingTrivia ++ n.trimmedText ++ behind := by
    rw [hfull, text_eq n]
    simp only [String.append_assoc]
  have hlength :
      n.text.utf8ByteSize = n.leadingTrivia.utf8ByteSize + n.trimmedText.utf8ByteSize := by
    rw [text_eq n, String.utf8ByteSize_append]
  have hstart : before.utf8ByteSize + n.leadingTrivia.utf8ByteSize - n.leadingTrivia.utf8ByteSize =
      before.utf8ByteSize := Nat.add_sub_cancel _ _
  have hstop : before.utf8ByteSize + n.text.utf8ByteSize =
      (before ++ n.leadingTrivia).utf8ByteSize + n.trimmedText.utf8ByteSize := by
    rw [hlength, String.utf8ByteSize_append, Nat.add_assoc]
  refine ⟨by omega, ?_, ?_, ?_, ?_, Nat.le_add_left _ _, ?_, ?_⟩
  · rw [fullLength_eq, hfull, String.utf8ByteSize_append, String.utf8ByteSize_append]
    exact Nat.le_add_right _ _
  · rw [htrimmed, String.append_assoc, ← String.utf8ByteSize_append]
    exact Text.isBoundary_append _ _
  · rw [hfull, ← String.utf8ByteSize_append]
    exact Text.isBoundary_append _ _
  · rw [htrimmed, hstop, ← String.utf8ByteSize_append]
    exact Text.slice_append_append _ _ _
  · rw [hstart, hfull, String.append_assoc]
    exact Text.isBoundary_append _ _
  · rw [hstart, hfull]
    exact Text.slice_append_append _ _ _

/-- **Ranges delimit texts.** In every tree the length of each node is that of its text, and for
every id that occurs the range cuts the text of the node that is found out of the text of the
tree. -/
theorem textRange_delimits (root : Node) :
    (∀ m ∈ root.preorder, m.fullLength = m.text.utf8ByteSize) ∧
      ∀ id, root.contains id = true → ∃ n start stop, root.find? id = some n ∧
        root.textRange? id = some (start, stop) ∧ root.Delimits n start stop := by
  refine ⟨fun m _ ↦ fullLength_eq m, fun id hid ↦ ?_⟩
  obtain ⟨c, n, rfl, rfl, hfirst⟩ := TreeContext.exists_first_fill (contains_iff.1 hid)
  have hrange := TreeContext.rangeFrom?_fill hfirst 0
  rw [Nat.zero_add] at hrange
  exact ⟨n, _, _, TreeContext.find?_fill hfirst, hrange, delimits_fill c n⟩

end CodeFix.Node
