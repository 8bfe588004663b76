import CodeFix.Proofs.Syntax.Text

/-!
# Places in a tree

A place is a list of child numbers that leads down from the root. In one tree it names one element,
and in two trees it says that an element of the one stands where an element of the other does, which
neither ids nor tree values can say: ids may repeat and equal subtrees may occur twice. The contexts
of `TreeContext` are places together with everything around them (`at?_eq_some_node_iff`).

The tokens that are passed on the way to a place are those in front of its element, so they say
where the element begins in the text.
-/

namespace CodeFix

namespace Element

/-- The children of a node; a token has none. -/
def children : Element → List Element
  | .node n => n.children
  | .token _ => []

/-- The element at a place. -/
def at? (e : Element) : List Nat → Option Element
  | [] => some e
  | i :: place => e.children[i]?.bind fun child ↦ child.at? place

/-- The tokens in front of a place. -/
def tokensTo (e : Element) : List Nat → List Token
  | [] => []
  | i :: place =>
    tokensAll (e.children.take i) ++ ((e.children[i]?.map fun child ↦ child.tokensTo place).getD [])

@[simp] theorem children_node (n : Node) : (Element.node n).children = n.children := rfl

@[simp] theorem at?_nil (e : Element) : e.at? [] = some e := rfl

theorem at?_cons (e : Element) (i : Nat) (place : List Nat) :
    e.at? (i :: place) = e.children[i]?.bind fun child ↦ child.at? place := rfl

variable {e x child : Element} {i : Nat} {place place' : List Nat}

theorem at?_cons_eq_some_iff :
    e.at? (i :: place) = some x ↔ ∃ child, e.children[i]? = some child ∧ child.at? place = some x :=
  Option.bind_eq_some_iff

@[simp] theorem tokensTo_nil (e : Element) : e.tokensTo [] = [] := rfl

theorem tokensTo_cons (h : e.children[i]? = some child) (place : List Nat) :
    e.tokensTo (i :: place) = tokensAll (e.children.take i) ++ child.tokensTo place := by
  rw [tokensTo, h, Option.map_some, Option.getD_some]

theorem exists_tokens_eq (h : e.at? place = some x) :
    ∃ rest, e.tokens = e.tokensTo place ++ x.tokens ++ rest := by
  induction place generalizing e with
  | nil =>
    obtain rfl := Option.some.inj h
    exact ⟨[], by rw [tokensTo_nil, List.nil_append, List.append_nil]⟩
  | cons i place ih =>
    obtain ⟨child, hchild, hx⟩ := at?_cons_eq_some_iff.1 h
    obtain ⟨rest, hrest⟩ := ih hx
    cases e with
    | token t => cases hchild
    | node n =>
      obtain ⟨head, children⟩ := n
      obtain ⟨hlt, hget⟩ : ∃ hlt : i < children.length, children[i] = child :=
        List.getElem?_eq_some_iff.1 hchild
      have hsplit : children.take i ++ child :: children.drop (i + 1) = children := by
        rw [← hget, List.getElem_cons_drop, List.take_append_drop]
      refine ⟨rest ++ tokensAll (children.drop (i + 1)), ?_⟩
      calc tokensAll children
          = tokensAll (children.take i) ++
              ((child.tokensTo place ++ x.tokens ++ rest) ++
                tokensAll (children.drop (i + 1))) := by
            rw [← hrest, ← tokensAll_cons, ← tokensAll_append, hsplit]
        _ = _ := by
            rw [tokensTo_cons hchild, children_node]
            simp only [List.append_assoc]

theorem tokens_ne_nil_of_at? (h : e.at? place = some x) (hx : x.tokens ≠ []) : e.tokens ≠ [] := by
  obtain ⟨rest, hrest⟩ := exists_tokens_eq h
  rw [hrest]
  exact List.append_ne_nil_of_left_ne_nil (List.append_ne_nil_of_right_ne_nil _ hx) rest

theorem leadingTrivia_eq_of_tokensTo_eq_nil (h : e.at? place = some x)
    (hfront : e.tokensTo place = []) (hx : x.tokens ≠ []) : x.leadingTrivia = e.leadingTrivia := by
  obtain ⟨rest, hrest⟩ := exists_tokens_eq h
  rw [hfront, List.nil_append] at hrest
  rw [leadingTrivia_eq, leadingTrivia_eq, hrest, Token.leadingAll_append_of_ne_nil hx]

end Element

namespace Node

/-- The element at a place of the tree. -/
def at? (n : Node) (place : List Nat) : Option Element := (Element.node n).at? place

/-- The tokens of the tree in front of a place. -/
def tokensTo (n : Node) (place : List Nat) : List Token := (Element.node n).tokensTo place

end Node

/-! ## Other trivia -/

namespace Element

variable {e x : Element} {place : List Nat}

theorem withLeadingTriviaAll_cases (s : Stamp) (trivia : String) (es : List Element) :
    tokensAll es = [] ∨ ∃ before e after, es = before ++ e :: after ∧ tokensAll before = [] ∧
      withLeadingTriviaAll s es trivia = before ++ e.withLeadingTrivia s trivia :: after := by
  induction es with
  | nil => exact Or.inl rfl
  | cons e es ih =>
    rw [withLeadingTriviaAll, tokensAll_cons]
    by_cases h : e.firstToken?.isSome = true
    · exact Or.inr ⟨[], e, es, rfl, rfl, by rw [if_pos h]; rfl⟩
    · have hnil : e.tokens = [] := by rwa [isSome_firstToken?_iff, not_not] at h
      rw [if_neg h, hnil]
      rcases ih with hes | ⟨before, x, after, rfl, hbefore, hall⟩
      · exact Or.inl hes
      · refine Or.inr ⟨e :: before, x, after, rfl, ?_, by rw [hall]; rfl⟩
        rw [tokensAll_cons, hnil, hbefore, List.append_nil]

theorem children_withLeadingTrivia_cases (n : Node) (s : Stamp) (trivia : String) :
    (node n).withLeadingTrivia s trivia = node n ∨
      ∃ i y, n.children[i]? = some y ∧ tokensAll (n.children.take i) = [] ∧
        ((node n).withLeadingTrivia s trivia).children =
          n.children.set i (y.withLeadingTrivia s trivia) := by
  by_cases hn : n.tokens = []
  · exact Or.inl (withLeadingTrivia_of_tokens_eq_nil (e := node n) hn s trivia)
  · obtain ⟨head, children⟩ := n
    rcases withLeadingTriviaAll_cases s trivia children with
      hnil | ⟨before, y, after, rfl, hbefore, hall⟩
    · exact absurd hnil hn
    · refine Or.inr ⟨before.length, y, ?_, ?_, ?_⟩
      · exact getElem?_append_cons before after y
      · exact (congrArg tokensAll List.take_left).trans hbefore
      · rw [withLeadingTrivia, Node.withLeadingTrivia, if_pos (isSome_firstTokenAll?_iff.2 hn),
          children_node, hall]
        exact append_cons_eq_set before after y _

/-- **Other trivia at a place.** An element changes only if it begins where the tree begins. -/
theorem at?_withLeadingTrivia (h : x.at? place = some e) (s : Stamp) (trivia : String) :
    ∃ e', (x.withLeadingTrivia s trivia).at? place = some e' ∧ (e' = e ∨
      x.tokensTo place = [] ∧ e.tokens ≠ [] ∧ e' = e.withLeadingTrivia s trivia) := by
  induction place generalizing x with
  | nil =>
    obtain rfl := Option.some.inj h
    refine ⟨_, rfl, ?_⟩
    by_cases hx : x.tokens = []
    · exact Or.inl (withLeadingTrivia_of_tokens_eq_nil hx s trivia)
    · exact Or.inr ⟨rfl, hx, rfl⟩
  | cons i place ih =>
    obtain ⟨child, hchild, he⟩ := at?_cons_eq_some_iff.1 h
    cases x with
    | token t => cases hchild
    | node n =>
      rcases children_withLeadingTrivia_cases n s trivia with hsame | ⟨j, y, hy, hfront, hset⟩
      · rw [hsame]
        exact ⟨e, h, Or.inl rfl⟩
      · rw [at?_cons, hset]
        by_cases hj : j = i
        · subst hj
          obtain rfl := Option.some.inj (hy.symm.trans hchild)
          rw [List.getElem?_set_self (List.getElem?_eq_some_iff.1 hy).1, Option.bind_some]
          obtain ⟨e', he', hcases⟩ := ih he
          refine ⟨e', he', hcases.imp_right ?_⟩
          rintro ⟨htokens, hne, rfl⟩
          refine ⟨?_, hne, rfl⟩
          rw [tokensTo_cons hchild, children_node, hfront, htokens, List.append_nil]
        · rw [children_node] at hchild
          rw [List.getElem?_set_ne hj, hchild]
          exact ⟨e, he, Or.inl rfl⟩

end Element

/-! ## The place of a hole -/

namespace TreeContext

/-- The numbers of the children that lead to the hole. -/
def place : TreeContext → List Nat
  | hole => []
  | child _ before inner _ => before.length :: inner.place

variable {c : TreeContext} {m n new : Node} {s : Stamp} {path rest : List Nat}

theorem getElem?_children_fill (head : NodeHead) (before after : List Element) (c : TreeContext)
    (n : Node) :
    ((child head before c after).fill n).children[before.length]? = some (.node (c.fill n)) := by
  rw [fill_child]
  exact getElem?_append_cons before after _

theorem at?_fill (c : TreeContext) (n : Node) (rest : List Nat) :
    (c.fill n).at? (c.place ++ rest) = n.at? rest := by
  induction c with
  | hole => rfl
  | child head before inner after ih =>
    rw [Node.at?, place, List.cons_append, Element.at?_cons, Element.children_node,
      getElem?_children_fill, Option.bind_some]
    exact ih

theorem tokensTo_fill (c : TreeContext) (n : Node) :
    (c.fill n).tokensTo c.place = c.tokensBefore := by
  induction c with
  | hole => rfl
  | child head before inner after ih =>
    rw [Node.tokensTo, place,
      Element.tokensTo_cons (getElem?_children_fill head before after inner n),
      Element.children_node, fill_child, List.take_left]
    exact congrArg (Element.tokensAll before ++ ·) ih

theorem exists_fill_of_at? (h : n.at? path = some (.node m)) :
    ∃ c : TreeContext, n = c.fill m ∧ c.place = path := by
  induction path generalizing n with
  | nil =>
    obtain rfl := Element.node.inj (Option.some.inj h)
    exact ⟨hole, rfl, rfl⟩
  | cons i path ih =>
    obtain ⟨e, he, hm⟩ := Element.at?_cons_eq_some_iff.1 h
    cases e with
    | token t =>
      cases path <;> cases hm
    | node k =>
      obtain ⟨inner, rfl, rfl⟩ := ih hm
      obtain ⟨head, children⟩ := n
      obtain ⟨hlt, hget⟩ : ∃ hlt : i < children.length, children[i] = .node (inner.fill m) :=
        List.getElem?_eq_some_iff.1 he
      refine ⟨child head (children.take i) inner (children.drop (i + 1)), ?_, ?_⟩
      · rw [fill_child, ← hget, List.getElem_cons_drop, List.take_append_drop]
      · rw [place, List.length_take, Nat.min_eq_left (Nat.le_of_lt hlt)]

/-- **Places and contexts.** A node is at a place if it fills a hole there. -/
theorem at?_eq_some_node_iff :
    n.at? path = some (.node m) ↔ ∃ c : TreeContext, n = c.fill m ∧ c.place = path := by
  refine ⟨exists_fill_of_at?, ?_⟩
  rintro ⟨c, rfl, rfl⟩
  rw [← List.append_nil c.place, at?_fill]
  rfl

/-- A hole below the place of another hole was left in what fills that one. -/
theorem exists_comp_of_place_isPrefix {c' : TreeContext} (hfill : c.fill n = c'.fill m)
    (hplace : c.place <+: c'.place) : ∃ d, c' = c.comp d ∧ n = d.fill m := by
  induction c generalizing c' with
  | hole => exact ⟨c', rfl, hfill⟩
  | child head before inner after ih =>
    cases c' with
    | hole => exact absurd (List.prefix_nil.1 hplace) (List.cons_ne_nil _ _)
    | child head' before' inner' after' =>
      obtain ⟨hlength, hinner⟩ := List.cons_prefix_cons.1 hplace
      rw [fill_child, fill_child] at hfill
      obtain ⟨rfl, hchildren⟩ := Node.mk.inj hfill
      obtain ⟨rfl, hrest⟩ := List.append_inj hchildren hlength
      obtain ⟨hnode, rfl⟩ := List.cons.inj hrest
      obtain ⟨d, rfl, hd⟩ := ih (Element.node.inj hnode) hinner
      exact ⟨d, rfl, hd⟩

end TreeContext

end CodeFix
