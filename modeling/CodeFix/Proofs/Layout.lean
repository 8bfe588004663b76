import CodeFix.Layout
import CodeFix.Proofs.Syntax.Text

/-!
# Layout as a function of tokens

Layout puts stamps on the nodes it rebuilds, and each place of the tree gets a stamp of its own.
None of this shows in the text. `Node.laidOut` is layout without stamps: it computes the tokens of
the laid out tree from the kinds and tokens of the children alone. Everything said about the text
after an edit is said about it, so two computations of one edit give the same text although they
give different trees.

Layout only ever changes trivia. No token is added or lost (`length_laidOut`), and outside of marked
nodes every token stays what it was (`laidOut_fill`).
-/

namespace CodeFix

/-! ## Children as pieces -/

/-- What layout looks at in an element: its kind and its tokens. -/
def Element.piece (e : Element) : String × List Token := (e.kind, e.tokens)

theorem Element.tokensAll_eq_pieces (es : List Element) :
    Element.tokensAll es = (es.map Element.piece).flatMap Prod.snd := by
  rw [Element.tokensAll_eq_flatMap, List.flatMap_map]
  rfl

/-- The tokens of some pieces, with the separator in front of each piece that follows an attribute
list and has no trivia of its own. The flag says whether the first piece follows one. -/
def spaced (separator : String) : Bool → List (String × List Token) → List Token
  | _, [] => []
  | follows, (kind, ts) :: rest =>
    (if follows && (Token.leadingAll ts).isEmpty then Token.releadAll separator ts else ts) ++
      spaced separator (kind == Kind.attributeList) rest

theorem length_spaced (separator : String) (follows : Bool) (ps : List (String × List Token)) :
    (spaced separator follows ps).length = (ps.flatMap Prod.snd).length := by
  induction ps generalizing follows with
  | nil => rfl
  | cons p ps ih =>
    rw [spaced, List.length_append, ih, List.flatMap_cons, List.length_append]
    split
    · rw [Token.length_releadAll]
    · rfl

theorem textAll_spaced_empty (follows : Bool) (ps : List (String × List Token)) :
    Token.textAll (spaced "" follows ps) = Token.textAll (ps.flatMap Prod.snd) := by
  induction ps generalizing follows with
  | nil => rfl
  | cons p ps ih =>
    rw [spaced, Token.textAll_append, ih, List.flatMap_cons, Token.textAll_append]
    congr 1
    split
    · next h =>
      have hleading := String.isEmpty_iff.1 (Bool.and_eq_true_iff.1 h).2
      by_cases hp : p.2 = []
      · rw [hp]
        rfl
      · rw [Token.textAll_releadAll_of_leadingAll_eq hp hleading, String.empty_append]
    · rfl

theorem tokensAll_separateFrom (s : Stamp) (separator : String) (previous : Option Element)
    (index : Nat) (es : List Element) :
    Element.tokensAll (separateFrom s separator previous index es) =
      spaced separator (previous.any fun p ↦ p.kind == Kind.attributeList)
        (es.map Element.piece) := by
  induction es generalizing previous index with
  | nil => rfl
  | cons e es ih =>
    rw [separateFrom, Element.tokensAll_cons, ih, List.map_cons, Element.piece, spaced,
      ← Element.leadingTrivia_eq]
    split
    · rw [Element.tokens_withLeadingTrivia, Option.any_some, Element.kind_withLeadingTrivia]
    · rfl

/-! ## Layout without stamps -/

mutual

/-- The tokens of the tree after layout. -/
def Node.laidOut (newline : Newline) : Node → List Token
  | ⟨head, children⟩ =>
    let pieces := Element.laidOutAll newline children
    let plain := pieces.flatMap Prod.snd
    if head.marked then spaced (separatorFor (Token.leadingAll plain) newline) false pieces
    else plain
termination_by structural n => n

/-- The kind of the element, and its tokens after layout. -/
def Element.laidOut (newline : Newline) : Element → String × List Token
  | .node n => (n.kind, n.laidOut newline)
  | .token t => (t.kind, [t])
termination_by structural e => e

/-- The elements' kinds, and their tokens after layout. -/
def Element.laidOutAll (newline : Newline) : List Element → List (String × List Token)
  | [] => []
  | e :: es => e.laidOut newline :: Element.laidOutAll newline es
termination_by structural es => es

end

variable {newline : Newline} {s : Stamp} {n : Node} {c : TreeContext}

theorem Element.laidOutAll_eq_map (newline : Newline) (es : List Element) :
    Element.laidOutAll newline es = es.map (Element.laidOut newline) := by
  induction es with
  | nil => rfl
  | cons e es ih => rw [Element.laidOutAll, ih, List.map_cons]

theorem Element.hasMarkAll_eq_any (es : List Element) :
    Element.hasMarkAll es = es.any Element.hasMark := by
  induction es with
  | nil => rfl
  | cons e es ih => rw [Element.hasMarkAll, ih, List.any_cons]

theorem Node.hasMark_eq_false_iff :
    n.hasMark = false ↔
      n.marked = false ∧ ∀ c, Element.node c ∈ n.children → c.hasMark = false := by
  obtain ⟨head, children⟩ := n
  rw [Node.hasMark, Bool.or_eq_false_iff, Element.hasMarkAll_eq_any, List.any_eq_false]
  refine and_congr_right fun _ ↦ ⟨fun h c hc ↦ Bool.eq_false_iff.2 (h (.node c) hc), ?_⟩
  intro h e he
  cases e with
  | node c => exact Bool.not_eq_true _ ▸ h c he
  | token t => exact Bool.false_ne_true

theorem Node.hasMark_eq_false (h : ∀ m ∈ n.preorder, m.marked = false) : n.hasMark = false := by
  induction n using Node.induction with
  | step head children ih =>
    refine Node.hasMark_eq_false_iff.2 ⟨h _ (Node.mem_preorder_self _), fun k hk ↦ ?_⟩
    exact ih k hk fun m hm ↦ h m (Node.mem_preorder_of_child hk hm)

mutual

theorem Node.hasMark_withLeadingTrivia (s : Stamp) (trivia : String) : ∀ n : Node,
    (n.withLeadingTrivia s trivia).hasMark = n.hasMark
  | ⟨head, children⟩ => by
    rw [Node.withLeadingTrivia]
    split
    · rw [Node.hasMark, Node.hasMark, Element.hasMarkAll_withLeadingTriviaAll s trivia children]
    · rfl
termination_by structural n => n

@[simp] theorem Element.hasMark_withLeadingTrivia (s : Stamp) (e : Element) (trivia : String) :
    (e.withLeadingTrivia s trivia).hasMark = e.hasMark :=
  match e with
  | .node n => n.hasMark_withLeadingTrivia s trivia
  | .token _ => rfl
termination_by structural e

theorem Element.hasMarkAll_withLeadingTriviaAll (s : Stamp) (trivia : String) :
    ∀ es : List Element,
      Element.hasMarkAll (Element.withLeadingTriviaAll s es trivia) = Element.hasMarkAll es
  | [] => rfl
  | e :: es => by
    rw [Element.withLeadingTriviaAll, Element.hasMarkAll]
    split
    · rw [Element.hasMarkAll, Element.hasMark_withLeadingTrivia s e trivia]
    · rw [Element.hasMarkAll, Element.hasMarkAll_withLeadingTriviaAll s trivia es]
termination_by structural es => es

end

theorem Node.laidOut_of_hasMark_eq_false (h : n.hasMark = false) :
    n.laidOut newline = n.tokens := by
  induction n using Node.induction with
  | step head children ih =>
    obtain ⟨hmarked, hchildren⟩ := Node.hasMark_eq_false_iff.1 h
    have hpieces : children.map (Element.laidOut newline) = children.map Element.piece := by
      refine List.map_congr_left fun e he ↦ ?_
      cases e with
      | node k =>
        rw [Element.laidOut, ih k he (hchildren k he)]
        rfl
      | token t => rfl
    rw [Node.laidOut, if_neg (Bool.not_eq_true _ ▸ hmarked), Element.laidOutAll_eq_map, hpieces,
      Node.tokens_mk, Element.tokensAll_eq_pieces]

theorem Element.laidOut_of_hasMark_eq_false {e : Element} (h : e.hasMark = false) :
    e.laidOut newline = e.piece := by
  cases e with
  | node k =>
    rw [Element.laidOut, Node.laidOut_of_hasMark_eq_false h]
    rfl
  | token t => rfl

/-- In a marked node whose children are settled the separators are all there is to layout. -/
theorem Node.laidOut_of_marked (hmarked : n.marked = true)
    (hchildren : ∀ e ∈ n.children, e.hasMark = false) (newline : Newline) :
    n.laidOut newline =
      spaced (separatorFor n.leadingTrivia newline) false (n.children.map Element.piece) := by
  obtain ⟨head, children⟩ := n
  have hhead : head.marked = true := hmarked
  have hpieces : children.map (Element.laidOut newline) = children.map Element.piece :=
    List.map_congr_left fun e he ↦ Element.laidOut_of_hasMark_eq_false (hchildren e he)
  rw [Node.laidOut, if_pos hhead, Element.laidOutAll_eq_map, hpieces, Node.leadingTrivia_eq,
    Node.tokens_mk, Element.tokensAll_eq_pieces]

theorem Node.layout_of_hasMark_eq_false (h : n.hasMark = false) : Node.layout newline s n = n := by
  obtain ⟨head, children⟩ := n
  rw [Node.hasMark, Bool.or_eq_false_iff] at h
  rw [Node.layout, h.1, h.2]
  rfl

theorem Element.layout_of_hasMark_eq_false {e : Element} (h : e.hasMark = false) :
    Element.layout newline s e = e := by
  cases e with
  | node k => exact congrArg Element.node (Node.layout_of_hasMark_eq_false h)
  | token t => rfl

theorem Element.layoutAll_append (index : Nat) (es es' : List Element) :
    Element.layoutAll newline s index (es ++ es') =
      Element.layoutAll newline s index es ++
        Element.layoutAll newline s (index + es.length) es' := by
  induction es generalizing index with
  | nil => rfl
  | cons e es ih =>
    rw [List.cons_append, Element.layoutAll, ih, Element.layoutAll, List.length_cons,
      Nat.add_right_comm]
    rfl

theorem Element.layoutAll_of_hasMark_eq_false {es : List Element}
    (h : ∀ e ∈ es, e.hasMark = false) (index : Nat) :
    Element.layoutAll newline s index es = es := by
  induction es generalizing index with
  | nil => rfl
  | cons e es ih =>
    rw [Element.layoutAll, ih fun x hx ↦ h x (List.mem_cons_of_mem e hx),
      Element.layout_of_hasMark_eq_false (h e List.mem_cons_self)]

@[simp] theorem Node.kind_layout (newline : Newline) (s : Stamp) (n : Node) :
    (Node.layout newline s n).kind = n.kind := by
  obtain ⟨head, children⟩ := n
  rw [Node.layout]
  split
  · rfl
  · split <;> rfl

/-- **Layout and tokens.** The tokens of the laid out tree do not depend on the stamp. -/
theorem Node.tokens_layout (newline : Newline) (s : Stamp) (n : Node) :
    (Node.layout newline s n).tokens = n.laidOut newline := by
  induction n using Node.induction generalizing s with
  | step head children ih =>
    -- the stamps differ from place to place, so the induction over the children is for all of them
    have hpieces : ∀ s index, (Element.layoutAll newline s index children).map Element.piece =
        Element.laidOutAll newline children := by
      clear * - ih
      intro s index
      induction children generalizing index with
      | nil => rfl
      | cons e es ihes =>
        rw [Element.layoutAll, List.map_cons, Element.laidOutAll,
          ihes (fun k hk ↦ ih k (List.mem_cons_of_mem e hk))]
        congr 1
        cases e with
        | node k =>
          rw [Element.layout, Element.piece, Element.tokens_node, ih k List.mem_cons_self,
            Element.laidOut]
          exact congrArg₂ Prod.mk (Node.kind_layout newline _ k) rfl
        | token t => rfl
    rw [Node.layout]
    split
    · next hmarked =>
      rw [layoutMarked, Node.tokens_mk, tokensAll_separateFrom, hpieces, Node.laidOut,
        if_pos hmarked, Node.leadingTrivia_eq, Node.tokens_mk, Element.tokensAll_eq_pieces,
        hpieces]
      rfl
    · next hmarked =>
      split
      · rw [Node.tokens_mk, Element.tokensAll_eq_pieces, hpieces, Node.laidOut, if_neg hmarked]
      · next hchildren =>
        -- without a mark the tree is returned as it is, and there is nothing to lay out
        refine (Node.laidOut_of_hasMark_eq_false ?_).symm
        rw [Node.hasMark, Bool.eq_false_iff.2 hmarked,
          Bool.eq_false_iff.2 hchildren]
        rfl

theorem Node.length_laidOut (newline : Newline) (n : Node) :
    (n.laidOut newline).length = n.tokens.length := by
  induction n using Node.induction with
  | step head children ih =>
    have hplain : ((Element.laidOutAll newline children).flatMap Prod.snd).length =
        (Element.tokensAll children).length := by
      clear * - ih
      induction children with
      | nil => rfl
      | cons e es ihes =>
        have he : (e.laidOut newline).2.length = e.tokens.length := by
          cases e with
          | node k => exact ih k List.mem_cons_self
          | token t => rfl
        rw [Element.laidOutAll, List.flatMap_cons, List.length_append, Element.tokensAll_cons,
          List.length_append, he, ihes fun k hk ↦ ih k (List.mem_cons_of_mem e hk)]
    rw [Node.laidOut, Node.tokens_mk, ← hplain]
    split
    · exact length_spaced _ _ _
    · rfl

/-! ## Layout around a hole -/

namespace TreeContext

/-- Some node around the hole is marked. -/
def hasMark : TreeContext → Bool
  | hole => false
  | child head before inner after =>
    head.marked || before.any Element.hasMark || inner.hasMark || after.any Element.hasMark

theorem hasMark_fill (c : TreeContext) (n : Node) :
    (c.fill n).hasMark = (c.hasMark || n.hasMark) := by
  induction c with
  | hole => rfl
  | child head before inner after ih =>
    have hnode : (Element.node (inner.fill n)).hasMark = (inner.fill n).hasMark := rfl
    rw [fill_child, Node.hasMark, Element.hasMarkAll_eq_any, List.any_append, List.any_cons, hnode,
      ih, hasMark]
    simp only [Bool.or_assoc]
    rw [Bool.or_comm n.hasMark]

/-- If no node of a tree is marked, none is in front of, in or behind the hole of a context of
it. -/
theorem unmarked_of_fill {c : TreeContext} {n : Node}
    (h : ∀ m ∈ (c.fill n).preorder, m.marked = false) : c.hasMark = false ∧ n.hasMark = false := by
  rw [← Bool.or_eq_false_iff, ← hasMark_fill]
  exact Node.hasMark_eq_false h

@[simp] theorem hasMark_restamp (c : TreeContext) (s : Stamp) :
    (c.restamp s).hasMark = c.hasMark := by
  induction c with
  | hole => rfl
  | child head before inner after ih => rw [restamp, hasMark, ih, hasMark]

/-- The stamps on the ancestors do not show after layout. -/
theorem laidOut_fill_restamp (c : TreeContext) (s : Stamp) (n : Node) (newline : Newline) :
    ((c.restamp s).fill n).laidOut newline = (c.fill n).laidOut newline := by
  induction c with
  | hole => rfl
  | child head before inner after ih =>
    have hkind : ((inner.restamp s).fill n).kind = (inner.fill n).kind := by cases inner <;> rfl
    rw [restamp, fill_child, fill_child, Node.laidOut, Node.laidOut, Element.laidOutAll_eq_map,
      Element.laidOutAll_eq_map, List.map_append, List.map_append, List.map_cons, List.map_cons,
      Element.laidOut, Element.laidOut, ih, hkind]

/-- **Layout below unmarked ancestors.** Only the node in the hole is laid out. -/
theorem laidOut_fill (hc : c.hasMark = false) (n : Node) :
    (c.fill n).laidOut newline = c.tokensBefore ++ n.laidOut newline ++ c.tokensAfter := by
  induction c with
  | hole => rw [fill_hole, tokensBefore, tokensAfter, List.nil_append, List.append_nil]
  | child head before inner after ih =>
    simp only [hasMark, Bool.or_eq_false_iff] at hc
    obtain ⟨⟨⟨hhead, hbefore⟩, hinner⟩, hafter⟩ := hc
    have hplain : ∀ es : List Element, es.any Element.hasMark = false →
        (es.map (Element.laidOut newline)).flatMap Prod.snd = Element.tokensAll es := by
      intro es hes
      rw [List.flatMap_map, Element.tokensAll_eq_flatMap]
      refine List.flatMap_congr fun e he ↦ ?_
      rw [Element.laidOut_of_hasMark_eq_false (Bool.eq_false_iff.2 (List.any_eq_false.1 hes e he)),
        Element.piece]
    rw [fill_child, Node.laidOut, if_neg (Bool.not_eq_true _ ▸ hhead), Element.laidOutAll_eq_map,
      List.map_append, List.map_cons, List.flatMap_append, List.flatMap_cons, hplain before hbefore,
      hplain after hafter, Element.laidOut, ih hinner, tokensBefore, tokensAfter]
    simp only [List.append_assoc]

end TreeContext

end CodeFix
