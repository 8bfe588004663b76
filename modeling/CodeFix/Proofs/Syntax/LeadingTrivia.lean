import CodeFix.Proofs.Syntax.Text

/-!
# Leading trivia of a tree

The trivia in front of a tree are read off its first token, and other trivia are put there by a
search of their own, which asks of one child after the other whether there is a token in it. Both
searches come to the same token, below however many children without tokens it stands, since both
are described by the run of tokens alone (`Node.tokens_withLeadingTrivia`).

So reading and writing leading trivia obey the laws of a field of a record: what was written is read
again, nothing else of the tree changes, and of two writes the second one counts
(`Node.leadingTrivia_laws`). What else there is of a tree is its run of tokens and its *outline*:
which nodes there are, with which ids, kinds and marks, and how nodes and tokens are nested.
-/

namespace CodeFix

mutual

/-- The tree without stamps, and with nothing left of its tokens but their places. -/
def Node.outline : Node → Node
  | ⟨head, children⟩ => ⟨{ head with stamp := ⟨0, []⟩ }, Element.outlineAll children⟩
termination_by structural n => n

/-- The element without stamps, and with nothing left of its tokens but their places. -/
def Element.outline : Element → Element
  | .node n => .node n.outline
  | .token _ => .token ⟨"", "", ""⟩
termination_by structural e => e

/-- The elements without stamps, and with nothing left of their tokens but their places. -/
def Element.outlineAll : List Element → List Element
  | [] => []
  | e :: es => e.outline :: Element.outlineAll es
termination_by structural es => es

end

/-! ## What stays -/

mutual

/-- Other trivia leave all nodes in their places, with their ids, kinds and marks. -/
theorem Node.outline_withLeadingTrivia (s : Stamp) (trivia : String) : ∀ n : Node,
    (n.withLeadingTrivia s trivia).outline = n.outline
  | ⟨head, children⟩ => by
    rw [Node.withLeadingTrivia]
    split
    · rw [Node.outline, Node.outline, Element.outlineAll_withLeadingTriviaAll s trivia children]
    · rfl
termination_by structural n => n

theorem Element.outline_withLeadingTrivia (s : Stamp) (trivia : String) : ∀ e : Element,
    (e.withLeadingTrivia s trivia).outline = e.outline
  | .node n => congrArg Element.node (n.outline_withLeadingTrivia s trivia)
  | .token _ => rfl
termination_by structural e => e

theorem Element.outlineAll_withLeadingTriviaAll (s : Stamp) (trivia : String) :
    ∀ es : List Element,
      Element.outlineAll (Element.withLeadingTriviaAll s es trivia) = Element.outlineAll es
  | [] => rfl
  | e :: es => by
    rw [Element.withLeadingTriviaAll]
    split
    · rw [Element.outlineAll, Element.outlineAll, Element.outline_withLeadingTrivia s trivia e]
    · rw [Element.outlineAll, Element.outlineAll,
        Element.outlineAll_withLeadingTriviaAll s trivia es]
termination_by structural es => es

end

namespace Node

variable (s : Stamp) (trivia : String)

theorem trimmedText_withLeadingTrivia (n : Node) :
    (n.withLeadingTrivia s trivia).trimmedText = n.trimmedText := by
  rw [trimmedText_eq, tokens_withLeadingTrivia, Token.trimmedTextAll_releadAll, trimmedText_eq]

theorem isBoundary_leadingTrivia (n : Node) :
    Text.IsBoundary n.text n.leadingTrivia.utf8ByteSize := by
  rw [text_eq]
  exact Text.isBoundary_append n.leadingTrivia n.trimmedText

end Node

/-! ## Writing twice -/

private theorem Element.isSome_firstToken?_withLeadingTrivia (s : Stamp) (trivia : String)
    {e : Element} (h : e.firstToken?.isSome = true) :
    (e.withLeadingTrivia s trivia).firstToken?.isSome = true :=
  Element.isSome_firstToken?_iff.2
    (Element.tokens_withLeadingTrivia_ne_nil s trivia (Element.isSome_firstToken?_iff.1 h))

mutual

theorem Node.withLeadingTrivia_withLeadingTrivia (s s' : Stamp) (trivia trivia' : String) :
    ∀ n : Node, (n.withLeadingTrivia s trivia).withLeadingTrivia s' trivia' =
      n.withLeadingTrivia s' trivia'
  | ⟨head, children⟩ => by
    by_cases h : (Element.firstTokenAll? children).isSome = true
    · have hstill : (Element.firstTokenAll?
          (Element.withLeadingTriviaAll s children trivia)).isSome = true := by
        rw [Element.isSome_firstTokenAll?_iff, Element.tokensAll_withLeadingTriviaAll,
          ← List.length_pos_iff, Token.length_releadAll, List.length_pos_iff]
        exact Element.isSome_firstTokenAll?_iff.1 h
      rw [Node.withLeadingTrivia, if_pos h, Node.withLeadingTrivia, if_pos hstill,
        Node.withLeadingTrivia, if_pos h,
        Element.withLeadingTriviaAll_withLeadingTriviaAll s s' trivia trivia' children]
    · rw [Node.withLeadingTrivia, if_neg h]
termination_by structural n => n

theorem Element.withLeadingTrivia_withLeadingTrivia (s s' : Stamp) (trivia trivia' : String) :
    ∀ e : Element, (e.withLeadingTrivia s trivia).withLeadingTrivia s' trivia' =
      e.withLeadingTrivia s' trivia'
  | .node n => congrArg Element.node (n.withLeadingTrivia_withLeadingTrivia s s' trivia trivia')
  | .token _ => rfl
termination_by structural e => e

theorem Element.withLeadingTriviaAll_withLeadingTriviaAll (s s' : Stamp)
    (trivia trivia' : String) : ∀ es : List Element,
      Element.withLeadingTriviaAll s' (Element.withLeadingTriviaAll s es trivia) trivia' =
        Element.withLeadingTriviaAll s' es trivia'
  | [] => rfl
  | e :: es => by
    by_cases h : e.firstToken?.isSome = true
    · have hstill := Element.isSome_firstToken?_withLeadingTrivia s trivia h
      rw [Element.withLeadingTriviaAll, if_pos h, Element.withLeadingTriviaAll, if_pos hstill,
        Element.withLeadingTriviaAll, if_pos h,
        Element.withLeadingTrivia_withLeadingTrivia s s' trivia trivia' e]
    · rw [Element.withLeadingTriviaAll, if_neg h, Element.withLeadingTriviaAll, if_neg h,
        Element.withLeadingTriviaAll, if_neg h,
        Element.withLeadingTriviaAll_withLeadingTriviaAll s s' trivia trivia' es]
termination_by structural es => es

end

/-! ## The laws -/

namespace Node

/-- **Leading trivia.** The text of a tree is its leading trivia and the trimmed text behind them,
and the slice that trims it never cuts a character. In a tree with a token, other trivia are given
to the first one: they stand in front of the same trimmed text, every other token stays, and so does
every node with its id, kind and mark. A tree without tokens stays the value it is. Of two writes
the second one counts. -/
theorem leadingTrivia_laws (n : Node) :
    n.text = n.leadingTrivia ++ n.trimmedText ∧
    Text.IsBoundary n.text n.leadingTrivia.utf8ByteSize ∧
    n.firstToken? = n.tokens.head? ∧
    (∀ first rest, n.tokens = first :: rest → ∀ s trivia,
      (n.withLeadingTrivia s trivia).text = trivia ++ n.trimmedText ∧
      (n.withLeadingTrivia s trivia).leadingTrivia = trivia ∧
      (n.withLeadingTrivia s trivia).trimmedText = n.trimmedText ∧
      (n.withLeadingTrivia s trivia).tokens = first.withLeading trivia :: rest ∧
      (n.withLeadingTrivia s trivia).outline = n.outline) ∧
    (n.tokens = [] → ∀ s trivia, n.withLeadingTrivia s trivia = n) ∧
    ∀ s s' trivia trivia', (n.withLeadingTrivia s trivia).withLeadingTrivia s' trivia' =
      n.withLeadingTrivia s' trivia' := by
  refine ⟨n.text_eq, n.isBoundary_leadingTrivia, n.firstToken?_eq_head?, ?_,
    fun hnil ↦ n.withLeadingTrivia_of_tokens_eq_nil hnil,
    fun s s' trivia trivia' ↦ n.withLeadingTrivia_withLeadingTrivia s s' trivia trivia'⟩
  intro first rest htokens s trivia
  have hrun : (n.withLeadingTrivia s trivia).tokens = first.withLeading trivia :: rest := by
    rw [tokens_withLeadingTrivia, htokens, Token.releadAll]
  have hleading : (n.withLeadingTrivia s trivia).leadingTrivia = trivia := by
    rw [leadingTrivia_eq, hrun]
    rfl
  have htrimmed := n.trimmedText_withLeadingTrivia s trivia
  refine ⟨?_, hleading, htrimmed, hrun, n.outline_withLeadingTrivia s trivia⟩
  rw [text_eq, hleading, htrimmed]

/-- Two children without tokens stand in front of the token, on different levels. -/
example :
    let leaf (id : Nat) (children : List Element) : Node :=
      ⟨⟨⟨id⟩, ⟨id, []⟩, "leaf", false⟩, children⟩
    let tree (trivia : String) (stamp : Nat) : Node :=
      ⟨⟨⟨0⟩, ⟨stamp, []⟩, "tree", true⟩, [.node (leaf 1 []),
        .node ⟨⟨⟨2⟩, ⟨stamp, []⟩, "tree", false⟩,
          [.node (leaf 3 []), .token ⟨"identifier", trivia, "é"⟩]⟩, .token ⟨";", " ", ";"⟩]⟩
    (tree "é" 4).withLeadingTrivia ⟨5, []⟩ "\n" = tree "\n" 5 := by decide

end Node

end CodeFix
