import CodeFix.Syntax.Node
import CodeFix.Text.Offset

/-!
# The text of a tree

The tokens of a tree, read from left to right, are its only text. `Node.tokens` is the view that the
other functions are described by: `Node.text` joins the tokens, and the trivia in front of a subtree
belong to its first token. The length of a tree is added up from the lengths of its children, level
by level, and no text is looked at.

The full span of a node begins at the leading trivia of its first token. Its text range begins after
them and excludes its end. Siblings follow each other without gaps, so the descent of
`Node.covering?` into the first child whose text range holds the offset cannot miss a deeper node.

A node is never changed. To give it other children, another mark or other leading trivia, a new
value is built under the same id, and the stamp of the edit goes on every node that was built anew.
Nodes that were not on the way keep their stamps, so they are the same values as before.
-/

namespace CodeFix

/-! ## Tokens -/

mutual

/-- The tokens of the tree from left to right. -/
def Node.tokens : Node → List Token
  | ⟨_, children⟩ => Element.tokensAll children
termination_by structural n => n

def Element.tokens : Element → List Token
  | .node n => n.tokens
  | .token t => [t]
termination_by structural e => e

def Element.tokensAll : List Element → List Token
  | [] => []
  | e :: es => e.tokens ++ Element.tokensAll es
termination_by structural es => es

end

@[simp] theorem Node.tokens_mk (head : NodeHead) (children : List Element) :
    (Node.mk head children).tokens = Element.tokensAll children := rfl

@[simp] theorem Element.tokens_node (n : Node) : (Element.node n).tokens = n.tokens := rfl

@[simp] theorem Element.tokens_token (t : Token) : (Element.token t).tokens = [t] := rfl

@[simp] theorem Element.tokensAll_nil : Element.tokensAll [] = [] := rfl

@[simp] theorem Element.tokensAll_cons (e : Element) (es : List Element) :
    Element.tokensAll (e :: es) = e.tokens ++ Element.tokensAll es := rfl

@[simp] theorem Element.tokensAll_append (es es' : List Element) :
    Element.tokensAll (es ++ es') = Element.tokensAll es ++ Element.tokensAll es' := by
  induction es with
  | nil => rfl
  | cons e es ih => simp [ih]

theorem Node.tokens_eq (n : Node) : n.tokens = Element.tokensAll n.children := by
  cases n; rfl

/-! ## Text and length -/

/-- The text of a run of tokens. -/
def Token.textAll (ts : List Token) : String := String.join (ts.map Token.fullText)

/-- The text of the tree, with all trivia. -/
def Node.text (n : Node) : String := Token.textAll n.tokens

def Element.text (e : Element) : String := Token.textAll e.tokens

mutual

/-- Byte length of the tree's text, as it is fixed when the node is built: the sum of the lengths of
its children. -/
def Node.fullLength : Node → Nat
  | ⟨_, children⟩ => Element.fullLengthAll children
termination_by structural n => n

def Element.fullLength : Element → Nat
  | .node n => n.fullLength
  | .token t => t.fullLength
termination_by structural e => e

def Element.fullLengthAll : List Element → Nat
  | [] => 0
  | e :: es => e.fullLength + Element.fullLengthAll es
termination_by structural es => es

end

/-! ## The first token -/

mutual

/-- The leftmost token of the tree; children without tokens are passed over. -/
def Node.firstToken? : Node → Option Token
  | ⟨_, children⟩ => Element.firstTokenAll? children
termination_by structural n => n

def Element.firstToken? : Element → Option Token
  | .node n => n.firstToken?
  | .token t => some t
termination_by structural e => e

def Element.firstTokenAll? : List Element → Option Token
  | [] => none
  | e :: es => e.firstToken?.or (Element.firstTokenAll? es)
termination_by structural es => es

end

mutual

theorem Node.firstToken?_eq_head? : ∀ n : Node, n.firstToken? = n.tokens.head?
  | ⟨_, children⟩ => Element.firstTokenAll?_eq_head? children
termination_by structural n => n

theorem Element.firstToken?_eq_head? : ∀ e : Element, e.firstToken? = e.tokens.head?
  | .node n => Node.firstToken?_eq_head? n
  | .token _ => rfl
termination_by structural e => e

theorem Element.firstTokenAll?_eq_head? :
    ∀ es : List Element, Element.firstTokenAll? es = (Element.tokensAll es).head?
  | [] => rfl
  | e :: es => by
    rw [Element.firstTokenAll?, Element.firstToken?_eq_head? e,
      Element.firstTokenAll?_eq_head? es, Element.tokensAll_cons, List.head?_append]
termination_by structural es => es

end

namespace Node

/-- The trivia in front of the tree's first token; empty if there is no token. -/
def leadingTrivia (n : Node) : String := (n.firstToken?.map Token.leading).getD ""

/-- The text behind the leading trivia: the slice of the tree's text from their end on. -/
def trimmedText (n : Node) : String :=
  Text.slice n.text n.leadingTrivia.utf8ByteSize n.text.utf8ByteSize

end Node

namespace Element

/-- The trivia in front of the element's first token; empty if there is no token. -/
def leadingTrivia (e : Element) : String := (e.firstToken?.map Token.leading).getD ""

def trimmedText : Element → String
  | node n => n.trimmedText
  | token t => t.text

end Element

/-! ## From a node to its range -/

mutual

/-- The text range of the first node with the id, in a tree whose full span begins at `start`. -/
def Node.rangeFrom? (id : NodeId) : Node → Nat → Option (Nat × Nat)
  | ⟨head, children⟩, start =>
    if head.id = id then
      let n : Node := ⟨head, children⟩
      some (start + n.leadingTrivia.utf8ByteSize, start + n.fullLength)
    else Element.rangeFromAll? id children start
termination_by structural n => n

def Element.rangeFrom? (id : NodeId) : Element → Nat → Option (Nat × Nat)
  | .node n, start => n.rangeFrom? id start
  | .token _, _ => none
termination_by structural e => e

def Element.rangeFromAll? (id : NodeId) : List Element → Nat → Option (Nat × Nat)
  | [], _ => none
  | e :: es, start =>
    (e.rangeFrom? id start).or (Element.rangeFromAll? id es (start + e.fullLength))
termination_by structural es => es

end

/-- Byte range of the first node with the id, leading trivia excluded. -/
def Node.textRange? (n : Node) (id : NodeId) : Option (Nat × Nat) := n.rangeFrom? id 0

/-! ## From an offset to the innermost node -/

mutual

/-- The innermost node at an offset that the tree beginning at `start` is known to cover. -/
def Node.innermostFrom (offset : Nat) : Node → Nat → Node
  | ⟨head, children⟩, start =>
    (Element.innermostFromAll? offset children start).getD ⟨head, children⟩
termination_by structural n => n

/-- The innermost node at an offset, if the element is a node whose text range holds it. -/
def Element.innermostFrom? (offset : Nat) : Element → Nat → Option Node
  | .node n, start =>
    if start + n.leadingTrivia.utf8ByteSize ≤ offset ∧ offset < start + n.fullLength then
      some (n.innermostFrom offset start)
    else none
  | .token _, _ => none
termination_by structural e => e

/-- The innermost node at an offset in a run of elements. -/
def Element.innermostFromAll? (offset : Nat) : List Element → Nat → Option Node
  | [], _ => none
  | e :: es, start =>
    (e.innermostFrom? offset start).or
      (Element.innermostFromAll? offset es (start + e.fullLength))
termination_by structural es => es

end

/-- The innermost node whose text range holds the offset, or else the root; nothing if the offset
lies behind the end of the text. -/
def Node.covering? (n : Node) (offset : Nat) : Option Node :=
  if offset > n.fullLength then none else some (n.innermostFrom offset 0)

/-! ## Rebuilding nodes -/

namespace Node

/-- The node with other children. -/
def withChildren (s : Stamp) (n : Node) (children : List Element) : Node :=
  ⟨{ n.head with stamp := s }, children⟩

/-- The node with the mark for layout; a marked node is returned as it is. -/
def mark (s : Stamp) (n : Node) : Node :=
  if n.marked then n else ⟨{ n.head with stamp := s, marked := true }, n.children⟩

/-- The node without the mark for layout; an unmarked node is returned as it is. -/
def unmark (s : Stamp) (n : Node) : Node :=
  if n.marked then ⟨{ n.head with stamp := s, marked := false }, n.children⟩ else n

end Node

/-! ## Leading trivia -/

mutual

/-- The node with other trivia in front of its first token. They are given to the first child that
has a token; a node without tokens is returned as it is. -/
def Node.withLeadingTrivia (s : Stamp) : Node → String → Node
  | ⟨head, children⟩, trivia =>
    if (Element.firstTokenAll? children).isSome then
      ⟨{ head with stamp := s }, Element.withLeadingTriviaAll s children trivia⟩
    else ⟨head, children⟩
termination_by structural n => n

/-- The element with other trivia in front of its first token; an element without tokens is returned
as it is. -/
def Element.withLeadingTrivia (s : Stamp) : Element → String → Element
  | .node n, trivia => .node (n.withLeadingTrivia s trivia)
  | .token t, trivia => .token (t.withLeading trivia)
termination_by structural e => e

def Element.withLeadingTriviaAll (s : Stamp) : List Element → String → List Element
  | [], _ => []
  | e :: es, trivia =>
    if e.firstToken?.isSome then e.withLeadingTrivia s trivia :: es
    else e :: Element.withLeadingTriviaAll s es trivia
termination_by structural es => es

end

end CodeFix
