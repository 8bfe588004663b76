import CodeFix.Identity

/-!
# Syntax trees

A tree is a value made of nodes and tokens. Each token owns the trivia in front of it, so the text
of a tree is exactly the concatenation of its tokens' trivia and text, and nothing between two
tokens can be lost. A node carries its identity in its `NodeHead`; equality of nodes is structural
equality, stamps included, and is therefore what "the same tree value" means throughout the library.

`Node` and `Element` are mutually inductive. Functions on them are given by three structural
clauses, on a node, on an element and on a list of elements; the clause on lists is what inductions
run on.
-/

namespace CodeFix

/-- A lexeme with the trivia (blanks, line breaks, skipped text) in front of it. -/
structure Token where
  kind : String
  leading : String
  text : String
deriving DecidableEq, Repr

namespace Token

/-- The token with its leading trivia, as it stands in the file. -/
def fullText (t : Token) : String := t.leading ++ t.text

/-- Length in bytes, leading trivia included. -/
def fullLength (t : Token) : Nat := t.leading.utf8ByteSize + t.text.utf8ByteSize

def withLeading (t : Token) (trivia : String) : Token := { t with leading := trivia }

end Token

/-- Everything a node is, apart from its children. -/
structure NodeHead where
  id : NodeId
  stamp : Stamp
  kind : String
  /-- The node was synthesized and its layout has not been settled yet. -/
  marked : Bool
deriving DecidableEq, Repr

mutual

/-- An inner node of a syntax tree. -/
structure Node where
  head : NodeHead
  children : List Element

/-- A child of a node. -/
inductive Element where
  | node (node : Node)
  | token (token : Token)

end

/-! ## Equality of tree values -/

mutual

/-- Structural equality of nodes. -/
def Node.same : Node → Node → Bool
  | ⟨head, children⟩, ⟨head', children'⟩ => head == head' && Element.sameAll children children'
termination_by structural n => n

def Element.same : Element → Element → Bool
  | .node n, .node n' => n.same n'
  | .token t, .token t' => t == t'
  | _, _ => false
termination_by structural e => e

def Element.sameAll : List Element → List Element → Bool
  | [], [] => true
  | e :: es, e' :: es' => e.same e' && Element.sameAll es es'
  | _, _ => false
termination_by structural es => es

end

mutual

theorem Node.same_iff : ∀ a b : Node, a.same b = true ↔ a = b
  | ⟨head, children⟩, ⟨head', children'⟩ => by
    simp [Node.same, Element.sameAll_iff children children']
termination_by structural a => a

theorem Element.same_iff : ∀ a b : Element, a.same b = true ↔ a = b
  | .node n, .node n' => by simp [Element.same, Node.same_iff n n']
  | .token t, .token t' => by simp [Element.same]
  | .node _, .token _ => by simp [Element.same]
  | .token _, .node _ => by simp [Element.same]
termination_by structural a => a

theorem Element.sameAll_iff : ∀ a b : List Element, Element.sameAll a b = true ↔ a = b
  | [], [] => by simp [Element.sameAll]
  | e :: es, e' :: es' => by
    simp [Element.sameAll, Element.same_iff e e', Element.sameAll_iff es es']
  | [], _ :: _ => by simp [Element.sameAll]
  | _ :: _, [] => by simp [Element.sameAll]
termination_by structural a => a

end

instance : DecidableEq Node := fun a b ↦ decidable_of_iff _ (Node.same_iff a b)

instance : DecidableEq Element := fun a b ↦ decidable_of_iff _ (Element.same_iff a b)

/-- Induction over the nodes of a tree: a property holds of a node if it holds of all its child
nodes. -/
@[elab_as_elim]
theorem Node.induction {motive : Node → Prop}
    (step : ∀ head children, (∀ n, Element.node n ∈ children → motive n) → motive ⟨head, children⟩)
    (n : Node) : motive n :=
  @Node.rec motive (fun e ↦ ∀ n, e = .node n → motive n)
    (fun es ↦ ∀ n, Element.node n ∈ es → motive n)
    (fun head children ih ↦ step head children ih)
    (fun _ ih _ h ↦ by cases h; exact ih)
    (fun _ _ h ↦ nomatch h)
    (fun _ h ↦ nomatch h)
    (fun _ _ ihe ihes n h ↦ (List.mem_cons.1 h).elim (fun h ↦ ihe n h.symm) (ihes n))
    n

/-! ## Parts of a node -/

namespace Element

def kind : Element → String
  | .node n => n.head.kind
  | .token t => t.kind

def node? : Element → Option Node
  | .node n => some n
  | .token _ => none

def token? : Element → Option Token
  | .node _ => none
  | .token t => some t

end Element

namespace Node

def id (n : Node) : NodeId := n.head.id

def kind (n : Node) : String := n.head.kind

/-- The node was synthesized and its layout has not been settled yet. -/
def marked (n : Node) : Bool := n.head.marked

@[simp] theorem id_mk (head : NodeHead) (children : List Element) :
    (Node.mk head children).id = head.id := rfl

@[simp] theorem kind_mk (head : NodeHead) (children : List Element) :
    (Node.mk head children).kind = head.kind := rfl

@[simp] theorem marked_mk (head : NodeHead) (children : List Element) :
    (Node.mk head children).marked = head.marked := rfl

def childNodes (n : Node) : List Node := n.children.filterMap Element.node?

def childNode? (n : Node) (kind : String) : Option Node := n.childNodes.find? (·.kind == kind)

def childToken? (n : Node) (kind : String) : Option Token :=
  (n.children.filterMap Element.token?).find? (·.kind == kind)

/-- A new node with an identity of its own. -/
def create (kind : String) (children : List Element) : StateM Supply Node := do
  let id ← Supply.draw
  return ⟨⟨⟨id⟩, ⟨id, []⟩, kind, false⟩, children⟩

end Node

end CodeFix
