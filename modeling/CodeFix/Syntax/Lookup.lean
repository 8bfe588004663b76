import CodeFix.Syntax.Node

/-!
# Finding and replacing a node by its id

All look-ups go through the tree in the same order, a node before its children and the children from
left to right, and all of them mean the first node with the id in that order. They come to it in two
ways. A `Traversal` keeps the subtrees that are still to come on a stack, and `Node.find?` takes
what it yields; paths and replacements follow the tree by recursion and stop at the first success.
Replacement rebuilds exactly the ancestors of the node; every other subtree is shared with the old
tree.
-/

namespace CodeFix

/-! ## Pre-order -/

mutual

/-- All nodes of the tree, each before its descendants, from left to right. -/
def Node.preorder : Node → List Node
  | ⟨head, children⟩ => ⟨head, children⟩ :: Element.preorderAll children
termination_by structural n => n

def Element.preorder : Element → List Node
  | .node n => n.preorder
  | .token _ => []
termination_by structural e => e

def Element.preorderAll : List Element → List Node
  | [] => []
  | e :: es => e.preorder ++ Element.preorderAll es
termination_by structural es => es

end

theorem Element.preorderAll_eq_flatMap_node? (es : List Element) :
    Element.preorderAll es = (es.filterMap Element.node?).flatMap Node.preorder := by
  induction es with
  | nil => rfl
  | cons e es ih =>
    rw [Element.preorderAll, ih]
    cases e <;> rfl

/-! ## Traversals -/

/-- A traversal that is under way: the nodes whose subtrees are still to come, the next one on
top. -/
structure Traversal where
  stack : List Node

namespace Traversal

/-- The nodes that are still to come. -/
def remaining (t : Traversal) : List Node := t.stack.flatMap Node.preorder

/-- The next node. Its child nodes are put on the stack from the last one to the first one. -/
def next? : Traversal → Option (Node × Traversal)
  | ⟨[]⟩ => none
  | ⟨n :: stack⟩ => some (n, ⟨n.childNodes.reverse.foldl (fun stack child ↦ child :: stack) stack⟩)

theorem remaining_of_next? {t t' : Traversal} {n : Node} (h : t.next? = some (n, t')) :
    t.remaining = n :: t'.remaining := by
  obtain ⟨_ | ⟨⟨head, children⟩, stack⟩⟩ := t
  · cases h
  · obtain ⟨rfl, rfl⟩ := Prod.mk.inj (Option.some.inj h)
    rw [remaining, remaining, List.foldl_reverse, List.foldr_cons_eq_append',
      List.flatMap_append, Node.childNodes, ← Element.preorderAll_eq_flatMap_node?]
    rfl

/-- The nodes that a traversal yields until its stack is empty. -/
@[semireducible] def toList (t : Traversal) : List Node :=
  match h : t.next? with
  | none => []
  | some (n, t') =>
    have : t'.remaining.length < t.remaining.length := by
      rw [remaining_of_next? h]
      exact Nat.lt_succ_self _
    n :: t'.toList
termination_by t.remaining.length

end Traversal

namespace Node

/-- The nodes of the tree, as a traversal from its root yields them. -/
def descendants (n : Node) : List Node := Traversal.toList ⟨[n]⟩

/-- The ids of all nodes of the tree, in pre-order. -/
def ids (n : Node) : List NodeId := n.preorder.map Node.id

/-- The first node with the id. -/
def find? (n : Node) (id : NodeId) : Option Node := n.descendants.find? fun d ↦ d.id == id

def contains (n : Node) (id : NodeId) : Bool := (n.find? id).isSome

end Node

/-! ## Paths -/

mutual

/-- The nodes from the root down to the first node with the id, both included. -/
def Node.pathTo? (id : NodeId) : Node → Option (List Node)
  | ⟨head, children⟩ =>
    if head.id = id then some [⟨head, children⟩]
    else (Element.pathToAll? id children).map (⟨head, children⟩ :: ·)
termination_by structural n => n

def Element.pathTo? (id : NodeId) : Element → Option (List Node)
  | .node n => n.pathTo? id
  | .token _ => none
termination_by structural e => e

def Element.pathToAll? (id : NodeId) : List Element → Option (List Node)
  | [] => none
  | e :: es => (e.pathTo? id).or (Element.pathToAll? id es)
termination_by structural es => es

end

/-! ## Replacement -/

mutual

/-- The tree in which the first node with the id `old` is replaced by `new`; nothing if the id does
not occur. -/
def Node.replace? (s : Stamp) (old : NodeId) (new : Node) : Node → Option Node
  | ⟨head, children⟩ =>
    if head.id = old then some new
    else (Element.replaceAll? s old new children).map fun children' ↦
      ⟨{ head with stamp := s }, children'⟩
termination_by structural n => n

def Element.replace? (s : Stamp) (old : NodeId) (new : Node) : Element → Option Element
  | .node n => (Node.replace? s old new n).map .node
  | .token _ => none
termination_by structural e => e

def Element.replaceAll? (s : Stamp) (old : NodeId) (new : Node) :
    List Element → Option (List Element)
  | [] => none
  | e :: es =>
    match e.replace? s old new with
    | some e' => some (e' :: es)
    | none => (Element.replaceAll? s old new es).map (e :: ·)
termination_by structural es => es

end

end CodeFix
