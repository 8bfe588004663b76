import CodeFix.Syntax.Kind
import CodeFix.Syntax.Node
import CodeFix.Text.Offset

/-!
# Lowering concrete trees

A concrete tree names kinds and byte ranges of a source text and owns no text itself. Lowering reads
the leaves from left to right while it walks through the source once: what stands between the
current position and a leaf becomes the leaf's leading trivia, and what is left at the end goes in
front of an end-of-file token. A leaf that begins or ends in front of the current position is taken
to do so at the position. The position never goes back, so every byte of the source is given away
exactly once, as long as the ranges of the leaves cut no character.
-/

namespace CodeFix

/-- A tree of kinds and byte ranges over a source text. -/
inductive ConcreteTree where
  | mk (kind : String) (start stop : Nat) (children : List ConcreteTree)

namespace ConcreteTree

def kind : ConcreteTree → String
  | mk kind _ _ _ => kind

def start : ConcreteTree → Nat
  | mk _ start _ _ => start

def stop : ConcreteTree → Nat
  | mk _ _ stop _ => stop

def children : ConcreteTree → List ConcreteTree
  | mk _ _ _ children => children

def leaf (kind : String) (start stop : Nat) : ConcreteTree := mk kind start stop []

/-- A tree that reaches from its first child to its last one. -/
def branch (kind : String) (children : List ConcreteTree) : ConcreteTree :=
  mk kind ((children.head?.map start).getD 0) ((children.getLast?.map stop).getD 0) children

end ConcreteTree

/-- The token of a leaf that is reached at a position of the source, and the position behind it. -/
def lowerLeaf (source kind : String) (start stop position : Nat) : Token × Nat :=
  let start := max start position
  let stop := max stop start
  (⟨kind, Text.slice source position start, Text.slice source start stop⟩, stop)

mutual

/-- The syntax element of a concrete tree that is reached at a position, and the position behind
it. -/
def ConcreteTree.lower (source : String) : ConcreteTree → Nat → StateM Supply (Element × Nat)
  | .mk kind start stop [], position =>
    let (t, position) := lowerLeaf source kind start stop position
    return (.token t, position)
  | .mk kind _ _ (t :: ts), position => do
    let (first, position) ← ConcreteTree.lower source t position
    let (others, position) ← ConcreteTree.lowerAll source ts position
    return (.node (← Node.create kind (first :: others)), position)
termination_by structural t => t

/-- The syntax elements of some concrete trees, and the position behind them. -/
def ConcreteTree.lowerAll (source : String) :
    List ConcreteTree → Nat → StateM Supply (List Element × Nat)
  | [], position => return ([], position)
  | t :: ts, position => do
    let (first, position) ← ConcreteTree.lower source t position
    let (others, position) ← ConcreteTree.lowerAll source ts position
    return (first :: others, position)
termination_by structural ts => ts

end

/-- The syntax tree of a source, given its concrete tree. -/
def ConcreteTree.toNode (t : ConcreteTree) (source : String) : StateM Supply Node := do
  let (children, position) ← lowerAll source t.children 0
  let rest := Text.slice source position source.utf8ByteSize
  Node.create t.kind (children ++ [.token ⟨Kind.endOfFile, rest, ""⟩])

/-- Gives the concrete tree of a source, unless it gives up. -/
abbrev Parser := String → Option ConcreteTree

end CodeFix
