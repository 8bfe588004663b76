/-!
# Identities

Nodes, documents and projects are values, yet an edit has to name the node it replaces and a host
has to notice that a tree is no longer the one an edit was derived from. Both needs are met by data:
every node carries an id that survives the rebuilding of its ancestors, and a stamp that does not.

All identities come from one `Supply`, a counter that is threaded explicitly, so two runs from the
same supply give the same identities and a larger counter means a later creation. The order of
documents and projects in a solution is the order of their ids, hence of their creation.
-/

namespace CodeFix

/-- The next identity that has not been handed out. -/
structure Supply where
  next : Nat
deriving DecidableEq, Repr

namespace Supply

def start : Supply := ⟨0⟩

def draw : StateM Supply Nat := fun s ↦ (s.next, ⟨s.next + 1⟩)

@[simp] theorem draw_run (s : Supply) : draw s = (s.next, ⟨s.next + 1⟩) := rfl

/-- A computation that only draws identities cannot fail. -/
def lift {ε α : Type} (x : StateM Supply α) : EStateM ε Supply α := fun s ↦
  let (a, s') := x s
  .ok a s'

instance {ε : Type} : MonadLift (StateM Supply) (EStateM ε Supply) := ⟨lift⟩

end Supply

/-- Identity of a syntax node. It is given once, when the node is synthesized, and kept by every
later version of the node in which only descendants changed. -/
structure NodeId where
  value : Nat
deriving DecidableEq, Repr

/-- Identity of a document across its versions. -/
structure DocumentId where
  value : Nat
deriving DecidableEq, Repr

structure ProjectId where
  value : Nat
deriving DecidableEq, Repr

/-- Says which edit built a node value and, for an edit that rebuilds nodes in several places, at
which place of the tree. Two nodes with equal contents but different stamps are different values:
one of them was built by an edit that the other has not seen. -/
structure Stamp where
  edit : Nat
  place : List Nat
deriving DecidableEq, Repr

namespace Stamp

/-- A stamp for an edit that rebuilds at most one path of a tree. -/
def fresh : StateM Supply Stamp := do
  return ⟨← Supply.draw, []⟩

/-- The stamp for the child at an index, below the place of this stamp. -/
def below (s : Stamp) (index : Nat) : Stamp := ⟨s.edit, index :: s.place⟩

end Stamp

/-- How an id is written in messages. -/
instance : ToString NodeId := ⟨fun id ↦ s!"#{id.value}"⟩

/-- How an id is written in messages. -/
instance : ToString DocumentId := ⟨fun id ↦ s!"doc#{id.value}"⟩

end CodeFix
