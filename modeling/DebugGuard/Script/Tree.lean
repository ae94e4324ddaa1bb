import DebugGuard.Script.Node

/-!
# Trees

A script as a tree: nodes with the byte offset where each starts, and trees in their child slots.  A
slot may be left empty (a `return` without a value).  A slot that is filled with something that is
no node is kept apart from an empty one, because a printed text shows the difference.
-/

namespace DebugGuard

/-- A tree, or what stands in a slot in its place. -/
inductive Tree where
  /-- An empty slot. -/
  | absent
  /-- A slot filled with no node. -/
  | dangling
  | node (pos : Nat) (top : Node Tree)

namespace Tree

/-- The top node, if there is one. -/
def top? : Tree → Option (Node Tree)
  | .node _ top => some top
  | _ => none

/-- The slot holds something. -/
def isFilled : Tree → Bool
  | .absent => false
  | _ => true

/-- The top node satisfies `p`. -/
def topIs (p : Node Tree → Bool) (t : Tree) : Bool :=
  t.top?.any p

end Tree

end DebugGuard
