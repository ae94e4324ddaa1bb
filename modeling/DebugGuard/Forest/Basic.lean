import DebugGuard.Script.Node
import DebugGuard.Text.Offset

/-!
# A forest of nodes

A store of nodes that refer to each other by number, in the order of their creation.  Each cell
holds a node, a link to its parent and the byte offset where the node starts, of which a program
keeps thirty-two bits (`Cell.pos`).  A node that no other one lists is the root of a tree of its
own, so a part of a script may be taken out and put back elsewhere.

A reference may be empty, and it may be a number that no cell has; the functions below accept both.
-/

namespace DebugGuard

/-- A reference to a node: its number, or `none` for an empty slot. -/
abbrev Ref := Option Nat

/-- How a reference is named in messages; an empty one has the largest number of thirty-two bits. -/
def Ref.shown (r : Ref) : String :=
  s!"NodeIndex({r.getD 4294967295})"

/-- One node of a forest, with a link to its parent and the byte offset where it starts. -/
structure Cell where
  node : Node Ref
  parent : Ref
  start : Nat
  deriving DecidableEq, Repr

/-- The position of a node. -/
def Cell.pos (c : Cell) : Nat :=
  Text.position c.start

/-- A store of nodes, numbered in the order in which they were added. -/
structure Forest where
  cells : Array Cell
  deriving DecidableEq, Repr

namespace Forest

/-- A store without nodes. -/
def empty : Forest := ⟨#[]⟩

/-- The number of nodes, which is also the number of the next one. -/
def size (f : Forest) : Nat :=
  f.cells.size

/-! ### Reading -/

/-- What is stored for a reference, if it refers to a node. -/
def cell? (f : Forest) (r : Ref) : Option Cell :=
  r.bind fun i => f.cells[i]?

/-- The node that a reference refers to. -/
def node? (f : Forest) (r : Ref) : Option (Node Ref) :=
  (f.cell? r).map Cell.node

/-- The node satisfies `p`. -/
def nodeIs (f : Forest) (p : Node Ref → Bool) (r : Ref) : Bool :=
  (f.node? r).any p

/-- The parent link of a node; empty for a root, and where there is no node. -/
def parentOf (f : Forest) (r : Ref) : Ref :=
  (f.cell? r).bind Cell.parent

/-- The filled slots of a node, in source order. -/
def childrenOf (f : Forest) (r : Ref) : List Nat :=
  ((f.node? r).elim [] Node.children).filterMap id

/-- The statement list of a script or a block. -/
def statements? (f : Forest) (r : Ref) : Option (List Ref) :=
  (f.node? r).bind Node.statements?

/-- The first `fuel` nodes on the way from `r` up to a root. -/
def ancestorsUpTo (f : Forest) : Nat → Ref → List Nat
  | 0, _ => []
  | _, none => []
  | fuel + 1, some i => i :: f.ancestorsUpTo fuel (f.parentOf i)

/-- A node and those above it, nearest first.  No way up is longer than the forest is large. -/
def ancestors (f : Forest) (r : Ref) : List Nat :=
  f.ancestorsUpTo (f.size + 1) r

/-- A node and those at most `fuel` levels below it. -/
def belowUpTo (f : Forest) : Nat → Nat → List Nat
  | 0, i => [i]
  | fuel + 1, i => i :: (f.childrenOf i).flatMap (f.belowUpTo fuel)

/-- A node and all below it.  No way down is longer than the forest is large. -/
def below (f : Forest) (r : Ref) : List Nat :=
  r.elim [] (f.belowUpTo f.size)

/-! ### Adding -/

/-- Points the parent link of `child`, if there is such a node, at `parent`. -/
def setParent (f : Forest) (parent child : Ref) : Forest :=
  match child with
  | none => f
  | some i => ⟨f.cells.modify i fun c => { c with parent }⟩

/-- Points the parent links of several nodes at `parent`. -/
def adopt (f : Forest) (parent : Ref) (children : List Ref) : Forest :=
  children.foldl (·.setParent parent) f

/-- Puts another node into the cell of `r`, if there is one. -/
def setNode (f : Forest) (r : Ref) (node : Node Ref) : Forest :=
  match r with
  | none => f
  | some i => ⟨f.cells.modify i fun c => { c with node }⟩

/-- Adds a node without a parent, which becomes the parent of its children. -/
def add (f : Forest) (node : Node Ref) (pos : Nat) : Forest :=
  (⟨f.cells.push ⟨node, none, pos⟩⟩ : Forest).adopt f.size node.children

end Forest

/-! ### Building -/

/-- A computation that adds to a forest. -/
abbrev Build := StateM Forest

namespace Build

/-- Adds a node at a position of the source. -/
def nodeAt (pos : Nat) (node : Node Ref) : Build Nat := do
  let f ← get
  set (f.add node pos)
  return f.size

/-- Adds a node that has no place in the source. -/
def node (node : Node Ref) : Build Nat :=
  nodeAt 0 node

/-- A declaration of one variable; its declarator is added before it. -/
def declare (keyword : VarKeyword) (name : String) (init : Ref) : Build Nat := do
  let d ← node (.declarator name init)
  node (.varDeclaration keyword [some d])

/-- A constant, declared on its own. -/
def constant (name : String) (init : Ref) : Build Nat :=
  declare .const name init

end Build

end DebugGuard
