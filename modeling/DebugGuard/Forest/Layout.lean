import DebugGuard.Forest.Basic
import DebugGuard.Script.Tree

/-!
# Trees and forests

`Forest.ofTree` lays a tree out in an empty forest, children before their parent and in source
order, so that the root comes last.  `Forest.tree` reads a tree back, from any node.
-/

namespace DebugGuard

namespace Build

mutual

/-- Adds the nodes of a tree, the root last. -/
def tree : Tree → Build Ref
  | .node pos top => do
    let node ← slots top
    return some (← nodeAt pos node)
  | _ => return none

/-- Adds the trees in the slots of a node. -/
def slots : Node Tree → Build (Node Ref)
  | .program body => return .program (← trees body)
  | .importFrom specifiers source => return .importFrom (← trees specifiers) source
  | .importName imported bound => return .importName imported bound
  | .importDefault bound => return .importDefault bound
  | .importAll bound => return .importAll bound
  | .exportDeclaration d => return .exportDeclaration (← tree d)
  | .exportDefault e => return .exportDefault (← tree e)
  | .varDeclaration keyword ds => return .varDeclaration keyword (← trees ds)
  | .declarator name init => return .declarator name (← tree init)
  | .functionDeclaration name params body => return .functionDeclaration name params (← tree body)
  | .block body => return .block (← trees body)
  | .expressionStatement e => return .expressionStatement (← tree e)
  | .ifElse c y n => return .ifElse (← tree c) (← tree y) (← tree n)
  | .returnStatement e => return .returnStatement (← tree e)
  | .throwStatement e => return .throwStatement (← tree e)
  | .emptyStatement => return .emptyStatement
  | .identifier name => return .identifier name
  | .literal value => return .literal value
  | .call callee args => return .call (← tree callee) (← trees args)
  | .construct callee args => return .construct (← tree callee) (← trees args)
  | .member o name => return .member (← tree o) name
  | .element o i => return .element (← tree o) (← tree i)
  | .unary op e => return .unary op (← tree e)
  | .binary l op r => return .binary (← tree l) op (← tree r)
  | .assignment t op v => return .assignment (← tree t) op (← tree v)
  | .conditional c y n => return .conditional (← tree c) (← tree y) (← tree n)
  | .object ps => return .object (← trees ps)
  | .property key quoted v shorthand => return .property key quoted (← tree v) shorthand
  | .array es => return .array (← trees es)
  | .functionExpression name params body =>
    return .functionExpression name params (← tree body)
  | .arrow params body => return .arrow params (← tree body)
  | .parenthesized e => return .parenthesized (← tree e)

/-- Lays trees out, one behind the other. -/
def trees : List Tree → Build (List Ref)
  | [] => return []
  | t :: ts => return (← tree t) :: (← trees ts)

end

end Build

namespace Forest

/-- A tree laid out in a forest of its own, and its root. -/
def ofTree (t : Tree) : Ref × Forest :=
  (Build.tree t).run empty

/-- The tree of a node, cut off `fuel` levels down. -/
def treeUpTo (f : Forest) : Nat → Ref → Tree
  | _, none => .absent
  | 0, some _ => .dangling
  | fuel + 1, some i =>
    match f.cells[i]? with
    | none => .dangling
    | some c => .node c.start (c.node.map (f.treeUpTo fuel))

/-- The tree of a node.  No way down is longer than the forest is large. -/
def tree (f : Forest) (r : Ref) : Tree :=
  f.treeUpTo f.size r

end Forest

end DebugGuard
