import DebugGuard.Script.Piece
import DebugGuard.Script.Tree
import Mathlib

/-!
# Trees as a whole

Induction over a tree (`Tree.induct`) and functions that are defined by it (`Tree.fold`): the tree
without its positions (`Tree.bare`), its nodes (`Tree.nodes`) and the spellings of its numerals in
source order (`Tree.numerals`).
-/

namespace DebugGuard

/-! ### Children -/

namespace Node

theorem sizeOf_lt_of_mem_children {t : Tree} {top : Node Tree} (h : t ∈ top.children) :
    sizeOf t < sizeOf top := by
  cases top <;> simp only [children, List.mem_cons, List.not_mem_nil, or_false] at h
  all_goals grind [→ List.sizeOf_lt_of_mem]

variable {α β γ : Type}

theorem map_map (g : β → γ) (f : α → β) (n : Node α) : (n.map f).map g = n.map fun a => g (f a) := by
  cases n <;> simp [map]

theorem map_congr {f g : α → β} {n : Node α} (h : ∀ a ∈ n.children, f a = g a) :
    n.map f = n.map g := by
  cases n <;> simp_all [children, map]

/-- A change of what a node says that leaves its slots alone, whatever stands in them. -/
structure Relabeling where
  apply : {α : Type} → Node α → Node α
  children_apply {α : Type} (n : Node α) : (apply n).children = n.children
  map_apply {α β : Type} (f : α → β) (n : Node α) : (apply n).map f = apply (n.map f)

/-- Nodes as they are. -/
def Relabeling.refl : Relabeling := ⟨id, fun _ => rfl, fun _ _ => rfl⟩

end Node

namespace Tree

/-- What holds of a node whenever it holds of its children holds of all trees. -/
theorem induct {motive : Tree → Prop} (absent : motive .absent) (dangling : motive .dangling)
    (node : ∀ pos top, (∀ t ∈ top.children, motive t) → motive (.node pos top)) (t : Tree) :
    motive t :=
  match t with
  | .absent => absent
  | .dangling => dangling
  | .node pos top => node pos top fun t _ => induct absent dangling node t
termination_by sizeOf t
decreasing_by
  rename_i ht
  have := Node.sizeOf_lt_of_mem_children ht
  simp only [Tree.node.sizeOf_spec]
  omega

/-! ### Folding -/

section

variable {α : Type} (leaf : Tree → α) (step : Nat → Node Tree → Node α → α)

mutual

/-- The value of a tree, computed by `step` from a node and the values of its children. -/
def fold : Tree → α
  | .node pos top => step pos top (foldSlots top)
  | t => leaf t

/-- The values of what stands in the slots of a node. -/
def foldSlots : Node Tree → Node α
  | .program body => .program (foldAll body)
  | .importFrom specifiers source => .importFrom (foldAll specifiers) source
  | .importName imported bound => .importName imported bound
  | .importDefault bound => .importDefault bound
  | .importAll bound => .importAll bound
  | .exportDeclaration d => .exportDeclaration (fold d)
  | .exportDefault e => .exportDefault (fold e)
  | .varDeclaration keyword ds => .varDeclaration keyword (foldAll ds)
  | .declarator name init => .declarator name (fold init)
  | .functionDeclaration name params body => .functionDeclaration name params (fold body)
  | .block body => .block (foldAll body)
  | .expressionStatement e => .expressionStatement (fold e)
  | .ifElse c y n => .ifElse (fold c) (fold y) (fold n)
  | .returnStatement e => .returnStatement (fold e)
  | .throwStatement e => .throwStatement (fold e)
  | .emptyStatement => .emptyStatement
  | .identifier name => .identifier name
  | .literal value => .literal value
  | .call callee args => .call (fold callee) (foldAll args)
  | .construct callee args => .construct (fold callee) (foldAll args)
  | .member o name => .member (fold o) name
  | .element o i => .element (fold o) (fold i)
  | .unary op e => .unary op (fold e)
  | .binary l op r => .binary (fold l) op (fold r)
  | .assignment t op v => .assignment (fold t) op (fold v)
  | .conditional c y n => .conditional (fold c) (fold y) (fold n)
  | .object ps => .object (foldAll ps)
  | .property key quoted v shorthand => .property key quoted (fold v) shorthand
  | .array es => .array (foldAll es)
  | .functionExpression name params body => .functionExpression name params (fold body)
  | .arrow params body => .arrow params (fold body)
  | .parenthesized e => .parenthesized (fold e)

/-- The values of several trees. -/
def foldAll : List Tree → List α
  | [] => []
  | t :: ts => fold t :: foldAll ts

end

theorem foldAll_eq_map (ts : List Tree) : foldAll leaf step ts = ts.map (fold leaf step) := by
  induction ts with
  | nil => rfl
  | cons t ts ih => rw [foldAll, ih, List.map_cons]

theorem foldSlots_eq_map (top : Node Tree) :
    foldSlots leaf step top = top.map (fold leaf step) := by
  cases top <;> simp only [foldSlots, Node.map, foldAll_eq_map]

@[simp] theorem fold_node (pos : Nat) (top : Node Tree) :
    fold leaf step (.node pos top) = step pos top (top.map (fold leaf step)) := by
  rw [fold, foldSlots_eq_map]

@[simp] theorem fold_absent : fold leaf step .absent = leaf .absent := rfl

@[simp] theorem fold_dangling : fold leaf step .dangling = leaf .dangling := rfl

end

/-- A tree with other nodes and other positions. -/
def relabel (ℓ : Node.Relabeling) (place : Nat → Nat) (t : Tree) : Tree :=
  t.fold id fun pos _ top => .node (place pos) (ℓ.apply top)

@[simp] theorem relabel_node (ℓ : Node.Relabeling) (place : Nat → Nat) (pos : Nat)
    (top : Node Tree) :
    relabel ℓ place (.node pos top) = .node (place pos) (ℓ.apply (top.map (relabel ℓ place))) :=
  fold_node ..

@[simp] theorem relabel_absent (ℓ : Node.Relabeling) (place : Nat → Nat) :
    relabel ℓ place .absent = .absent := rfl

@[simp] theorem relabel_dangling (ℓ : Node.Relabeling) (place : Nat → Nat) :
    relabel ℓ place .dangling = .dangling := rfl

/-- A tree without its positions. -/
def bare (t : Tree) : Tree :=
  t.fold id fun _ _ top => .node 0 top

@[simp] theorem bare_node (pos : Nat) (top : Node Tree) :
    bare (.node pos top) = .node 0 (top.map bare) :=
  fold_node ..

@[simp] theorem bare_absent : bare .absent = .absent := rfl

@[simp] theorem bare_dangling : bare .dangling = .dangling := rfl

/-- The nodes of a tree, each in front of those below it. -/
def nodes (t : Tree) : List (Node Tree) :=
  t.fold (fun _ => []) fun _ top below => top :: below.children.flatten

@[simp] theorem nodes_node (pos : Nat) (top : Node Tree) :
    nodes (.node pos top) = top :: top.children.flatMap nodes := by
  rw [nodes, fold_node, Node.children_map]
  rfl

@[simp] theorem nodes_absent : nodes .absent = [] := rfl

@[simp] theorem nodes_dangling : nodes .dangling = [] := rfl

theorem mem_nodes_node {pos : Nat} {top n : Node Tree} :
    n ∈ (Tree.node pos top).nodes ↔ n = top ∨ ∃ c ∈ top.children, n ∈ c.nodes := by
  rw [nodes_node, List.mem_cons, List.mem_flatMap]

theorem mem_nodes {pos : Nat} {top : Node Tree} : top ∈ (Tree.node pos top).nodes :=
  mem_nodes_node.2 (.inl rfl)

theorem nodes_subset {pos : Nat} {top : Node Tree} {c : Tree} (hc : c ∈ top.children) :
    c.nodes ⊆ (Tree.node pos top).nodes :=
  fun _ hn => mem_nodes_node.2 (.inr ⟨c, hc, hn⟩)

theorem nodes_bare (t : Tree) : t.bare.nodes = t.nodes.map fun n => n.map bare := by
  induction t using Tree.induct with
  | absent => rfl
  | dangling => rfl
  | node pos top ih =>
    rw [bare_node, nodes_node, nodes_node, List.map_cons, Node.children_map, List.flatMap_map,
      List.map_flatMap, List.flatMap_congr ih]

/-- The numerals that the text of a tree holds, in their order: numbers and property keys. -/
def numerals (t : Tree) : List String :=
  t.fold (fun _ => []) fun _ _ top => match top with
    | .literal (.number spelling) => [spelling]
    | .property key quoted value shorthand =>
      (if !quoted && (Word.key key).kind = .number then [key] else []) ++
        if shorthand then [] else value
    | top => top.children.flatten

section

variable {pos : Nat}

theorem numerals_node {top : Node Tree} (hl : ∀ v, top ≠ .literal v)
    (hp : ∀ key quoted v shorthand, top ≠ .property key quoted v shorthand) :
    numerals (.node pos top) = top.children.flatMap numerals := by
  have hmap : ((top.map numerals).children.flatten) = top.children.flatMap numerals := by
    rw [Node.children_map]
    rfl
  rw [← hmap, numerals, fold_node]
  cases top <;> first | rfl | exact absurd rfl (hl _) | exact absurd rfl (hp _ _ _ _)

@[simp] theorem numerals_number {spelling : String} :
    numerals (.node pos (.literal (.number spelling))) = [spelling] :=
  fold_node ..

theorem numerals_literal {v : Literal} (h : ∀ spelling, v ≠ .number spelling) :
    numerals (.node pos (.literal v)) = [] := by
  rw [numerals, fold_node]
  cases v <;> first | rfl | exact absurd rfl (h _)

theorem numerals_property {key : String} {quoted shorthand : Bool} {v : Tree} :
    numerals (.node pos (.property key quoted v shorthand)) =
      (if !quoted && (Word.key key).kind = .number then [key] else []) ++
        if shorthand then [] else v.numerals :=
  fold_node ..

@[simp] theorem numerals_absent : numerals .absent = [] := rfl

end

end Tree

end DebugGuard
