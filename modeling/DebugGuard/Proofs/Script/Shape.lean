import DebugGuard.Proofs.Script.Tree
import DebugGuard.Proofs.Script.Word
import DebugGuard.Script.Render

/-!
# Trees that are phrases of the grammar

`Tree.Fits` says that a tree could come from the grammar: its names can be names, its operators are
operators, no operand binds looser than its place asks for, and what stands at the left edge of a
statement does not make it a statement of another kind.  Positions do not matter.
-/

namespace DebugGuard

/-- Spelled like a name. -/
def IsSpelled (x : String) : Prop :=
  Word.Valid ⟨.identifier, x⟩

/-- Spelled like a name that a binding may have. -/
def IsBindable (x : String) : Prop :=
  IsSpelled x ∧ Token.isReserved x = false

/-- The word of a literal. -/
def Literal.word : Literal → Word
  | .string value => ⟨.string, value⟩
  | .number spelling => ⟨.number, spelling⟩
  | .boolean true => ⟨.identifier, "true"⟩
  | .boolean false => ⟨.identifier, "false"⟩
  | .null => ⟨.identifier, "null"⟩

namespace Node

variable {α : Type}

/-- A node that is printed as a single word. -/
def isAtom : Node α → Bool
  | .identifier _ | .literal _ => true
  | _ => false

/-- An arrow function. -/
def isArrow : Node α → Bool
  | .arrow .. => true
  | _ => false

/-- A node whose text starts with that of an operand. -/
def startsWithOperand : Node α → Bool
  | .call .. | .member .. | .element .. | .binary .. | .assignment .. | .conditional .. => true
  | _ => false

/-- A declaration that can be exported under its own names. -/
def isDeclaration : Node α → Bool
  | .varDeclaration .. | .functionDeclaration .. => true
  | _ => false

end Node

namespace Tree

/-- How tightly a tree binds as an expression. -/
def strength : Tree → Nat
  | .node _ top => top.strength
  | _ => Strength.primary

/-! ### The left edge -/

/-- The first words of a phrase that goes on with `w` behind a first part. -/
def follow (first : Tree) (opening : List Word) (w : Word) : List Word :=
  if first.topIs Node.isAtom then opening ++ [w] else opening

/-- The first words of an expression, as many as are needed to see that it is not a statement or an
arrow function: two, if the first one is spelled like a name and does not stand alone. -/
def opening : Tree → List Word
  | .node _ (.identifier x) => [⟨.identifier, x⟩]
  | .node _ (.literal v) => [v.word]
  | .node _ (.parenthesized _) => [⟨.mark, "("⟩]
  | .node _ (.call c _) => follow c (opening c) ⟨.mark, "("⟩
  | .node _ (.construct c _) => ⟨.identifier, "new"⟩ :: (opening c).take 1
  | .node _ (.member o _) => follow o (opening o) ⟨.mark, "."⟩
  | .node _ (.element o _) => follow o (opening o) ⟨.mark, "["⟩
  | .node _ (.unary op e) => .operator op :: (opening e).take 1
  | .node _ (.binary l op _) => follow l (opening l) (.operator op)
  | .node _ (.assignment t op _) => follow t (opening t) (.operator op)
  | .node _ (.conditional c _ _) => follow c (opening c) ⟨.mark, "?"⟩
  | .node _ (.object _) => [⟨.mark, "\x7b"⟩]
  | .node _ (.array _) => [⟨.mark, "["⟩]
  | .node _ (.functionExpression (some x) _ _) => [⟨.identifier, "function"⟩, ⟨.identifier, x⟩]
  | .node _ (.functionExpression none _ _) => [⟨.identifier, "function"⟩, ⟨.mark, "("⟩]
  | .node _ (.arrow [x] _) => [⟨.identifier, x⟩, ⟨.mark, "=>"⟩]
  | .node _ (.arrow _ _) => [⟨.mark, "("⟩]
  | _ => []

theorem opening_of_atom {t : Tree} (h : t.topIs Node.isAtom = true) : ∃ w, t.opening = [w] := by
  match t, h with
  | .node _ (.identifier _), _ => exact ⟨_, rfl⟩
  | .node _ (.literal _), _ => exact ⟨_, rfl⟩

/-- The expression starts with the word. -/
def Opens (e : Tree) (w : Word) : Prop :=
  e.opening.head? = some w

/-- The expression starts like a declaration with the word `let`. -/
def opensLet (e : Tree) : Prop :=
  ∃ x, e.opening = [⟨.identifier, "let"⟩, ⟨.identifier, x⟩]

/-- A chain of accesses to something primary, which may follow the word `new`. -/
def isPath : Tree → Bool
  | .node _ (.member o _) => isPath o
  | .node _ (.element o _) => isPath o
  | t => decide (Strength.primary ≤ t.strength)

/-- The word `else` behind the statement would belong to an `if` inside it. -/
def endsOpen : Tree → Bool
  | .node _ (.ifElse _ _ .absent) => true
  | .node _ (.ifElse _ _ no) => endsOpen no
  | _ => false

/-! ### Phrases -/

/-- What a tree may stand for. -/
inductive Phrase where
  | statement
  | declarator (keyword : VarKeyword)
  | expression
  | property

/-- A specifier in the braces of an import. -/
def IsImportName (t : Tree) : Prop :=
  ∃ pos imported bound, t = .node pos (.importName imported bound) ∧ IsSpelled imported ∧
    (bound = imported ∨ IsBindable bound)

/-- A default specifier. -/
def IsImportDefault (t : Tree) : Prop :=
  ∃ pos bound, t = .node pos (.importDefault bound) ∧ IsBindable bound

/-- A specifier of all names. -/
def IsImportAll (t : Tree) : Prop :=
  ∃ pos bound, t = .node pos (.importAll bound) ∧ IsBindable bound

/-- The tree could come from the grammar as a phrase of the given kind. -/
inductive Fits : Phrase → Tree → Prop
  | importFrom {pos first rest source} (hfirst : first = [] ∨ ∃ s, first = [s] ∧ IsImportDefault s)
      (hrest : (∃ s, rest = [s] ∧ IsImportAll s) ∨ ∀ s ∈ rest, IsImportName s) :
      Fits .statement (.node pos (.importFrom (first ++ rest) source))
  | exportDeclaration {pos d} (hd : Fits .statement d) (ht : d.topIs Node.isDeclaration = true) :
      Fits .statement (.node pos (.exportDeclaration d))
  | exportDefault {pos e} (he : Fits .expression e)
      (ho : e.Opens ⟨.identifier, "function"⟩ → e.topIs Node.isFunction = true) :
      Fits .statement (.node pos (.exportDefault e))
  | varDeclaration {pos keyword ds} (hne : ds ≠ [])
      (hds : ∀ d ∈ ds, Fits (.declarator keyword) d) :
      Fits .statement (.node pos (.varDeclaration keyword ds))
  | functionDeclaration {pos name params body} (hn : IsBindable name)
      (hp : ∀ x ∈ params, IsBindable x) (hb : Fits .statement body)
      (ht : body.topIs Node.isBlock = true) :
      Fits .statement (.node pos (.functionDeclaration name params body))
  | block {pos body} (hs : ∀ s ∈ body, Fits .statement s) :
      Fits .statement (.node pos (.block body))
  | expressionStatement {pos e} (he : Fits .expression e) (hb : ¬e.Opens ⟨.mark, "\x7b"⟩)
      (hf : ¬e.Opens ⟨.identifier, "function"⟩) (hl : ¬e.opensLet) :
      Fits .statement (.node pos (.expressionStatement e))
  | ifOnly {pos c y} (hc : Fits .expression c) (hy : Fits .statement y) :
      Fits .statement (.node pos (.ifElse c y .absent))
  | ifElse {pos c y n} (hc : Fits .expression c) (hy : Fits .statement y) (hn : Fits .statement n)
      (ho : y.endsOpen = false) :
      Fits .statement (.node pos (.ifElse c y n))
  | returnOnly {pos} : Fits .statement (.node pos (.returnStatement .absent))
  | returnStatement {pos e} (he : Fits .expression e) :
      Fits .statement (.node pos (.returnStatement e))
  | throwStatement {pos e} (he : Fits .expression e) :
      Fits .statement (.node pos (.throwStatement e))
  | emptyStatement {pos} : Fits .statement (.node pos .emptyStatement)
  | uninitialized {pos keyword name} (hn : IsBindable name) (hk : keyword ≠ .const) :
      Fits (.declarator keyword) (.node pos (.declarator name .absent))
  | declarator {pos keyword name init} (hn : IsBindable name) (hi : Fits .expression init) :
      Fits (.declarator keyword) (.node pos (.declarator name init))
  | identifier {pos x} (hx : IsSpelled x) (hr : x = "this" ∨ Token.isReserved x = false) :
      Fits .expression (.node pos (.identifier x))
  | literal {pos v} (hv : v.word.Valid) : Fits .expression (.node pos (.literal v))
  | call {pos c args} (hc : Fits .expression c) (hs : Strength.call ≤ c.strength)
      (hargs : ∀ a ∈ args, Fits .expression a) :
      Fits .expression (.node pos (.call c args))
  | construct {pos c args} (hc : Fits .expression c) (hp : c.isPath = true)
      (hargs : ∀ a ∈ args, Fits .expression a) :
      Fits .expression (.node pos (.construct c args))
  | member {pos o name} (ho : Fits .expression o) (hs : Strength.call ≤ o.strength)
      (hn : IsSpelled name) :
      Fits .expression (.node pos (.member o name))
  | element {pos o i} (ho : Fits .expression o) (hs : Strength.call ≤ o.strength)
      (hi : Fits .expression i) :
      Fits .expression (.node pos (.element o i))
  | unary {pos op e} (hop : op ∈ Operator.unaryMarks ++ Operator.unaryWords)
      (he : Fits .expression e) (hs : Strength.unary ≤ e.strength) :
      Fits .expression (.node pos (.unary op e))
  | binary {pos l op p r} (hop : Operator.precedence? op = some p) (hl : Fits .expression l)
      (hr : Fits .expression r) (hsl : Strength.operators + p ≤ l.strength)
      (hsr : Strength.operators + p + 1 ≤ r.strength) :
      Fits .expression (.node pos (.binary l op r))
  | assignment {pos t op v} (hop : op ∈ Operator.assigning) (ht : Fits .expression t)
      (ha : t.topIs Node.isAssignable = true) (hv : Fits .expression v) :
      Fits .expression (.node pos (.assignment t op v))
  | conditional {pos c y n} (hc : Fits .expression c) (hs : Strength.operators ≤ c.strength)
      (hy : Fits .expression y) (hn : Fits .expression n) :
      Fits .expression (.node pos (.conditional c y n))
  | object {pos ps} (hps : ∀ p ∈ ps, Fits .property p) :
      Fits .expression (.node pos (.object ps))
  | array {pos es} (hes : ∀ e ∈ es, Fits .expression e) :
      Fits .expression (.node pos (.array es))
  | functionExpression {pos name params body} (hn : ∀ x ∈ name, IsBindable x)
      (hp : ∀ x ∈ params, IsBindable x) (hb : Fits .statement body)
      (ht : body.topIs Node.isBlock = true) :
      Fits .expression (.node pos (.functionExpression name params body))
  | arrowBlock {pos params body} (hp : ∀ x ∈ params, IsBindable x) (hb : Fits .statement body)
      (ht : body.topIs Node.isBlock = true) :
      Fits .expression (.node pos (.arrow params body))
  | arrow {pos params body} (hp : ∀ x ∈ params, IsBindable x) (hb : Fits .expression body)
      (ho : ¬body.Opens ⟨.mark, "\x7b"⟩) :
      Fits .expression (.node pos (.arrow params body))
  | parenthesized {pos e} (he : Fits .expression e) :
      Fits .expression (.node pos (.parenthesized e))
  | shorthand {pos pos' key} (hk : (Word.key key).Valid) :
      Fits .property (.node pos (.property key false (.node pos' (.identifier key)) true))
  | property {pos key quoted v} (hk : quoted = false → (Word.key key).Valid)
      (hv : Fits .expression v) :
      Fits .property (.node pos (.property key quoted v false))

end Tree

end DebugGuard
