import DebugGuard.Script.Operator
import DebugGuard.Script.Piece
import DebugGuard.Script.Tree

/-!
# Printing trees

A statement stands on a line of its own, indented by two blanks for each block around it.  An
expression is put into parentheses where it binds looser than its place asks for.

The functions below choose words and the gaps between them.  `Tree.renderScript` is the text of the
statements of a script, `Tree.render` that of any tree.  A slot without a node prints nothing.
-/

namespace DebugGuard

/-! ### How tightly nodes bind -/

namespace Strength

/-- Assignments and arrow functions bind loosest. -/
def assignment : Nat := 2

/-- A choice between two expressions. -/
def conditional : Nat := 3

/-- The loosest binary operator; the others follow by their precedence. -/
def operators : Nat := 4

/-- A unary operator with its operand. -/
def unary : Nat := 15

/-- Calls and accesses. -/
def call : Nat := 17

/-- What is never put into parentheses. -/
def primary : Nat := 20

end Strength

/-- How tightly a node binds; what is no expression binds like a primary one. -/
def Node.strength {α : Type} : Node α → Nat
  | .assignment .. | .arrow .. => Strength.assignment
  | .conditional .. => Strength.conditional
  | .binary _ op _ => Strength.operators + (Operator.precedence? op).getD 0
  | .unary .. => Strength.unary
  | .call .. | .construct .. | .member .. | .element .. => Strength.call
  | _ => Strength.primary

namespace Render

open Piece

/-- Parentheses around pieces, if they are needed. -/
def inParens (needed : Bool) (ps : List Piece) : List Piece :=
  if needed then mark "(" :: ps ++ [mark ")"] else ps

/-- The word of a literal; a number keeps its spelling. -/
def literal : Literal → Piece
  | .string value => string value
  | .number spelling => number spelling
  | .boolean true => name "true"
  | .boolean false => name "false"
  | .null => name "null"

/-- Parameters in parentheses. -/
def parameters (params : List String) : List Piece :=
  mark "(" :: commas (params.map fun p => [name p]) ++ [mark ")"]

/-- Parameters of an arrow function, where a single one stands alone. -/
def arrowParameters : List String → List Piece
  | [single] => [name single]
  | params => parameters params

/-- A unary operator with the blank that keeps it apart from its operand: behind a word, and between
two signs that would run together. -/
def unaryOperator (op : String) (operand : Tree) : List Piece :=
  let isWord := op.toList.all Char.isAlpha
  let signs := (op == "-" || op == "+") && operand.topIs fun
    | .unary inner _ => op.toList.isPrefixOf inner.toList
    | _ => false
  .word (.operator op) :: if isWord || signs then [space] else []

/-- The clause of a specifier that stands alone: a default one, or all names. -/
def aloneClause (t : Tree) : Option (List Piece) :=
  match t.top? with
  | some (.importDefault bound) => some [name bound]
  | some (.importAll bound) => some [mark "*", space, name "as", space, name bound]
  | _ => none

/-- The clause of a specifier that stands in braces. -/
def nameClause (t : Tree) : Option (List Piece) :=
  match t.top? with
  | some (.importName imported bound) =>
    some (if imported == bound then [name bound]
      else [name imported, space, name "as", space, name bound])
  | _ => none

/-- The clauses of an import: those that stand alone, then the names in braces. -/
def importClauses (specifiers : List Tree) : List (List Piece) :=
  let alone := specifiers.filterMap aloneClause
  let named := specifiers.filterMap nameClause
  if named.isEmpty then alone
  else alone ++ [mark "\x7b" :: space :: commas named ++ [space, mark "\x7d"]]

/-- An import; without specifiers it has no `from`. -/
def importStatement (specifiers : List Tree) (source : String) : List Piece :=
  if specifiers.isEmpty then [name "import", space, string source, mark ";"]
  else name "import" :: space :: commas (importClauses specifiers) ++
    [space, name "from", space, string source, mark ";"]

/-- An expression whose text starts with a brace or the word `function` would be read as a block or
a declaration if a statement started with it. -/
def startsLikeStatement : Tree → Bool
  | .node _ (.object _) => true
  | .node _ (.functionExpression ..) => true
  | .node _ (.call callee _) => startsLikeStatement callee
  | .node _ (.member object _) => startsLikeStatement object
  | .node _ (.element object _) => startsLikeStatement object
  | .node _ (.binary left _ _) => startsLikeStatement left
  | .node _ (.assignment target _ _) => startsLikeStatement target
  | .node _ (.conditional condition _ _) => startsLikeStatement condition
  | _ => false

/-- A property whose value is printed as `value`. -/
def property (key : String) (quoted shorthand : Bool) (value : List Piece) : List Piece :=
  if shorthand then [.word (.key key)]
  else (if quoted then string key else .word (.key key)) :: mark ":" :: space :: value

/-- Lines between braces that stand at the given depth. -/
def braces (depth : Nat) (isEmpty : Bool) (lines : List Piece) : List Piece :=
  if isEmpty then [mark "\x7b", mark "\x7d"]
  else mark "\x7b" :: .lineFeed :: lines ++ [indent depth, mark "\x7d"]

mutual

/-- An expression at a place that asks for a strength of at least `least`. -/
def expression (depth least : Nat) : Tree → List Piece
  | .node _ top => inParens (top.strength < least) (bare depth top)
  | _ => []

/-- An expression without parentheses of its own. -/
def bare (depth : Nat) : Node Tree → List Piece
  | .identifier x => [name x]
  | .literal value => [literal value]
  | .parenthesized e => mark "(" :: expression depth 0 e ++ [mark ")"]
  | .call callee args =>
    expression depth Strength.call callee ++ mark "(" :: commas (expressions depth args) ++
      [mark ")"]
  | .construct callee args =>
    name "new" :: space :: expression depth Strength.call callee ++
      mark "(" :: commas (expressions depth args) ++ [mark ")"]
  | .member o property => expression depth Strength.call o ++ [mark ".", name property]
  | .element o i =>
    expression depth Strength.call o ++ mark "[" :: expression depth 0 i ++ [mark "]"]
  | .unary op e => unaryOperator op e ++ expression depth Strength.unary e
  | .binary l op r =>
    let strength := Strength.operators + (Operator.precedence? op).getD 0
    expression depth strength l ++ space :: .word (.operator op) :: space ::
      expression depth (strength + 1) r
  | .assignment t op v =>
    expression depth Strength.call t ++ space :: .word (.operator op) :: space ::
      expression depth Strength.assignment v
  | .conditional c y n =>
    expression depth (Strength.conditional + 1) c ++ space :: mark "?" :: space ::
      expression depth Strength.assignment y ++ space :: mark ":" :: space ::
      expression depth Strength.assignment n
  | .object ps =>
    if ps.isEmpty then [mark "\x7b", mark "\x7d"]
    else mark "\x7b" :: space :: commas (properties depth ps) ++ [space, mark "\x7d"]
  | .array es => mark "[" :: commas (expressions depth es) ++ [mark "]"]
  | .functionExpression x params body =>
    name "function" :: space :: (x.elim [] fun x => [name x]) ++ parameters params ++
      space :: block depth body
  | .arrow params body =>
    arrowParameters params ++ space :: mark "=>" :: space :: arrowBody depth body
  | .property key quoted value shorthand =>
    property key quoted shorthand (expression depth Strength.assignment value)
  | _ => []

/-- Expressions that stand between commas. -/
def expressions (depth : Nat) : List Tree → List (List Piece)
  | [] => []
  | t :: ts => expression depth Strength.assignment t :: expressions depth ts

/-- The properties of an object; anything else among them prints nothing. -/
def properties (depth : Nat) : List Tree → List (List Piece)
  | [] => []
  | t :: ts => propertyOf depth t :: properties depth ts

/-- A property; anything else prints nothing. -/
def propertyOf (depth : Nat) : Tree → List Piece
  | .node _ (.property key quoted value shorthand) =>
    property key quoted shorthand (expression depth Strength.assignment value)
  | _ => []

/-- The body of an arrow function: a block, or an expression, where an object is put into
parentheses. -/
def arrowBody (depth : Nat) : Tree → List Piece
  | .node _ top =>
    if top.isBlock then braced depth top
    else inParens (top.isObject || top.strength < Strength.assignment) (bare depth top)
  | _ => []

/-- The statements of a block or a script in braces; anything else counts as an empty block. -/
def block (depth : Nat) : Tree → List Piece
  | .node _ top => braced depth top
  | _ => [mark "\x7b", mark "\x7d"]

/-- The statements of a node in braces. -/
def braced (depth : Nat) : Node Tree → List Piece
  | .block body => braces depth body.isEmpty (lines (depth + 1) body)
  | .program body => braces depth body.isEmpty (lines (depth + 1) body)
  | _ => [mark "\x7b", mark "\x7d"]

/-- A statement; an expression in its place is printed without a semicolon. -/
def statement (depth : Nat) : Tree → List Piece
  | .node _ top => if top.isStatement then sentence depth top else bare depth top
  | _ => []

/-- A node that is a statement, without the blanks in front of its line. -/
def sentence (depth : Nat) : Node Tree → List Piece
  | .program body => lines depth body
  | .importFrom specifiers source => importStatement specifiers source
  | .exportDeclaration d => name "export" :: space :: statement depth d
  | .exportDefault e =>
    name "export" :: space :: name "default" :: space ::
      expression depth Strength.assignment e ++ [mark ";"]
  | .varDeclaration keyword ds =>
    name keyword.text :: space :: commas (declarators depth ds) ++ [mark ";"]
  | .functionDeclaration x params body =>
    name "function" :: space :: name x :: parameters params ++ space :: block depth body
  | .block body => braces depth body.isEmpty (lines (depth + 1) body)
  | .expressionStatement e =>
    inParens (startsLikeStatement e) (expression depth 0 e) ++ [mark ";"]
  | .ifElse c y n =>
    name "if" :: space :: mark "(" :: expression depth 0 c ++ mark ")" :: space ::
      statement depth y ++
      (if n.isFilled then
        (if y.topIs Node.isBlock then [space] else [.lineFeed, indent depth]) ++
          name "else" :: space :: statement depth n
      else [])
  | .returnStatement e =>
    name "return" :: (if e.isFilled then space :: expression depth 0 e else []) ++ [mark ";"]
  | .throwStatement e => name "throw" :: space :: expression depth 0 e ++ [mark ";"]
  | .emptyStatement => [mark ";"]
  | _ => []

/-- The declarators of a declaration; anything else among them prints nothing. -/
def declarators (depth : Nat) : List Tree → List (List Piece)
  | [] => []
  | t :: ts => declaratorOf depth t :: declarators depth ts

/-- A declarator, with its initial value if it has one. -/
def declaratorOf (depth : Nat) : Tree → List Piece
  | .node _ (.declarator x init) =>
    name x :: if init.isFilled then
      space :: mark "=" :: space :: expression depth Strength.assignment init
    else []
  | _ => []

/-- Each statement on a line of its own. -/
def lines (depth : Nat) : List Tree → List Piece
  | [] => []
  | t :: ts => indent depth :: statement depth t ++ .lineFeed :: lines depth ts

end

end Render

namespace Tree

/-- The text of a statement or an expression. -/
def render (t : Tree) : String :=
  Piece.text (Render.statement 0 t)

/-- The text of the statements of a script or a block, without braces. -/
def renderScript (t : Tree) : String :=
  Piece.text (match t.top?.bind Node.statements? with
    | some body => Render.lines 0 body
    | none => [])

end Tree

end DebugGuard
