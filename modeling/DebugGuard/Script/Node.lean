/-!
# Nodes

One node of a script, with a parameter for what stands in its child slots.  With trees in the slots
it is the top of a tree; with references in the slots it is an entry of a store of nodes.
-/

namespace DebugGuard

/-- The word that opens a variable declaration. -/
inductive VarKeyword where
  | var
  | let
  | const
  deriving DecidableEq, Repr

/-- The word as it is written. -/
def VarKeyword.text : VarKeyword → String
  | .var => "var"
  | .let => "let"
  | .const => "const"

/-- A literal.  A number keeps the spelling it has in the source. -/
inductive Literal where
  | string (value : String)
  | number (spelling : String)
  | boolean (value : Bool)
  | null
  deriving DecidableEq, Repr

/-- A node whose child slots hold values of type `α`. -/
inductive Node (α : Type) where
  | program (body : List α)
  | importFrom (specifiers : List α) (source : String)
  /-- One name in braces: `imported as bound`. -/
  | importName (imported bound : String)
  | importDefault (bound : String)
  /-- All names at once: `* as bound`. -/
  | importAll (bound : String)
  | exportDeclaration (declaration : α)
  | exportDefault (value : α)
  | varDeclaration (keyword : VarKeyword) (declarators : List α)
  | declarator (name : String) (init : α)
  | functionDeclaration (name : String) (params : List String) (body : α)
  | block (body : List α)
  | expressionStatement (expression : α)
  | ifElse (condition yes no : α)
  | returnStatement (value : α)
  | throwStatement (value : α)
  | emptyStatement
  | identifier (name : String)
  | literal (value : Literal)
  | call (callee : α) (arguments : List α)
  | construct (callee : α) (arguments : List α)
  /-- Access by name: `object.property`. -/
  | member (object : α) (property : String)
  /-- Access by value: `object[index]`. -/
  | element (object index : α)
  | unary (op : String) (operand : α)
  | binary (left : α) (op : String) (right : α)
  | assignment (target : α) (op : String) (value : α)
  | conditional (condition yes no : α)
  | object (properties : List α)
  /-- A property `key: value`, or `key` alone if `shorthand` holds. -/
  | property (key : String) (quoted : Bool) (value : α) (shorthand : Bool)
  | array (elements : List α)
  | functionExpression (name : Option String) (params : List String) (body : α)
  /-- An arrow function; its body is a block or an expression. -/
  | arrow (params : List String) (body : α)
  | parenthesized (expression : α)
  deriving DecidableEq, Repr

namespace Node

variable {α β : Type}

/-- What stands in the child slots, in source order. -/
def children : Node α → List α
  | .program body => body
  | .importFrom specifiers _ => specifiers
  | .exportDeclaration d => [d]
  | .exportDefault e => [e]
  | .varDeclaration _ ds => ds
  | .declarator _ init => [init]
  | .functionDeclaration _ _ body => [body]
  | .block body => body
  | .expressionStatement e => [e]
  | .ifElse c y n => [c, y, n]
  | .returnStatement e => [e]
  | .throwStatement e => [e]
  | .call callee args => callee :: args
  | .construct callee args => callee :: args
  | .member o _ => [o]
  | .element o i => [o, i]
  | .unary _ e => [e]
  | .binary l _ r => [l, r]
  | .assignment t _ v => [t, v]
  | .conditional c y n => [c, y, n]
  | .object ps => ps
  | .property _ _ v _ => [v]
  | .array es => es
  | .functionExpression _ _ body => [body]
  | .arrow _ body => [body]
  | .parenthesized e => [e]
  | .importName .. | .importDefault _ | .importAll _ | .emptyStatement | .identifier _
  | .literal _ => []

/-- Changes what stands in the child slots. -/
def map (f : α → β) : Node α → Node β
  | .program body => .program (body.map f)
  | .importFrom specifiers source => .importFrom (specifiers.map f) source
  | .importName imported bound => .importName imported bound
  | .importDefault bound => .importDefault bound
  | .importAll bound => .importAll bound
  | .exportDeclaration d => .exportDeclaration (f d)
  | .exportDefault e => .exportDefault (f e)
  | .varDeclaration k ds => .varDeclaration k (ds.map f)
  | .declarator name init => .declarator name (f init)
  | .functionDeclaration name params body => .functionDeclaration name params (f body)
  | .block body => .block (body.map f)
  | .expressionStatement e => .expressionStatement (f e)
  | .ifElse c y n => .ifElse (f c) (f y) (f n)
  | .returnStatement e => .returnStatement (f e)
  | .throwStatement e => .throwStatement (f e)
  | .emptyStatement => .emptyStatement
  | .identifier name => .identifier name
  | .literal v => .literal v
  | .call callee args => .call (f callee) (args.map f)
  | .construct callee args => .construct (f callee) (args.map f)
  | .member o p => .member (f o) p
  | .element o i => .element (f o) (f i)
  | .unary op e => .unary op (f e)
  | .binary l op r => .binary (f l) op (f r)
  | .assignment t op v => .assignment (f t) op (f v)
  | .conditional c y n => .conditional (f c) (f y) (f n)
  | .object ps => .object (ps.map f)
  | .property key quoted v shorthand => .property key quoted (f v) shorthand
  | .array es => .array (es.map f)
  | .functionExpression name params body => .functionExpression name params (f body)
  | .arrow params body => .arrow params (f body)
  | .parenthesized e => .parenthesized (f e)

@[simp] theorem children_map (f : α → β) (n : Node α) : (n.map f).children = n.children.map f := by
  cases n <;> rfl

/-- The statement list of a program or a block. -/
def statements? : Node α → Option (List α)
  | .program body => some body
  | .block body => some body
  | _ => none

/-- Another statement list in a program or a block; any other node is left as it is. -/
def withStatements (body : List α) : Node α → Node α
  | .program _ => .program body
  | .block _ => .block body
  | n => n

/-- A function of any of the three forms, which has a scope of its own. -/
def isFunction : Node α → Bool
  | .functionDeclaration .. | .functionExpression .. | .arrow .. => true
  | _ => false

/-- A declaration that is exported under its own names. -/
def isExport : Node α → Bool
  | .exportDeclaration _ => true
  | _ => false

/-- Statements in braces. -/
def isBlock : Node α → Bool
  | .block _ => true
  | _ => false

/-- An object literal. -/
def isObject : Node α → Bool
  | .object _ => true
  | _ => false

/-- A node that stands in a statement list of its own right. -/
def isStatement : Node α → Bool
  | .program _ | .importFrom .. | .exportDeclaration _ | .exportDefault _ | .varDeclaration ..
  | .functionDeclaration .. | .block _ | .expressionStatement _ | .ifElse .. | .returnStatement _
  | .throwStatement _ | .emptyStatement => true
  | _ => false

/-- A node that an assignment may have on its left. -/
def isAssignable : Node α → Bool
  | .identifier _ | .member .. | .element .. => true
  | _ => false

theorem isAssignable_map (f : α → β) (n : Node α) : (n.map f).isAssignable = n.isAssignable := by
  cases n <;> rfl

/-- The names that a node itself declares or refers to. -/
def ownNames : Node α → List String
  | .identifier name => [name]
  | .declarator name _ => [name]
  | .importName _ bound => [bound]
  | .importDefault bound => [bound]
  | .importAll bound => [bound]
  | .functionDeclaration name params _ => name :: params
  | .functionExpression name params _ => name.toList ++ params
  | .arrow params _ => params
  | _ => []

/-- The name of the node's kind. -/
def kind : Node α → String
  | .program _ => "Program"
  | .importFrom .. => "ImportDeclaration"
  | .importName .. => "ImportSpecifier"
  | .importDefault _ => "ImportDefaultSpecifier"
  | .importAll _ => "ImportNamespaceSpecifier"
  | .exportDeclaration _ => "ExportNamedDeclaration"
  | .exportDefault _ => "ExportDefaultDeclaration"
  | .varDeclaration .. => "VariableDeclaration"
  | .declarator .. => "VariableDeclarator"
  | .functionDeclaration .. => "FunctionDeclaration"
  | .block _ => "Block"
  | .expressionStatement _ => "ExpressionStatement"
  | .ifElse .. => "IfStatement"
  | .returnStatement _ => "ReturnStatement"
  | .throwStatement _ => "ThrowStatement"
  | .emptyStatement => "EmptyStatement"
  | .identifier _ => "Identifier"
  | .literal _ => "Literal"
  | .call .. => "CallExpression"
  | .construct .. => "NewExpression"
  | .member .. => "MemberExpression"
  | .element .. => "ElementAccess"
  | .unary .. => "UnaryExpression"
  | .binary .. => "BinaryExpression"
  | .assignment .. => "AssignmentExpression"
  | .conditional .. => "ConditionalExpression"
  | .object _ => "ObjectLiteral"
  | .property .. => "Property"
  | .array _ => "ArrayLiteral"
  | .functionExpression .. => "FunctionExpression"
  | .arrow .. => "ArrowFunction"
  | .parenthesized _ => "Parenthesized"

end Node

end DebugGuard
