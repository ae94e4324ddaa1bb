import DebugGuard.Script.Cursor
import DebugGuard.Script.Scan

/-!
# The grammar

From tokens to a tree, by one function for each phrase of the grammar.  Every phrase takes at least
one token, so the phrases may call each other freely: a call either comes with fewer tokens, or with
the same tokens and a phrase further down (`termination_by`).

A node starts where the first token of its phrase does.
-/

namespace DebugGuard.Grammar

open Cursor

/-! ### Phrases without expressions -/

/-- One specifier in braces: `imported` or `imported as bound`. -/
def importName (ts : List Token) : Reading (Taken ts Tree) := do
  let ⟨imported, r, h⟩ ← anyName ts
  match word? "as" r with
  | some ⟨_, r', h'⟩ =>
    let ⟨bound, r'', h''⟩ ← name r'
    return ⟨.node (start ts) (.importName imported.text bound.text), r'', shorter_trans₃ h h' h''⟩
  | none => return ⟨.node (start ts) (.importName imported.text imported.text), r, h⟩

/-- The end of an import, behind its specifiers. -/
def importSource (start : Nat) (specifiers : List Tree) (ts : List Token) :
    Reading (Taken ts Tree) := do
  let ⟨_, r, _⟩ ← word "from" ts
  let ⟨source, r', _⟩ ← stringLiteral r
  let ⟨_, r'', _⟩ ← semicolon r'
  return ⟨.node start (.importFrom specifiers source.text), r'', by omega⟩

/-- The specifiers behind a default specifier, or all of them: a namespace or a list in braces. -/
def importNames (ts : List Token) : Reading (Taken ts (List Tree)) :=
  match mark? "*" ts with
  | some ⟨_, r, h⟩ => do
    let ⟨_, r', h'⟩ ← word "as" r
    let ⟨bound, r'', h''⟩ ← name r'
    return ⟨[.node (start ts) (.importAll bound.text)], r'', shorter_trans₃ h h' h''⟩
  | none => do
    let ⟨_, r, h⟩ ← mark "\x7b" ts
    let ⟨specifiers, r', h'⟩ ← commaList "\x7d" r fun us _ => importName us
    return ⟨specifiers, r', shorter_trans h h'⟩

/-- An import, of one of the forms `import "m"`, `import d from "m"`, `import * as n from "m"` and
`import d, { a, b as c } from "m"`. -/
def importStatement (ts : List Token) : Reading (Taken ts Tree) := do
  let ⟨_, r, h⟩ ← word "import" ts
  if (current r).kind = .string then
    let ⟨source, r', _⟩ ← stringLiteral r
    let ⟨_, r'', _⟩ ← semicolon r'
    return ⟨.node (start ts) (.importFrom [] source.text), r'', by omega⟩
  else if (current r).kind = .identifier then
    let ⟨bound, r', h'⟩ ← name r
    let first := Tree.node (start r) (.importDefault bound.text)
    match mark? "," r' with
    | none =>
      let ⟨t, r'', h''⟩ ← importSource (start ts) [first] r'
      return ⟨t, r'', shorter_trans₃ h h' h''⟩
    | some ⟨_, r'', _⟩ =>
      let ⟨specifiers, r₃, _⟩ ← importNames r''
      let ⟨t, r₄, _⟩ ← importSource (start ts) (first :: specifiers) r₃
      return ⟨t, r₄, by omega⟩
  else
    let ⟨specifiers, r', h'⟩ ← importNames r
    let ⟨t, r'', h''⟩ ← importSource (start ts) specifiers r'
    return ⟨t, r'', shorter_trans₃ h h' h''⟩

/-- The names of parameters in parentheses. -/
def parameters (ts : List Token) : Reading (Taken ts (List String)) := do
  let ⟨_, r, h⟩ ← mark "(" ts
  let ⟨names, r', h'⟩ ← commaList ")" r fun us _ => name us
  return ⟨names.map Token.text, r', shorter_trans h h'⟩

/-- The parameters of an arrow function: in parentheses, or one name. -/
def arrowParameters (ts : List Token) : Reading (Taken ts (List String)) :=
  if atMark "(" ts then parameters ts
  else do
    let ⟨n, r, h⟩ ← name ts
    return ⟨[n.text], r, h⟩

/-- The key of a property, and whether it is quoted. -/
def propertyKey (ts : List Token) : Reading (Taken ts (String × Bool)) :=
  match take? (fun t => t.kind = .string) ts with
  | some ⟨t, r, h⟩ => .ok ⟨(t.text, true), r, h⟩
  | none =>
    match take? (fun t => t.kind = .number || t.kind = .identifier) ts with
    | some ⟨t, r, h⟩ => .ok ⟨(t.text, false), r, h⟩
    | none => unexpected .name ts

/-- The word that opens a variable declaration; a token of any kind with that text will do. -/
def keyword? (t : Token) : Option VarKeyword :=
  if t.text == "const" then some .const
  else if t.text == "let" then some .let
  else if t.text == "var" then some .var
  else none

/-- A literal or a name, which is a phrase of one token. -/
def atom? (t : Token) : Option (Node Tree) :=
  match t.kind with
  | .string => some (.literal (.string t.text))
  | .number => some (.literal (.number t.text))
  | .identifier =>
    if t.text == "true" then some (.literal (.boolean true))
    else if t.text == "false" then some (.literal (.boolean false))
    else if t.text == "null" then some (.literal .null)
    else if t.text == "this" || !Token.isReserved t.text then some (.identifier t.text)
    else none
  | _ => none

/-- A mark or a word that stands before its operand. -/
def isUnary (t : Token) : Bool :=
  t.kind = .mark && Operator.unaryMarks.contains t.text ||
    t.kind = .identifier && Operator.unaryWords.contains t.text

/-- A mark that assigns. -/
def isAssigning (t : Token) : Bool :=
  t.kind = .mark && Operator.assigning.contains t.text

/-! ### Statements and expressions -/

mutual

/-- A statement, told by the token in front, and for `import` and `let` by the one behind it as
well. -/
def statement (ts : List Token) : Reading (Taken ts Tree) :=
  let t := current ts
  if t.isMark "\x7b" then block ts
  else if t.isMark ";" then do
    let ⟨_, r, h⟩ ← mark ";" ts
    return ⟨.node (start ts) .emptyStatement, r, h⟩
  else if t.isWord "import" && !((next ts).isMark "(" || (next ts).isMark ".") then
    importStatement ts
  else if t.isWord "export" then exportStatement ts
  else if t.isWord "const" || t.isWord "var" then varDeclaration ts
  else if t.isWord "let" && (next ts).kind = .identifier then varDeclaration ts
  else if t.isWord "function" then functionDeclaration ts
  else if t.isWord "if" then ifStatement ts
  else if t.isWord "return" then returnStatement ts
  else if t.isWord "throw" then throwStatement ts
  else expressionStatement ts
termination_by 11 * ts.length + 9

/-- The statements of a block and its closing brace. -/
def statements (ts : List Token) : Reading (Taken ts (List Tree)) :=
  match mark? "\x7d" ts with
  | some ⟨_, r, h⟩ => .ok ⟨[], r, h⟩
  | none =>
    if atEnd ts then unexpected (.mark "\x7d") ts
    else do
      let ⟨t, r, _⟩ ← statement ts
      let ⟨more, r', _⟩ ← statements r
      return ⟨t :: more, r', by omega⟩
termination_by 11 * ts.length + 10

/-- Statements in braces. -/
def block (ts : List Token) : Reading (Taken ts Tree) := do
  let ⟨_, r, _⟩ ← mark "\x7b" ts
  let ⟨body, r', _⟩ ← statements r
  return ⟨.node (start ts) (.block body), r', by omega⟩
termination_by 11 * ts.length + 8

/-- An expression and the end of the statement. -/
def expressionStatement (ts : List Token) : Reading (Taken ts Tree) := do
  let ⟨e, r, _⟩ ← expression ts
  let ⟨_, r', _⟩ ← semicolon r
  return ⟨.node (start ts) (.expressionStatement e), r', by omega⟩
termination_by 11 * ts.length + 8

/-- An export: a value behind `default`, or a declaration.  The words that open a declaration are told
by their text alone. -/
def exportStatement (ts : List Token) : Reading (Taken ts Tree) := do
  let ⟨_, r, _⟩ ← word "export" ts
  match word? "default" r with
  | some ⟨_, r', _⟩ =>
    let ⟨e, r'', _⟩ ← if atWord "function" r' then functionExpression r' else expression r'
    let ⟨_, r₃, _⟩ ← semicolon r''
    return ⟨.node (start ts) (.exportDefault e), r₃, by omega⟩
  | none =>
    let ⟨d, r', _⟩ ←
      if (keyword? (current r)).isSome then varDeclaration r
      else if (current r).text == "function" then functionDeclaration r
      else unexpected .declaration r
    return ⟨.node (start ts) (.exportDeclaration d), r', by omega⟩
termination_by 11 * ts.length + 8

/-- A declaration of variables and the end of the statement. -/
def varDeclaration (ts : List Token) : Reading (Taken ts Tree) :=
  match take? (fun t => (keyword? t).isSome) ts with
  | none => unexpected .declaration ts
  | some ⟨t, r, _⟩ => do
    let keyword := (keyword? t).getD .var
    let ⟨ds, r', _⟩ ← declarators keyword r
    let ⟨_, r'', _⟩ ← semicolon r'
    return ⟨.node (start ts) (.varDeclaration keyword ds), r'', by omega⟩
termination_by 11 * ts.length + 7

/-- Declarators with commas between them; a constant needs its initial value. -/
def declarators (keyword : VarKeyword) (ts : List Token) : Reading (Taken ts (List Tree)) := do
  let ⟨n, r, _⟩ ← name ts
  let ⟨init, r', _⟩ ← initializer keyword r
  let d := Tree.node (start ts) (.declarator n.text init)
  match mark? "," r' with
  | some ⟨_, r'', _⟩ =>
    let ⟨ds, r₃, _⟩ ← declarators keyword r''
    return ⟨d :: ds, r₃, by omega⟩
  | none => return ⟨[d], r', by omega⟩
termination_by 11 * ts.length + 1

/-- An initial value, if an equals sign is in front; only a constant has to have one. -/
def initializer (keyword : VarKeyword) (ts : List Token) : Reading (Passed ts Tree) :=
  match mark? "=" ts with
  | some ⟨_, r, _⟩ => do
    let ⟨e, r', _⟩ ← expression r
    return ⟨e, r', by omega⟩
  | none =>
    if keyword = .const then unexpected .initializer ts
    else .ok ⟨.absent, ts, Nat.le_refl _⟩
termination_by 11 * ts.length

/-- A function with a name. -/
def functionDeclaration (ts : List Token) : Reading (Taken ts Tree) := do
  let ⟨_, r, _⟩ ← word "function" ts
  let ⟨n, r', _⟩ ← name r
  let ⟨params, r'', _⟩ ← parameters r'
  let ⟨body, r₃, _⟩ ← block r''
  return ⟨.node (start ts) (.functionDeclaration n.text params body), r₃, by omega⟩
termination_by 11 * ts.length + 7

/-- An `if` takes the next `else` for its own. -/
def ifStatement (ts : List Token) : Reading (Taken ts Tree) := do
  let ⟨_, r, _⟩ ← word "if" ts
  let ⟨_, r', _⟩ ← mark "(" r
  let ⟨condition, r'', _⟩ ← expression r'
  let ⟨_, r₃, _⟩ ← mark ")" r''
  let ⟨yes, r₄, _⟩ ← statement r₃
  match word? "else" r₄ with
  | some ⟨_, r₅, _⟩ =>
    let ⟨no, r₆, _⟩ ← statement r₅
    return ⟨.node (start ts) (.ifElse condition yes no), r₆, by omega⟩
  | none => return ⟨.node (start ts) (.ifElse condition yes .absent), r₄, by omega⟩
termination_by 11 * ts.length + 8

/-- A `return` takes a value only from its own line. -/
def returnStatement (ts : List Token) : Reading (Taken ts Tree) := do
  let ⟨_, r, _⟩ ← word "return" ts
  if (current r).isMark ";" || endsStatement (current r) then
    let ⟨_, r', _⟩ ← semicolon r
    return ⟨.node (start ts) (.returnStatement .absent), r', by omega⟩
  else
    let ⟨e, r', _⟩ ← expression r
    let ⟨_, r'', _⟩ ← semicolon r'
    return ⟨.node (start ts) (.returnStatement e), r'', by omega⟩
termination_by 11 * ts.length + 8

/-- A `throw` needs its value on its own line. -/
def throwStatement (ts : List Token) : Reading (Taken ts Tree) := do
  let ⟨_, r, _⟩ ← word "throw" ts
  if (current r).afterBreak then unexpected .sameLine r
  else
    let ⟨e, r', _⟩ ← expression r
    let ⟨_, r'', _⟩ ← semicolon r'
    return ⟨.node (start ts) (.throwStatement e), r'', by omega⟩
termination_by 11 * ts.length + 8

/-- An expression: an arrow function, an assignment or a conditional. -/
def expression (ts : List Token) : Reading (Taken ts Tree) :=
  if atArrow ts then arrow ts
  else do
    let ⟨target, r, _⟩ ← conditional ts
    match take? isAssigning r with
    | none => return ⟨target, r, by omega⟩
    | some ⟨op, r', _⟩ =>
      if target.topIs Node.isAssignable then
        let ⟨value, r'', _⟩ ← expression r'
        return ⟨.node (start ts) (.assignment target op.text value), r'', by omega⟩
      else unexpected .assignable r
termination_by 11 * ts.length + 7

/-- Operands and operators, perhaps with a choice between two expressions behind them. -/
def conditional (ts : List Token) : Reading (Taken ts Tree) := do
  let ⟨condition, r, _⟩ ← binary 0 ts
  match mark? "?" r with
  | none => return ⟨condition, r, by omega⟩
  | some ⟨_, r', _⟩ =>
    let ⟨yes, r'', _⟩ ← expression r'
    let ⟨_, r₃, _⟩ ← mark ":" r''
    let ⟨no, r₄, _⟩ ← expression r₃
    return ⟨.node (start ts) (.conditional condition yes no), r₄, by omega⟩
termination_by 11 * ts.length + 6

/-- Operands joined by operators that bind tighter than `least`. -/
def binary (least : Nat) (ts : List Token) : Reading (Taken ts Tree) := do
  let ⟨left, r, _⟩ ← unary ts
  let ⟨e, r', _⟩ ← binaryTail (start ts) least left r
  return ⟨e, r', by omega⟩
termination_by 11 * ts.length + 5

/-- The operators and right operands that follow `left`. -/
def binaryTail (start least : Nat) (left : Tree) (ts : List Token) : Reading (Passed ts Tree) :=
  match binaryOperator? least ts with
  | none => .ok ⟨left, ts, Nat.le_refl _⟩
  | some ⟨(op, precedence), r, _⟩ => do
    let ⟨right, r', _⟩ ← binary precedence r
    let ⟨e, r'', _⟩ ← binaryTail start least (.node start (.binary left op right)) r'
    return ⟨e, r'', by omega⟩
termination_by 11 * ts.length

/-- Unary operators in front of an operand with its calls and accesses. -/
def unary (ts : List Token) : Reading (Taken ts Tree) :=
  match take? isUnary ts with
  | some ⟨op, r, _⟩ => do
    let ⟨operand, r', _⟩ ← unary r
    return ⟨.node (start ts) (.unary op.text operand), r', by omega⟩
  | none => do
    let ⟨callee, r, _⟩ ← if atWord "new" ts then construct ts else primary ts
    let ⟨e, r', _⟩ ← callTail (start ts) callee r
    return ⟨e, r', by omega⟩
termination_by 11 * ts.length + 4

/-- The calls and accesses that follow `callee`. -/
def callTail (start : Nat) (callee : Tree) (ts : List Token) : Reading (Passed ts Tree) :=
  if atMark "(" ts then do
    let ⟨args, r, _⟩ ← arguments ts
    let ⟨e, r', _⟩ ← callTail start (.node start (.call callee args)) r
    return ⟨e, r', by omega⟩
  else do
    match ← access? start callee ts with
    | none => return ⟨callee, ts, Nat.le_refl _⟩
    | some ⟨object, r, _⟩ =>
      let ⟨e, r', _⟩ ← callTail start object r
      return ⟨e, r', by omega⟩
termination_by 11 * ts.length + 2

/-- A member or element access of `object`, if one follows. -/
def access? (start : Nat) (object : Tree) (ts : List Token) : Reading (Option (Taken ts Tree)) :=
  match mark? "." ts with
  | some ⟨_, r, _⟩ => do
    let ⟨property, r', _⟩ ← anyName r
    return some ⟨.node start (.member object property.text), r', by omega⟩
  | none =>
    match mark? "[" ts with
    | some ⟨_, r, _⟩ => do
      let ⟨index, r', _⟩ ← expression r
      let ⟨_, r'', _⟩ ← mark "]" r'
      return some ⟨.node start (.element object index), r'', by omega⟩
    | none => return none
termination_by 11 * ts.length

/-- The word `new` with a callee and its arguments, which may be left out. -/
def construct (ts : List Token) : Reading (Taken ts Tree) := do
  let ⟨_, r, _⟩ ← word "new" ts
  let ⟨first, r', _⟩ ← primary r
  let ⟨callee, r'', _⟩ ← accessTail (start ts) first r'
  if atMark "(" r'' then
    let ⟨args, r₃, _⟩ ← arguments r''
    return ⟨.node (start ts) (.construct callee args), r₃, by omega⟩
  else return ⟨.node (start ts) (.construct callee []), r'', by omega⟩
termination_by 11 * ts.length + 3

/-- The accesses that follow `object`. -/
def accessTail (start : Nat) (object : Tree) (ts : List Token) : Reading (Passed ts Tree) := do
  match ← access? start object ts with
  | none => return ⟨object, ts, Nat.le_refl _⟩
  | some ⟨object', r, _⟩ =>
    let ⟨e, r', _⟩ ← accessTail start object' r
    return ⟨e, r', by omega⟩
termination_by 11 * ts.length + 1

/-- The arguments of a call, in parentheses. -/
def arguments (ts : List Token) : Reading (Taken ts (List Tree)) := do
  let ⟨_, r, _⟩ ← mark "(" ts
  let ⟨args, r', _⟩ ← commaList ")" r fun us _ => expression us
  return ⟨args, r', by omega⟩
termination_by 11 * ts.length

/-- A literal, a name, a function, or an expression in brackets of some kind. -/
def primary (ts : List Token) : Reading (Taken ts Tree) :=
  match take? (fun t => (atom? t).isSome) ts with
  | some ⟨t, r, h⟩ => .ok ⟨(atom? t).elim .absent (.node (start ts)), r, h⟩
  | none =>
    if atWord "function" ts then functionExpression ts
    else
      match mark? "(" ts with
      | some ⟨_, r, _⟩ => do
        let ⟨e, r', _⟩ ← expression r
        let ⟨_, r'', _⟩ ← mark ")" r'
        return ⟨.node (start ts) (.parenthesized e), r'', by omega⟩
      | none =>
        match mark? "\x7b" ts with
        | some ⟨_, r, _⟩ => do
          let ⟨properties, r', _⟩ ← commaList "\x7d" r fun us _ => property us
          return ⟨.node (start ts) (.object properties), r', by omega⟩
        | none =>
          match mark? "[" ts with
          | some ⟨_, r, _⟩ => do
            let ⟨elements, r', _⟩ ← commaList "]" r fun us _ => expression us
            return ⟨.node (start ts) (.array elements), r', by omega⟩
          | none => unexpected .expression ts
termination_by 11 * ts.length + 2

/-- A property `key: value`, or a key that is a name for its own value. -/
def property (ts : List Token) : Reading (Taken ts Tree) := do
  let ⟨(key, quoted), r, _⟩ ← propertyKey ts
  match mark? ":" r with
  | some ⟨_, r', _⟩ =>
    let ⟨value, r'', _⟩ ← expression r'
    return ⟨.node (start ts) (.property key quoted value false), r'', by omega⟩
  | none =>
    if quoted then unexpected (.mark ":") r
    else
      let value := Tree.node (start ts) (.identifier key)
      return ⟨.node (start ts) (.property key false value true), r, by omega⟩
termination_by 11 * ts.length

/-- A function, with a name or without one. -/
def functionExpression (ts : List Token) : Reading (Taken ts Tree) := do
  let ⟨_, r, _⟩ ← word "function" ts
  if (current r).kind = .identifier then
    let ⟨n, r', _⟩ ← name r
    let ⟨params, r'', _⟩ ← parameters r'
    let ⟨body, r₃, _⟩ ← block r''
    return ⟨.node (start ts) (.functionExpression (some n.text) params body), r₃, by omega⟩
  else
    let ⟨params, r', _⟩ ← parameters r
    let ⟨body, r'', _⟩ ← block r'
    return ⟨.node (start ts) (.functionExpression none params body), r'', by omega⟩
termination_by 11 * ts.length + 1

/-- An arrow function; behind the arrow a brace always opens a block. -/
def arrow (ts : List Token) : Reading (Taken ts Tree) := do
  let ⟨params, r, _⟩ ← arrowParameters ts
  let ⟨_, r', _⟩ ← mark "=>" r
  let ⟨body, r'', _⟩ ← if atMark "\x7b" r' then block r' else expression r'
  return ⟨.node (start ts) (.arrow params body), r'', by omega⟩
termination_by 11 * ts.length

end

/-- The statements of a whole script. -/
def script (ts : List Token) : Reading (List Tree) :=
  if atEnd ts then .ok []
  else do
    let ⟨t, r, _⟩ ← statement ts
    let more ← script r
    return t :: more
termination_by ts.length

end DebugGuard.Grammar

namespace DebugGuard.Tree

/-- The tree of a whole script. -/
def parse (source : String) : Except SourceError Tree := do
  let ts ← Token.scan source
  let body ← Grammar.script ts
  return .node 0 (.program body)

/-- The tree of the statement in front; the source has to consist of tokens all through. -/
def parseStatement (source : String) : Except SourceError Tree := do
  let ts ← Token.scan source
  return (← Grammar.statement ts).value

/-- The tree of the expression in front; the source has to consist of tokens all through. -/
def parseExpression (source : String) : Except SourceError Tree := do
  let ts ← Token.scan source
  return (← Grammar.expression ts).value

end DebugGuard.Tree
