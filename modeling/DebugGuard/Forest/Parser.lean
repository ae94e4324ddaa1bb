import DebugGuard.Forest.Basic
import DebugGuard.Script.Grammar

/-!
# The parser

The grammar at work on a forest.  The phrases are those of `Grammar`, but each adds its node to the
forest as soon as the phrase is read, behind the nodes of its parts, and hands on the number of the
node where the grammar has a tree.  What adds no node is left to the readers of the grammar.
-/

namespace DebugGuard

/-- Reading tokens while nodes are added to a forest. -/
abbrev Growing := StateT Forest Reading

namespace Parser

open Cursor
open Grammar (keyword? atom? isUnary isAssigning parameters arrowParameters propertyKey)

/-- Adds a node, which becomes the parent of its children. -/
def add (start : Nat) (node : Node Ref) : Growing Ref :=
  modifyGet fun f => (some f.size, f.add node start)

/-- Items that add nodes, up to the mark `close`, with commas as in `Cursor.commaList`. -/
def commaList (close : String) (ts : List Token)
    (item : (us : List Token) → us.length ≤ ts.length → Growing (Taken us Ref)) :
    Growing (Taken ts (List Ref)) :=
  match mark? close ts with
  | some ⟨_, r, h⟩ => return ⟨[], r, h⟩
  | none => do
    let ⟨x, r, h⟩ ← item ts (Nat.le_refl _)
    match mark? "," r with
    | some ⟨_, r', h'⟩ =>
      let ⟨xs, r'', h''⟩ ← commaList close r' fun us _ => item us (by omega)
      return ⟨x :: xs, r'', shorter_trans₃ h h' h''⟩
    | none =>
      let ⟨_, r', h'⟩ ← mark close r
      return ⟨[x], r', shorter_trans h h'⟩
termination_by ts.length

/-! ### Imports -/

/-- One specifier in braces: `imported` or `imported as bound`. -/
def importName (ts : List Token) : Growing (Taken ts Ref) := do
  let ⟨imported, r, h⟩ ← anyName ts
  match word? "as" r with
  | some ⟨_, r', h'⟩ =>
    let ⟨bound, r'', h''⟩ ← name r'
    let n ← add (start ts) (.importName imported.text bound.text)
    return ⟨n, r'', shorter_trans₃ h h' h''⟩
  | none =>
    let n ← add (start ts) (.importName imported.text imported.text)
    return ⟨n, r, h⟩

/-- The end of an import, behind its specifiers. -/
def importSource (start : Nat) (specifiers : List Ref) (ts : List Token) :
    Growing (Taken ts Ref) := do
  let ⟨_, r, h⟩ ← word "from" ts
  let ⟨source, r', h'⟩ ← stringLiteral r
  let ⟨_, r'', h''⟩ ← semicolon r'
  let n ← add start (.importFrom specifiers source.text)
  return ⟨n, r'', shorter_trans₃_le h h' h''⟩

/-- The specifiers behind a default specifier, or all of them: a namespace or a list in braces. -/
def importNames (ts : List Token) : Growing (Taken ts (List Ref)) :=
  match mark? "*" ts with
  | some ⟨_, r, h⟩ => do
    let ⟨_, r', h'⟩ ← word "as" r
    let ⟨bound, r'', h''⟩ ← name r'
    let n ← add (start ts) (.importAll bound.text)
    return ⟨[n], r'', shorter_trans₃ h h' h''⟩
  | none => do
    let ⟨_, r, h⟩ ← mark "\x7b" ts
    let ⟨specifiers, r', h'⟩ ← commaList "\x7d" r fun us _ => importName us
    return ⟨specifiers, r', shorter_trans h h'⟩

/-- An import; a default specifier is added before the word `from` is seen. -/
def importStatement (ts : List Token) : Growing (Taken ts Ref) := do
  let ⟨_, r, h⟩ ← word "import" ts
  if (current r).kind = .string then
    let ⟨source, r', h'⟩ ← stringLiteral r
    let ⟨_, r'', h''⟩ ← semicolon r'
    let n ← add (start ts) (.importFrom [] source.text)
    return ⟨n, r'', shorter_trans₃_le h h' h''⟩
  else if (current r).kind = .identifier then
    let ⟨bound, r', h'⟩ ← name r
    let first ← add (start r) (.importDefault bound.text)
    match mark? "," r' with
    | none =>
      let ⟨n, r'', h''⟩ ← importSource (start ts) [first] r'
      return ⟨n, r'', shorter_trans₃ h h' h''⟩
    | some ⟨_, r'', h''⟩ =>
      let ⟨specifiers, r₃, h₃⟩ ← importNames r''
      let ⟨n, r₄, h₄⟩ ← importSource (start ts) (first :: specifiers) r₃
      have taken := shorter_trans₃ h h' h''
      return ⟨n, r₄, shorter_trans₃ taken h₃ h₄⟩
  else
    let ⟨specifiers, r', h'⟩ ← importNames r
    let ⟨n, r'', h''⟩ ← importSource (start ts) specifiers r'
    return ⟨n, r'', shorter_trans₃ h h' h''⟩

/-! ### Statements and expressions -/

mutual

/-- A statement, told by the token in front and, for a few words, by the one behind it. -/
def statement (ts : List Token) : Growing (Taken ts Ref) :=
  let t := current ts
  if t.isMark "\x7b" then block ts
  else if t.isMark ";" then do
    let ⟨_, r, h⟩ ← mark ";" ts
    let n ← add (start ts) .emptyStatement
    return ⟨n, r, h⟩
  else if t.isWord "import" && !((next ts).isMark "(" || (next ts).isMark ".") then
    importStatement ts
  else if t.isWord "export" then exportStatement ts
  else if t.isWord "const" || t.isWord "var" then varDeclaration ts
  else if t.isWord "let" && (next ts).kind = .identifier then varDeclaration ts
  else if t.isWord "function" then functionDeclaration ts
  else if t.isWord "if" then ifStatement ts
  else if t.isWord "return" then returnStatement ts
  else if t.isWord "throw" then throwStatement ts
  else expressionStatement ts
termination_by 11 * ts.length + 9

/-- The statements of a block and its closing brace. -/
def statements (ts : List Token) : Growing (Taken ts (List Ref)) :=
  match mark? "\x7d" ts with
  | some ⟨_, r, h⟩ => return ⟨[], r, h⟩
  | none => do
    if atEnd ts then unexpected (.mark "\x7d") ts
    else
      let ⟨x, r, h⟩ ← statement ts
      let ⟨more, r', h'⟩ ← statements r
      return ⟨x :: more, r', shorter_trans h h'⟩
termination_by 11 * ts.length + 10

/-- Statements in braces. -/
def block (ts : List Token) : Growing (Taken ts Ref) := do
  let ⟨_, r, h⟩ ← mark "\x7b" ts
  let ⟨body, r', h'⟩ ← statements r
  let n ← add (start ts) (.block body)
  return ⟨n, r', shorter_trans h h'⟩
termination_by 11 * ts.length + 8

/-- An expression with the end of a statement behind it. -/
def expressionStatement (ts : List Token) : Growing (Taken ts Ref) := do
  let ⟨e, r, h⟩ ← expression ts
  let ⟨_, r', h'⟩ ← semicolon r
  let n ← add (start ts) (.expressionStatement e)
  return ⟨n, r', shorter_trans_le h h'⟩
termination_by 11 * ts.length + 8

/-- An export of a declaration, or of an expression as the default. -/
def exportStatement (ts : List Token) : Growing (Taken ts Ref) := do
  let ⟨_, r, h⟩ ← word "export" ts
  match word? "default" r with
  | some ⟨_, r', h'⟩ =>
    let ⟨e, r'', h''⟩ ← if atWord "function" r' then functionExpression r' else expression r'
    let ⟨_, r₃, h₃⟩ ← semicolon r''
    let n ← add (start ts) (.exportDefault e)
    return ⟨n, r₃, shorter_trans₃ h h' (shorter_trans_le h'' h₃)⟩
  | none =>
    let ⟨d, r', h'⟩ ←
      -- only the text is looked at here, so a quoted word passes as well
      if (keyword? (current r)).isSome then varDeclaration r
      else if (current r).text == "function" then functionDeclaration r
      else unexpected .declaration r
    let n ← add (start ts) (.exportDeclaration d)
    return ⟨n, r', shorter_trans h h'⟩
termination_by 11 * ts.length + 8

/-- A word that opens a declaration, with its declarators. -/
def varDeclaration (ts : List Token) : Growing (Taken ts Ref) :=
  match take? (fun t => (keyword? t).isSome) ts with
  | none => unexpected .declaration ts
  | some ⟨t, r, h⟩ => do
    let keyword := (keyword? t).getD .var
    let ⟨ds, r', h'⟩ ← declarators keyword r
    let ⟨_, r'', h''⟩ ← semicolon r'
    let n ← add (start ts) (.varDeclaration keyword ds)
    return ⟨n, r'', shorter_trans₃_le h h' h''⟩
termination_by 11 * ts.length + 7

/-- Declarators with commas between them; each is added before the next one is read. -/
def declarators (keyword : VarKeyword) (ts : List Token) : Growing (Taken ts (List Ref)) := do
  let ⟨n, r, h⟩ ← name ts
  let ⟨init, r', h'⟩ ← initializer keyword r
  let d ← add (start ts) (.declarator n.text init)
  match mark? "," r' with
  | some ⟨_, r'', h''⟩ =>
    let ⟨ds, r₃, h₃⟩ ← declarators keyword r''
    return ⟨d :: ds, r₃, shorter_trans₃ (shorter_trans_le h h') h'' h₃⟩
  | none => return ⟨[d], r', shorter_trans_le h h'⟩
termination_by 11 * ts.length + 1

/-- The value of a declarator, which all but constants may lack. -/
def initializer (keyword : VarKeyword) (ts : List Token) : Growing (Passed ts Ref) :=
  match mark? "=" ts with
  | some ⟨_, r, h⟩ => do
    let ⟨e, r', h'⟩ ← expression r
    return ⟨e, r', Nat.le_of_lt (shorter_trans h h')⟩
  | none => do
    if keyword = .const then unexpected .initializer ts
    else return ⟨none, ts, Nat.le_refl _⟩
termination_by 11 * ts.length

/-- A function with a name. -/
def functionDeclaration (ts : List Token) : Growing (Taken ts Ref) := do
  let ⟨_, r, h⟩ ← word "function" ts
  let ⟨name, r', h'⟩ ← name r
  let ⟨params, r'', h''⟩ ← parameters r'
  let ⟨body, r₃, h₃⟩ ← block r''
  let n ← add (start ts) (.functionDeclaration name.text params body)
  return ⟨n, r₃, shorter_trans₃ h h' (shorter_trans h'' h₃)⟩
termination_by 11 * ts.length + 7

/-- A condition with one branch or two. -/
def ifStatement (ts : List Token) : Growing (Taken ts Ref) := do
  let ⟨_, r, h⟩ ← word "if" ts
  let ⟨_, r', h'⟩ ← mark "(" r
  let ⟨condition, r'', h''⟩ ← expression r'
  let ⟨_, r₃, h₃⟩ ← mark ")" r''
  let ⟨yes, r₄, h₄⟩ ← statement r₃
  match word? "else" r₄ with
  | some ⟨_, r₅, h₅⟩ =>
    let ⟨no, r₆, h₆⟩ ← statement r₅
    let n ← add (start ts) (.ifElse condition yes no)
    return ⟨n, r₆, shorter_trans₃ (shorter_trans₃ h h' h'') h₃ (shorter_trans₃ h₄ h₅ h₆)⟩
  | none =>
    let n ← add (start ts) (.ifElse condition yes none)
    return ⟨n, r₄, shorter_trans₃ (shorter_trans₃ h h' h'') h₃ h₄⟩
termination_by 11 * ts.length + 8

/-- A `return` takes a value only from its own line. -/
def returnStatement (ts : List Token) : Growing (Taken ts Ref) := do
  let ⟨_, r, h⟩ ← word "return" ts
  if (current r).isMark ";" || endsStatement (current r) then
    let ⟨_, r', h'⟩ ← semicolon r
    let n ← add (start ts) (.returnStatement none)
    return ⟨n, r', shorter_trans_le h h'⟩
  else
    let ⟨e, r', h'⟩ ← expression r
    let ⟨_, r'', h''⟩ ← semicolon r'
    let n ← add (start ts) (.returnStatement e)
    return ⟨n, r'', shorter_trans₃_le h h' h''⟩
termination_by 11 * ts.length + 8

/-- A `throw` has its value on its own line. -/
def throwStatement (ts : List Token) : Growing (Taken ts Ref) := do
  let ⟨_, r, h⟩ ← word "throw" ts
  if (current r).afterBreak then unexpected .sameLine r
  else
    let ⟨e, r', h'⟩ ← expression r
    let ⟨_, r'', h''⟩ ← semicolon r'
    let n ← add (start ts) (.throwStatement e)
    return ⟨n, r'', shorter_trans₃_le h h' h''⟩
termination_by 11 * ts.length + 8

/-- An expression.  Whether something may be assigned to the target is asked of its node. -/
def expression (ts : List Token) : Growing (Taken ts Ref) :=
  if atArrow ts then arrow ts
  else do
    let ⟨target, r, h⟩ ← conditional ts
    match take? isAssigning r with
    | none => return ⟨target, r, h⟩
    | some ⟨op, r', h'⟩ =>
      if (← get).nodeIs Node.isAssignable target then
        let ⟨value, r'', h''⟩ ← expression r'
        let n ← add (start ts) (.assignment target op.text value)
        return ⟨n, r'', shorter_trans₃ h h' h''⟩
      else unexpected .assignable r
termination_by 11 * ts.length + 7

/-- A condition with the two expressions it selects from, or what stands in its place. -/
def conditional (ts : List Token) : Growing (Taken ts Ref) := do
  let ⟨condition, r, h⟩ ← binary 0 ts
  match mark? "?" r with
  | none => return ⟨condition, r, h⟩
  | some ⟨_, r', h'⟩ =>
    let ⟨yes, r'', h''⟩ ← expression r'
    let ⟨_, r₃, h₃⟩ ← mark ":" r''
    let ⟨no, r₄, h₄⟩ ← expression r₃
    let n ← add (start ts) (.conditional condition yes no)
    return ⟨n, r₄, shorter_trans₃ (shorter_trans₃ h h' h'') h₃ h₄⟩
termination_by 11 * ts.length + 6

/-- Operands joined by operators that bind tighter than `least`. -/
def binary (least : Nat) (ts : List Token) : Growing (Taken ts Ref) := do
  let ⟨left, r, h⟩ ← unary ts
  let ⟨e, r', h'⟩ ← binaryTail (start ts) least left r
  return ⟨e, r', shorter_trans_le h h'⟩
termination_by 11 * ts.length + 5

/-- The operators and right operands that follow `left`. -/
def binaryTail (start least : Nat) (left : Ref) (ts : List Token) : Growing (Passed ts Ref) :=
  match binaryOperator? least ts with
  | none => return ⟨left, ts, Nat.le_refl _⟩
  | some ⟨(op, precedence), r, h⟩ => do
    let ⟨right, r', h'⟩ ← binary precedence r
    let n ← add start (.binary left op right)
    let ⟨e, r'', h''⟩ ← binaryTail start least n r'
    return ⟨e, r'', Nat.le_of_lt (shorter_trans₃_le h h' h'')⟩
termination_by 11 * ts.length

/-- A prefix operator with its operand, or a construction or primary with what follows it. -/
def unary (ts : List Token) : Growing (Taken ts Ref) :=
  match take? isUnary ts with
  | some ⟨op, r, h⟩ => do
    let ⟨operand, r', h'⟩ ← unary r
    let n ← add (start ts) (.unary op.text operand)
    return ⟨n, r', shorter_trans h h'⟩
  | none => do
    let ⟨callee, r, h⟩ ← if atWord "new" ts then construct ts else primary ts
    let ⟨e, r', h'⟩ ← callTail (start ts) callee r
    return ⟨e, r', shorter_trans_le h h'⟩
termination_by 11 * ts.length + 4

/-- The calls and accesses that follow `callee`. -/
def callTail (start : Nat) (callee : Ref) (ts : List Token) : Growing (Passed ts Ref) := do
  if atMark "(" ts then
    let ⟨args, r, h⟩ ← arguments ts
    let n ← add start (.call callee args)
    let ⟨e, r', h'⟩ ← callTail start n r
    return ⟨e, r', Nat.le_of_lt (shorter_trans_le h h')⟩
  else
    match ← access? start callee ts with
    | none => return ⟨callee, ts, Nat.le_refl _⟩
    | some ⟨object, r, h⟩ =>
      let ⟨e, r', h'⟩ ← callTail start object r
      return ⟨e, r', Nat.le_of_lt (shorter_trans_le h h')⟩
termination_by 11 * ts.length + 2

/-- A member or element access of `object`, if one follows. -/
def access? (start : Nat) (object : Ref) (ts : List Token) : Growing (Option (Taken ts Ref)) :=
  match mark? "." ts with
  | some ⟨_, r, h⟩ => do
    let ⟨property, r', h'⟩ ← anyName r
    let n ← add start (.member object property.text)
    return some ⟨n, r', shorter_trans h h'⟩
  | none =>
    match mark? "[" ts with
    | some ⟨_, r, h⟩ => do
      let ⟨index, r', h'⟩ ← expression r
      let ⟨_, r'', h''⟩ ← mark "]" r'
      let n ← add start (.element object index)
      return some ⟨n, r'', shorter_trans₃ h h' h''⟩
    | none => return none
termination_by 11 * ts.length

/-- The word `new` with a callee and its arguments, which may be left out. -/
def construct (ts : List Token) : Growing (Taken ts Ref) := do
  let ⟨_, r, h⟩ ← word "new" ts
  let ⟨first, r', h'⟩ ← primary r
  let ⟨callee, r'', h''⟩ ← accessTail (start ts) first r'
  if atMark "(" r'' then
    let ⟨args, r₃, h₃⟩ ← arguments r''
    let n ← add (start ts) (.construct callee args)
    return ⟨n, r₃, shorter_trans (shorter_trans₃_le h h' h'') h₃⟩
  else
    let n ← add (start ts) (.construct callee [])
    return ⟨n, r'', shorter_trans₃_le h h' h''⟩
termination_by 11 * ts.length + 3

/-- The accesses that follow `object`. -/
def accessTail (start : Nat) (object : Ref) (ts : List Token) : Growing (Passed ts Ref) := do
  match ← access? start object ts with
  | none => return ⟨object, ts, Nat.le_refl _⟩
  | some ⟨object', r, h⟩ =>
    let ⟨e, r', h'⟩ ← accessTail start object' r
    return ⟨e, r', Nat.le_of_lt (shorter_trans_le h h')⟩
termination_by 11 * ts.length + 1

/-- The arguments of a call, in parentheses. -/
def arguments (ts : List Token) : Growing (Taken ts (List Ref)) := do
  let ⟨_, r, h⟩ ← mark "(" ts
  let ⟨args, r', h'⟩ ← commaList ")" r fun us _ => expression us
  return ⟨args, r', shorter_trans h h'⟩
termination_by 11 * ts.length

/-- A phrase that no operator or call can divide. -/
def primary (ts : List Token) : Growing (Taken ts Ref) :=
  match take? (fun t => (atom? t).isSome) ts with
  | some ⟨t, r, h⟩ => do
    let n ← (atom? t).elim (return none) fun top => add (start ts) (top.map fun _ => none)
    return ⟨n, r, h⟩
  | none =>
    if atWord "function" ts then functionExpression ts
    else
      match mark? "(" ts with
      | some ⟨_, r, h⟩ => do
        let ⟨e, r', h'⟩ ← expression r
        let ⟨_, r'', h''⟩ ← mark ")" r'
        let n ← add (start ts) (.parenthesized e)
        return ⟨n, r'', shorter_trans₃ h h' h''⟩
      | none =>
        match mark? "\x7b" ts with
        | some ⟨_, r, h⟩ => do
          let ⟨properties, r', h'⟩ ← commaList "\x7d" r fun us _ => property us
          let n ← add (start ts) (.object properties)
          return ⟨n, r', shorter_trans h h'⟩
        | none =>
          match mark? "[" ts with
          | some ⟨_, r, h⟩ => do
            let ⟨elements, r', h'⟩ ← commaList "]" r fun us _ => expression us
            let n ← add (start ts) (.array elements)
            return ⟨n, r', shorter_trans h h'⟩
          | none => unexpected .expression ts
termination_by 11 * ts.length + 2

/-- A property; one that is named alone has a node of its own for its value. -/
def property (ts : List Token) : Growing (Taken ts Ref) := do
  let ⟨(key, quoted), r, h⟩ ← propertyKey ts
  match mark? ":" r with
  | some ⟨_, r', h'⟩ =>
    let ⟨value, r'', h''⟩ ← expression r'
    let n ← add (start ts) (.property key quoted value false)
    return ⟨n, r'', shorter_trans₃ h h' h''⟩
  | none =>
    if quoted then unexpected (.mark ":") r
    else
      let value ← add (start ts) (.identifier key)
      let n ← add (start ts) (.property key false value true)
      return ⟨n, r, h⟩
termination_by 11 * ts.length

/-- A function that is a value, with a name or without one. -/
def functionExpression (ts : List Token) : Growing (Taken ts Ref) := do
  let ⟨_, r, h⟩ ← word "function" ts
  if (current r).kind = .identifier then
    let ⟨name, r', h'⟩ ← name r
    let ⟨params, r'', h''⟩ ← parameters r'
    let ⟨body, r₃, h₃⟩ ← block r''
    let n ← add (start ts) (.functionExpression (some name.text) params body)
    return ⟨n, r₃, shorter_trans₃ h h' (shorter_trans h'' h₃)⟩
  else
    let ⟨params, r', h'⟩ ← parameters r
    let ⟨body, r'', h''⟩ ← block r'
    let n ← add (start ts) (.functionExpression none params body)
    return ⟨n, r'', shorter_trans₃ h h' h''⟩
termination_by 11 * ts.length + 1

/-- An arrow function. -/
def arrow (ts : List Token) : Growing (Taken ts Ref) := do
  let ⟨params, r, h⟩ ← arrowParameters ts
  let ⟨_, r', h'⟩ ← mark "=>" r
  let ⟨body, r'', h''⟩ ← if atMark "\x7b" r' then block r' else expression r'
  let n ← add (start ts) (.arrow params body)
  return ⟨n, r'', shorter_trans₃ h h' h''⟩
termination_by 11 * ts.length

end

/-- The statements of a whole script. -/
def script (ts : List Token) : Growing (List Ref) := do
  if atEnd ts then return []
  else
    let ⟨n, r, _⟩ ← statement ts
    let more ← script r
    return n :: more
termination_by ts.length

end Parser

/-- The node of a whole script, and the forest that reading it makes. -/
def Forest.parse (source : String) : Except SourceError (Ref × Forest) := do
  let ts ← Token.scan source
  (do Parser.add 0 (.program (← Parser.script ts))).run .empty

end DebugGuard
