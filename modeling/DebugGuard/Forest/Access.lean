import DebugGuard.Forest.Basic

/-!
# What a node says

Questions that one kind of node answers: the name of an identifier, the source of an import, the
parts of a call.  Asked of any other node they have no answer.
-/

namespace DebugGuard

namespace Node

variable {α : Type}

/-- The name of an identifier. -/
def identifierName? : Node α → Option String
  | .identifier name => some name
  | _ => none

/-- The value of a string literal. -/
def stringValue? : Node α → Option String
  | .literal (.string value) => some value
  | _ => none

/-- The module that an import names. -/
def importSource? : Node α → Option String
  | .importFrom _ source => some source
  | _ => none

/-- The specifiers of an import; any other node has none. -/
def importSpecifiers : Node α → List α
  | .importFrom specifiers _ => specifiers
  | _ => []

/-- The name that an import specifier binds. -/
def localName? : Node α → Option String
  | .importName _ bound => some bound
  | .importDefault bound => some bound
  | .importAll bound => some bound
  | _ => none

/-- The name that an import specifier asks its module for.  A default specifier counts under the
name that it binds; a namespace has no name to ask for. -/
def importedName? : Node α → Option String
  | .importName imported _ => some imported
  | .importDefault bound => some bound
  | _ => none

/-- The expression that a statement consists of. -/
def statementExpression? : Node α → Option α
  | .expressionStatement e => some e
  | _ => none

/-- The callee and the arguments of a call. -/
def callParts? : Node α → Option (α × List α)
  | .call callee args => some (callee, args)
  | _ => none

/-- A call, but not one behind `new`. -/
def isCall (n : Node α) : Bool :=
  n.callParts?.isSome

/-- An import declaration. -/
def isImport (n : Node α) : Bool :=
  n.importSource?.isSome

/-- A statement that consists of an expression. -/
def isExpressionStatement (n : Node α) : Bool :=
  n.statementExpression?.isSome

end Node

namespace Forest

variable (f : Forest) (r : Ref)

/-- The name of the identifier at `r`. -/
def identifierName? : Option String :=
  (f.node? r).bind Node.identifierName?

/-- The value of the string literal at `r`. -/
def stringValue? : Option String :=
  (f.node? r).bind Node.stringValue?

/-- The module that the import at `r` names. -/
def importSource? : Option String :=
  (f.node? r).bind Node.importSource?

/-- The specifiers of the import at `r`. -/
def importSpecifiers : List Ref :=
  (f.node? r).elim [] Node.importSpecifiers

/-- The name that the specifier at `r` binds. -/
def localName? : Option String :=
  (f.node? r).bind Node.localName?

/-- The name that the specifier at `r` asks its module for. -/
def importedName? : Option String :=
  (f.node? r).bind Node.importedName?

/-- The expression that the statement at `r` consists of. -/
def statementExpression? : Option Ref :=
  (f.node? r).bind Node.statementExpression?

/-- The callee and the arguments of the call at `r`. -/
def callParts? : Option (Ref × List Ref) :=
  (f.node? r).bind Node.callParts?

end Forest

end DebugGuard
