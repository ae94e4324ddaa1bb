import DebugGuard.Forest.Basic

/-!
# Editing a forest in place

Statements can be replaced, removed and put in front where they stand in the list of a script or a
block, and the expression of an expression statement can be exchanged.  What is taken out stays in
the forest with no parent.  An edit that is refused changes nothing.
-/

namespace DebugGuard

/-- Why an edit is refused. -/
inductive EditError where
  /-- The node, of the given kind, stands in no statement list. -/
  | notListed (kind : String) (target : Ref)
  /-- The node has no statement list. -/
  | noList (target : Ref)
  | notExpressionStatement (target : Ref)
  deriving DecidableEq, Repr

/-- The refusal in words, with the reference that was given. -/
def EditError.message : EditError → String
  | .notListed kind target => s!"{kind} node {target.shown} is not in a statement list"
  | .noList target => s!"node {target.shown} is not a program or block"
  | .notExpressionStatement target => s!"node {target.shown} is not an expression statement"

namespace Forest

/-- Puts another statement list into a script or a block. -/
def setStatements (f : Forest) (r : Ref) (body : List Ref) : Forest :=
  match f.node? r with
  | none => f
  | some node => f.setNode r (node.withStatements body)

/-- Puts any number of statements in the place of one. -/
def splice (f : Forest) (target : Ref) (statements : List Ref) : Except EditError Forest :=
  let parent := f.parentOf target
  match f.statements? parent with
  | some body =>
    match body.idxOf? target with
    | some slot =>
      let body := body.take slot ++ statements ++ body.drop (slot + 1)
      .ok (((f.adopt parent statements).setStatements parent body).setParent none target)
    | none => refused
  | none => refused
where
  refused : Except EditError Forest :=
    .error (.notListed ((f.node? target).elim "missing" Node.kind) target)

/-- Takes a statement out of its list. -/
def remove (f : Forest) (target : Ref) : Except EditError Forest :=
  f.splice target []

/-- Puts a statement in front of a statement list. -/
def putFirst (f : Forest) (list statement : Ref) : Except EditError Forest :=
  match f.statements? list with
  | some body => .ok ((f.setStatements list (statement :: body)).setParent list statement)
  | none => .error (.noList list)

/-- Exchanges the expression of an expression statement.  The old one loses its parent, unless it
has been given another one by then. -/
def setExpression (f : Forest) (statement expression : Ref) : Except EditError Forest :=
  match f.node? statement with
  | some (.expressionStatement old) =>
    let changed := f.setNode statement (.expressionStatement expression)
    let released := if f.parentOf old = statement then changed.setParent none old else changed
    .ok (released.setParent statement expression)
  | _ => .error (.notExpressionStatement statement)

end Forest

end DebugGuard
