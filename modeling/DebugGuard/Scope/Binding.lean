import DebugGuard.Forest.Access

/-!
# Names and what they are bound to

A script, a block and a function each are a scope.  A name is looked up from a node upwards, in the
innermost scope first.  A variable declared with `var` belongs to the body of the function around
it, or to the script, however deep it stands; a function declaration belongs to its block.

`Forest.bindingsOf` lists what one scope declares, `Forest.resolve?` looks a name up.
-/

namespace DebugGuard

/-- The kind of declaration that binds a name. -/
inductive BindingKind where
  /-- An import specifier. -/
  | module
  | constant
  | letVariable
  | varVariable
  | function
  | parameter
  deriving DecidableEq, Repr

/-- The kind of binding that a variable declaration makes. -/
def BindingKind.ofKeyword : VarKeyword → BindingKind
  | .const => .constant
  | .let => .letVariable
  | .var => .varVariable

/-- A bound name. -/
structure Binding where
  name : String
  kind : BindingKind
  /-- The specifier, the declarator or the function that binds the name. -/
  declaration : Nat
  /-- The statement around the declaration: the import or the variable declaration; a function is
  its own. -/
  owner : Nat
  deriving DecidableEq, Repr

namespace Forest

/-! ### What a scope declares -/

/-- The names that one statement declares in the scope around it, through at most `fuel` exports. -/
def declaredUpTo (f : Forest) : Nat → Nat → List Binding
  | fuel, i =>
    match f.node? i with
    | some (.importFrom specifiers _) =>
      (specifiers.filterMap id).filterMap fun (s : Nat) =>
        (f.localName? s).map fun name => ⟨name, .module, s, i⟩
    | some (.varDeclaration keyword declarators) =>
      (declarators.filterMap id).filterMap fun (d : Nat) =>
        match f.node? d with
        | some (.declarator name _) => some ⟨name, .ofKeyword keyword, d, i⟩
        | _ => none
    | some (.functionDeclaration name _ _) => [⟨name, .function, i, i⟩]
    | some (.exportDeclaration (some d)) =>
      match fuel with
      | 0 => []
      | fuel + 1 => f.declaredUpTo fuel d
    | _ => []

/-- The names that one statement declares in the scope around it. -/
def declaredBy (f : Forest) (i : Nat) : List Binding :=
  f.declaredUpTo f.size i

/-- The variables declared with `var` at most `fuel` levels below a node, without those in
functions. -/
def hoistedUpTo (f : Forest) : Nat → Nat → List Binding
  | 0, _ => []
  | fuel + 1, i =>
    (f.childrenOf i).flatMap fun (c : Nat) =>
      if f.nodeIs Node.isFunction c then []
      else
        (match f.node? c with
        | some (.varDeclaration .var _) => f.declaredBy c
        | _ => []) ++ f.hoistedUpTo fuel c

/-- The variables declared with `var` below a node, without those in functions. -/
def hoistedFrom (f : Forest) (i : Nat) : List Binding :=
  f.hoistedUpTo f.size i

/-- Where variables declared with `var` end up: the script, or a child of a function. -/
def takesHoisted (f : Forest) (r : Ref) : Bool :=
  f.nodeIs (fun | .program _ => true | _ => false) r || f.nodeIs Node.isFunction (f.parentOf r)

/-- The parameters of a function, and the name of a function expression, which is bound inside. -/
def functionBindings (f : Forest) (i : Nat) : List Binding :=
  let ofParams (params : List String) : List Binding :=
    params.map fun name => ⟨name, .parameter, i, i⟩
  match f.node? i with
  | some (.functionDeclaration _ params _) => ofParams params
  | some (.functionExpression name params _) =>
    ofParams params ++ name.toList.map fun name => ⟨name, .function, i, i⟩
  | some (.arrow params _) => ofParams params
  | _ => []

/-- The names that the statements of a scope declare in it, or the parameters of a function. -/
def declaredIn (f : Forest) (i : Nat) : List Binding :=
  match f.statements? i with
  | none => f.functionBindings i
  | some body => (body.filterMap id).flatMap fun (s : Nat) => f.declaredBy s

/-- The variables declared with `var` that end up in a scope from deeper down.  Those that an export
declares are not hoisted again. -/
def hoistedInto (f : Forest) (i : Nat) : List Binding :=
  match f.statements? i with
  | none => []
  | some body =>
    let hoists (s : Nat) : Bool :=
      !f.nodeIs (fun n => n.isFunction || n.isExport) s
    if f.takesHoisted i then ((body.filterMap id).filter hoists).flatMap f.hoistedFrom else []

/-- The names that a scope declares, in the order in which a lookup tries them. -/
def bindingsOf (f : Forest) (scope : Ref) : List Binding :=
  scope.elim [] fun i => f.declaredIn i ++ f.hoistedInto i

/-! ### Looking a name up -/

/-- What a scope binds `name` to.  What is hoisted is looked for only if need be. -/
def bindingIn? (f : Forest) (name : String) (i : Nat) : Option Binding :=
  match (f.declaredIn i).find? (·.name == name) with
  | some b => some b
  | none => (f.hoistedInto i).find? (·.name == name)

theorem bindingIn?_eq_find? (f : Forest) (name : String) (i : Nat) :
    f.bindingIn? name i = (f.bindingsOf i).find? (·.name == name) := by
  simp only [bindingIn?, bindingsOf, Option.elim_some, List.find?_append]
  cases (f.declaredIn i).find? (·.name == name) <;> rfl

/-- What `name` is bound to as seen from a node. -/
def resolve? (f : Forest) (place : Ref) (name : String) : Option Binding :=
  (f.ancestors place).findSome? (f.bindingIn? name)

end Forest

namespace Binding

/-- The module that an imported name comes from. -/
def source? (b : Binding) (f : Forest) : Option String :=
  if b.kind = .module then f.importSource? b.owner else none

/-- The name under which an imported name is exported. -/
def imported? (b : Binding) (f : Forest) : Option String :=
  if b.kind = .module then f.importedName? b.declaration else none

end Binding

end DebugGuard
