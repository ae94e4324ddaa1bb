import DebugGuard.Expand.Error
import DebugGuard.Forest.Access
import DebugGuard.Settings.Basic

/-!
# Debug helpers

A call of a debug helper, standing as a statement, is turned into the call that does its work in a
debug build: a call of the console, a method call, or the call as it stands.  The result waits as
`Pending` until the name of the debug flag is known; then `Pending.guarded` puts the flag and
further conditions in front of it.
-/

namespace DebugGuard

/-- The debug helpers. -/
inductive Helper where
  | assert
  | warn
  | log
  | deprecate
  | runInDebug
  deriving DecidableEq, Repr

namespace Helper

/-- The name under which a helper is exported. -/
def name : Helper → String
  | .assert => "assert"
  | .warn => "warn"
  | .log => "log"
  | .deprecate => "deprecate"
  | .runInDebug => "runInDebug"

/-- All helpers. -/
def all : List Helper := [.assert, .warn, .log, .deprecate, .runInDebug]

/-- The helper that is exported under a name. -/
def ofName? (name : String) : Option Helper :=
  all.find? (·.name == name)

end Helper

/-- A helper call that waits for the name of the debug flag. -/
structure Pending where
  /-- The statement that holds the call. -/
  statement : Ref
  /-- Conditions between the flag and the call. -/
  conditions : List Ref
  call : Ref
  deriving DecidableEq, Repr

/-- What deprecation meta information says. -/
structure Deprecation where
  id : String
  removal : String
  url : Option String
  deriving DecidableEq, Repr

namespace Deprecation

/-- The text of a field: of the first property of that name that is a string. -/
def field? (f : Forest) (properties : List Ref) (name : String) : Option String :=
  properties.findSome? fun p =>
    match f.node? p with
    | some (.property key _ value _) => if key == name then f.stringValue? value else none
    | _ => none

/-- The text of a field that has to be there. -/
def required (f : Forest) (properties : List Ref) (name : String) :
    Except DeprecationFault String :=
  match field? f properties name with
  | some text => .ok text
  | none => .error (.noField name)

/-- Reads an object literal with the fields `id`, `until` and perhaps `url`. -/
def ofObject (f : Forest) (object : Ref) : Except DeprecationFault Deprecation :=
  match f.node? object with
  | some (.object properties) => do
    let id ← required f properties "id"
    let removal ← required f properties "until"
    return ⟨id, removal, field? f properties "url"⟩
  | _ => .error .metaIsNoObject

/-- The warning that a deprecation prints. -/
def warning (d : Deprecation) (message : String) : String :=
  let text := s!"DEPRECATED [{d.id}]: {message}. Will be removed in {d.removal}."
  match d.url with
  | some url => text ++ s!" See {url} for more information."
  | none => text

end Deprecation

namespace Helper

/-- The call in a statement and its arguments. -/
def callIn (helper : Helper) (statement : Ref) : Reshape (Ref × List Ref) := do
  let f ← get
  match f.statementExpression? statement with
  | none => throw (.badCall helper.name)
  | some call =>
    match f.callParts? call with
    | none => throw (.badCall helper.name)
    | some (_, args) => return (call, args)

/-- The call `object.method(args)`. -/
def methodCall (object method : String) (args : List Ref) : Build Nat := do
  let o ← Build.node (.identifier object)
  let callee ← Build.node (.member (some o) method)
  Build.node (.call (some callee) args)

/-- The call of a helper that exists at run time: a method of the global object, or the call as it
is written. -/
def externalCall (style : HelperStyle) (helper : Helper) (call : Ref) (args : List Ref) :
    Build Ref := do
  match style.global with
  | some object => return some (← methodCall object helper.name args)
  | none => return call

/-- Refuses deprecation meta information that is not complete. -/
def readDeprecation (object : Ref) : Reshape Deprecation := do
  match Deprecation.ofObject (← get) object with
  | .ok d => return d
  | .error fault => throw (.badDeprecation fault)

/-- The expression `!(test)`, the condition of a deprecation; a test that is left out is false. -/
def negated (test : Option Ref) : Build Nat := do
  let test ← match test with
    | some test => pure test
    | none => some <$> Build.node (.literal (.boolean false))
  let grouped ← Build.node (.parenthesized test)
  Build.node (.unary "!" (some grouped))

/-- The call of a deprecation that is printed as a warning. -/
def deprecationWarning (args : List Ref) : Reshape Nat := do
  match args[2]? with
  | none => throw (.badDeprecation .noMeta)
  | some object =>
    let d ← readDeprecation object
    match args.head?.bind (← get).stringValue? with
    | none => throw (.badDeprecation .messageIsNoLiteral)
    | some message =>
      let text ← Build.node (.literal (.string (d.warning message)))
      methodCall "console" "warn" [some text]

/-- The call of a deprecation; meta information that is an object is checked in any case. -/
def deprecationCall (style : HelperStyle) (call : Ref) (args : List Ref) : Reshape Ref := do
  if style.isExternal then
    let f ← get
    match args[2]?.filter fun m => f.nodeIs Node.isObject m with
    | some object => discard (readDeprecation object)
    | none => pure ()
    externalCall style .deprecate call args
  else return some (← deprecationWarning args)

/-- The call of the function that runs in debug builds only. -/
def callbackCall (style : HelperStyle) (call : Ref) (args : List Ref) : Reshape Ref := do
  if style.isExternal then externalCall style .runInDebug call args
  else
    match args.head? with
    | none => throw (.badCall (name .runInDebug))
    | some callback =>
      let grouped ← Build.node (.parenthesized callback)
      return some (← Build.node (.call (some grouped) []))

/-- The call of a helper that the console has too. -/
def consoleCall (style : HelperStyle) (helper : Helper) (call : Ref) (args : List Ref) :
    Build Ref := do
  if style.isExternal then externalCall style helper call args
  else return some (← methodCall "console" helper.name args)

/-- Builds the call that takes the place of a helper call. -/
def build (style : HelperStyle) (helper : Helper) (statement : Ref) : Reshape Pending := do
  let (call, args) ← helper.callIn statement
  match helper with
  | .deprecate =>
    let condition ← negated args[1]?
    return ⟨statement, [some condition], ← deprecationCall style call args⟩
  | .runInDebug => return ⟨statement, [], ← callbackCall style call args⟩
  | _ => return ⟨statement, [], ← consoleCall style helper call args⟩

end Helper

namespace Pending

/-- The expression `left && right`. -/
def both (left right : Ref) : Build Ref := do
  return some (← Build.node (.binary left "&&" right))

/-- The expression `(flag && condition && … && call)`. -/
def guarded (flag : String) (p : Pending) : Build Nat := do
  let first : Ref := some (← Build.node (.identifier flag))
  let conditions ← p.conditions.foldlM both first
  let all ← both conditions p.call
  Build.node (.parenthesized all)

/-- The guarded expressions of several calls, each with the statement that it belongs into. -/
def guardAll (flag : String) (pending : List Pending) : Build (List (Ref × Nat)) :=
  pending.mapM fun p => do return (p.statement, ← p.guarded flag)

end Pending

end DebugGuard
