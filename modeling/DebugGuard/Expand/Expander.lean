import DebugGuard.Expand.Flag
import DebugGuard.Expand.Helper
import DebugGuard.Scope.Binding
import DebugGuard.Scope.Fresh

/-!
# Expanding one module

The expander gathers what a module imports from the debug tools and which of its statements call
them.  At the end of the module it settles the name of the debug flag, puts the guarded calls in
place, and takes the import of the debug tools out if the helpers do not need it.

The name of the flag is the one under which the module imports it; that import is then replaced by
constants.  A module that does not import the flag gets a constant of a fresh name, provided that
some call needs it.
-/

namespace DebugGuard

/-- What is known of a module so far. -/
structure Expander where
  /-- The helper calls that wait for the debug flag, in source order. -/
  pending : List Pending
  /-- The names that imports of the debug tools bind, in source order. -/
  locals : List String
  importsTools : Bool
  /-- Whether the import of the debug tools is to go; settled at the end of the module. -/
  dropsImport : Bool
  fresh : Fresh
  deriving Repr

namespace Expander

/-- Nothing is known yet, and the import would go. -/
def start : Expander := ⟨[], [], false, true, ⟨[]⟩⟩

end Expander

/-- A module under work. -/
structure Work where
  forest : Forest
  expander : Expander
  deriving Repr

/-- A step of the work on a module.  What a refused step did before stays done. -/
abbrev Expand := ExceptT ExpandError (StateM Work)

namespace Expand

/-- The forest as it is now. -/
def forest : Expand Forest := return (← get).forest

/-- Does something to the forest. -/
def reshape {α : Type} (step : Reshape α) : Expand α := fun w =>
  let (result, forest) := step w.forest
  (result, { w with forest })

/-- Changes what is known of the module. -/
def modifyExpander (change : Expander → Expander) : Expand Unit :=
  modify fun w => { w with expander := change w.expander }

/-! ### While the module is read -/

/-- Replaces an import of a feature module by constants, and says whether it is one. -/
def inlineFeatures (settings : Settings) (declaration : Ref) : Expand Bool := do
  match (← forest).importSource? declaration with
  | none => return false
  | some source =>
    match settings.featureSpec? source with
    | none => return false
    | some spec =>
      reshape (Flag.inlineImport spec.flags source declaration)
      return true

/-- Notes the names that an import of the debug tools binds. -/
def noteTools (specifiers : List Ref) : Expand Unit := do
  let f ← forest
  modifyExpander fun e =>
    { e with importsTools := true, locals := e.locals ++ specifiers.filterMap f.localName? }

/-- The name of the debug helper that a statement calls, if its callee is bound by an import of the
debug tools and not by something nearer. -/
def calledHelper? (statement : Ref) : Expand (Option (String × Binding)) := do
  let ⟨f, e⟩ ← get
  match (f.statementExpression? statement).bind f.callParts? with
  | none => return none
  | some (callee, _) =>
    match f.identifierName? callee with
    | none => return none
    | some name =>
      if e.locals.contains name then
        return ((f.resolve? statement name).filter (·.kind = .module)).map (name, ·)
      else return none

/-- Queues the helper call in a statement, and says whether there is one. -/
def queue (settings : Settings) (statement : Ref) : Expand Bool := do
  match ← calledHelper? statement with
  | none => return false
  | some (name, binding) =>
    match binding.imported? (← forest) with
    | none => throw (.noHelper name)
    | some imported =>
      match Helper.ofName? imported with
      | none => throw (.noHelper imported)
      | some helper =>
        let p ← reshape (helper.build settings.helpers statement)
        modifyExpander fun e => { e with pending := e.pending ++ [p] }
        return true

/-! ### At the end of the module -/

/-- Takes the waiting calls out of the queue. -/
def takePending : Expand (List Pending) := do
  let pending := (← get).expander.pending
  modifyExpander fun e => { e with pending := [] }
  return pending

/-- Puts guarded calls into their statements. -/
def applyGuards (flag : String) (pending : List Pending) : Reshape Unit := do
  let guarded ← Pending.guardAll flag pending
  guarded.forM fun (statement, expression) =>
    Reshape.edit fun f => f.setExpression statement (some expression)

/-- The import that binds the debug flag as seen from `block`, if it is one of the module that is
known for it. -/
def flagImport? (f : Forest) (block : Ref) : Option Binding :=
  (f.resolve? block debugName).filter fun b => b.source? f = some envFlagsModule

/-- A fresh name for the debug flag in the whole tree around `block`. -/
def freshFlag (block : Ref) : Expand String := do
  let ⟨f, e⟩ ← get
  let root := ((f.ancestors block).getLast?).or block
  let (name, fresh) := e.fresh.generate f root debugName
  modifyExpander fun e => { e with fresh }
  return name

/-- Puts the constant of the debug flag in front of `block`. -/
def injectFlag (settings : Settings) (block : Ref) (name : String) : Reshape Unit := do
  let declaration ← Flag.constant name settings.debug
  Reshape.edit fun f => f.putFirst block (some declaration)

/-- Takes the import of the debug tools out, if the helpers do not need it.  It is found by the
first name that it binds. -/
def cleanUp (settings : Settings) (block : Ref) : Expand Unit := do
  modifyExpander fun e => { e with dropsImport := settings.helpers.dropsImport }
  let ⟨f, e⟩ ← get
  match e.locals.head? with
  | none => return
  | some first =>
    if e.dropsImport then
      match (f.resolve? block first).filter (·.kind = .module) with
      | none => throw (.noImport first)
      | some binding => reshape (Reshape.edit fun f => f.remove binding.owner)
    else return

/-- Settles the debug flag, puts the guarded calls in place and cleans up. -/
def finish (settings : Settings) (block : Ref) : Expand Unit := do
  let pending ← takePending
  match flagImport? (← forest) block with
  | some binding =>
    reshape (applyGuards binding.name pending)
    reshape (Flag.inlineImport settings.envFlags envFlagsModule binding.owner)
  | none =>
    let name ← freshFlag block
    if !pending.isEmpty then reshape (injectFlag settings block name)
    reshape (applyGuards name pending)
  cleanUp settings block

end Expand

end DebugGuard
