import DebugGuard.Forest.Edit

/-!
# Why a module is not rewritten

The causes and their wording.
-/

namespace DebugGuard

/-- What is wrong with a deprecation. -/
inductive DeprecationFault where
  | noMeta
  | metaIsNoObject
  | noField (name : String)
  | messageIsNoLiteral
  deriving DecidableEq, Repr

/-- What is wrong with a deprecation, in words. -/
def DeprecationFault.message : DeprecationFault → String
  | .noMeta => "deprecate requires a meta information object."
  | .metaIsNoObject => "deprecate's meta information must be an object literal."
  | .noField name => s!"deprecate's meta information requires an \"{name}\" field."
  | .messageIsNoLiteral => "deprecate's message must be a string literal."

/-- Why a step of the expansion is refused. -/
inductive ExpandError where
  /-- The module exports no flag of that name. -/
  | noFlag (flag module : String)
  /-- A namespace import, which names no flag. -/
  | noFlagName (bound module : String)
  | noHelper (name : String)
  /-- A helper that is not called, or not with what it needs. -/
  | badCall (name : String)
  | badDeprecation (fault : DeprecationFault)
  | noImport (name : String)
  | edit (error : EditError)
  deriving DecidableEq, Repr

/-- The refusal in words, with the names that it is about. -/
def ExpandError.message : ExpandError → String
  | .noFlag flag module => s!"Imported {flag} from {module} which is not a supported flag."
  | .noFlagName bound module =>
    s!"Cannot inline `* as {bound}` from {module}; import flags by name."
  | .noHelper name => s!"No debug-tools builder for `{name}`."
  | .badCall name => s!"`{name}` must be called as a statement."
  | .badDeprecation fault => fault.message
  | .noImport name => s!"Could not locate the import declaration for `{name}`."
  | .edit error => error.message

/-- A computation on a forest that may be refused.  What it did before that stays done. -/
abbrev Reshape := ExceptT ExpandError Build

/-- Carries an edit out. -/
def Reshape.edit (change : Forest → Except EditError Forest) : Reshape Unit := do
  match change (← get) with
  | .ok f => set f
  | .error e => throw (.edit e)

end DebugGuard
