import DebugGuard.Expand.Error
import DebugGuard.Forest.Access
import DebugGuard.Settings.Basic

/-!
# Flags as constants

An imported flag becomes a constant with the flag's value, under the name that the import gave it.
-/

namespace DebugGuard.Flag

/-- The declaration `const bound = value;`. -/
def constant (bound : String) (value : Literal) : Build Nat := do
  let literal ← Build.node (.literal value)
  Build.constant bound literal

/-- The constant for one specifier of an import from `module`. -/
def ofSpecifier (flags : Flags) (module : String) (specifier : Ref) : Reshape Nat := do
  let f ← get
  let bound := (f.localName? specifier).getD ""
  match f.importedName? specifier with
  | none => throw (.noFlagName bound module)
  | some flag =>
    match flags.find? flag with
    | none => throw (.noFlag flag module)
    | some value => constant bound value

/-- One constant for each specifier, in their order.  Each has to name one of the flags. -/
def constants (flags : Flags) (module : String) (specifiers : List Ref) : Reshape (List Nat) :=
  specifiers.mapM (ofSpecifier flags module)

/-- Replaces an import by the constants for its specifiers. -/
def inlineImport (flags : Flags) (module : String) (declaration : Ref) : Reshape Unit := do
  let declarations ← constants flags module ((← get).importSpecifiers declaration)
  Reshape.edit fun f => f.splice declaration (declarations.map some)

end DebugGuard.Flag
