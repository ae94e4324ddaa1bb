import DebugGuard.Decimal.Written
import DebugGuard.Json.Number
import DebugGuard.Json.Read
import DebugGuard.Settings.Basic

/-!
# Reading settings

Settings are written in JSON.  A group of settings is an object, or an array of its fields in their
order; a field may be left out if it has a default.  Fields without a meaning are ignored, and only
have to be well formed.
-/

namespace DebugGuard

/-- Why there are no settings. -/
inductive SettingsError where
  /-- The text is no JSON, or does not have the shape of settings. -/
  | malformed
  | noToolsSource
  | noDebugFlag
  deriving DecidableEq, Repr

/-- The wording; a text that is malformed has none of its own. -/
def SettingsError.message : SettingsError → String
  | .malformed => "invalid debug-macros options"
  | .noToolsSource => "You must specify `debugTools.source`"
  | .noDebugFlag => "You must specify `envFlags.flags.DEBUG` at minimum"

namespace Json

/-! ### Shapes -/

/-- The text of a string. -/
def text? : Json → Option String
  | .string text => text
  | _ => none

/-- A truth value. -/
def boolean? : Json → Option Bool
  | .boolean b => some b
  | _ => none

/-- The fields of a group, each under its names: from an object, where no field may come twice, or
from an array in the order of the fields. -/
def group? (names : List (List String)) : Json → Option (List (Option Json))
  | .array items =>
    if items.length ≤ names.length then
      some (items.map some ++ List.replicate (names.length - items.length) none)
    else none
  | .object fields =>
    if fields.all (·.1.isSome) then
      names.mapM fun aliases =>
        match fields.filter fun f => f.1.any aliases.contains with
        | [] => some none
        | [f] => some (some f.2)
        | _ => none
    else none
  | _ => none

/-- A field that may be left out or null. -/
def optional {α : Type} (read : Json → Option α) : Option Json → Option (Option α)
  | none => some none
  | some .null => some none
  | some j => (read j).map some

/-- A field that has a default if it is left out. -/
def default {α : Type} (value : α) (read : Json → Option α) : Option Json → Option α
  | none => some value
  | some j => read j

mutual

/-- Every string in the value has a text, every number has a value, and arrays and objects are
nested at most `depth` deep. -/
def isSound (depth : Nat) : Json → Bool
  | .null => true
  | .boolean _ => true
  | .number n => n.value?.isSome
  | .string text => text.isSome
  | .array items => 0 < depth && areSound (depth - 1) items
  | .object fields => 0 < depth && fieldsAreSound (depth - 1) fields

/-- Every value of an array is sound. -/
def areSound (depth : Nat) : List Json → Bool
  | [] => true
  | j :: js => isSound depth j && areSound depth js

/-- Every field of an object is sound, and so is its name. -/
def fieldsAreSound (depth : Nat) : List (Option String × Json) → Bool
  | [] => true
  | f :: fs => f.1.isSome && isSound depth f.2 && fieldsAreSound depth fs

end

end Json

/-- A number as settings and scripts write it. -/
def JsonNumber.written : JsonNumber → String
  | .integer n => toString n
  | .double x => Double.written x

/-- The value of a flag: a truth value, a number, a string or null. -/
def Literal.ofJson? : Json → Option Literal
  | .null => some .null
  | .boolean b => some (.boolean b)
  | .number n => n.value?.map (.number ·.written)
  | .string text => text.map .string
  | _ => none

/-- Flags from the fields of an object. -/
def Flags.ofJson? : Json → Option Flags
  | .object fields => do
    let entries ← fields.mapM fun (key, value) => return (← key, ← Literal.ofJson? value)
    return .ofList entries
  | _ => none

/-- A feature module, whose source has to be given. -/
def FeatureSpec.ofJson? (j : Json) : Option FeatureSpec := do
  match ← j.group? [["name"], ["source", "featuresImport"], ["flags"]] with
  | [name, some source, flags] =>
    return ⟨← Json.optional Json.text? name, ← source.text?,
      ← Json.default .empty Flags.ofJson? flags⟩
  | _ => none

/-- How helper calls are written; `debug` is a group of one field. -/
def HelperStyle.ofJson? (j : Json) : Option HelperStyle := do
  match ← j.group? [["global"], ["module"], ["debug"]] with
  | [global, module, debug] =>
    let debug? (j : Json) : Option Bool := do
      match ← j.group? [["global"]] with
      | [global] => Json.default false Json.boolean? global
      | _ => none
    return ⟨← Json.optional Json.text? global, ← Json.default false Json.boolean? module,
      ← Json.optional debug? debug⟩
  | _ => none

namespace Settings

/-- How deep the value of `features` may be nested; the settings around it count as one level. -/
def featureDepth : Nat := 126

/-- The feature modules: none, one, or a list of them.  An array is read as the fields of one module
first, and else as a list. -/
def features? (j : Json) : Option (List FeatureSpec) :=
  if j.isSound featureDepth then
    match FeatureSpec.ofJson? j with
    | some spec => some [spec]
    | none =>
      match j with
      | .null => some []
      | .array items => items.mapM FeatureSpec.ofJson?
      | _ => none
  else none

/-- The source and the flags of the group `envFlags`. -/
def envFlags? (j : Json) : Option (Option String × Flags) := do
  match ← j.group? [["source"], ["flags"]] with
  | [source, flags] =>
    return (← Json.optional Json.text? source, ← Json.default .empty Flags.ofJson? flags)
  | _ => none

/-- The source of the group `debugTools`. -/
def toolsSource? (j : Json) : Option (Option String) := do
  match ← j.group? [["source"]] with
  | [source] => Json.optional Json.text? source
  | _ => none

/-- Settings as they are written, before anything is asked of them. -/
structure Draft where
  envSource : Option String
  envFlags : Flags
  toolsSource : Option String
  features : List FeatureSpec
  helpers : HelperStyle

/-- The settings in their four groups, all of which may be left out. -/
def Draft.ofJson? (j : Json) : Option Draft := do
  match ← j.group? [["envFlags"], ["debugTools"], ["features"], ["externalizeHelpers"]] with
  | [env, tools, features, helpers] =>
    let (envSource, envFlags) := (← Json.optional envFlags? env).getD (none, .empty)
    return ⟨envSource, envFlags, (← Json.optional toolsSource? tools).join,
      ← Json.default [] features? features,
      (← Json.optional HelperStyle.ofJson? helpers).getD .console⟩
  | _ => none

/-- Checks that the source of the helpers and the value of the debug flag are given. -/
def ofDraft (d : Draft) : Except SettingsError Settings :=
  match d.toolsSource.filter (· ≠ "") with
  | none => .error .noToolsSource
  | some toolsSource =>
    match d.envFlags.find? debugName with
    | none => .error .noDebugFlag
    | some debug =>
      .ok ⟨d.envSource.getD envFlagsModule, d.envFlags, toolsSource, d.features, d.helpers, debug⟩

/-- The settings that a text writes. -/
def parse (text : String) : Except SettingsError Settings :=
  match (Json.parse text).bind Draft.ofJson? with
  | none => .error .malformed
  | some draft => ofDraft draft

end Settings

end DebugGuard
