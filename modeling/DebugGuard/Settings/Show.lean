import DebugGuard.Settings.Basic
import DebugGuard.Text.Quoted

/-!
# Showing settings

Settings as JSON over several lines, each level indented by two blanks.  Fields without a value are
left out.
-/

namespace DebugGuard

/-- A JSON value to be laid out over lines; scalars are written already. -/
inductive Outline where
  | scalar (text : String)
  | list (items : List Outline)
  | record (fields : List (String × Outline))

namespace Outline

/-- How a character is written inside the quotes of a JSON string. -/
def escaped (c : Char) : List Char :=
  if c = '"' then ['\\', '"']
  else if c = '\\' then ['\\', '\\']
  else if c = '\x08' then ['\\', 'b']
  else if c = '\x0c' then ['\\', 'f']
  else if c = '\n' then ['\\', 'n']
  else if c = '\r' then ['\\', 'r']
  else if c = '\t' then ['\\', 't']
  else if c.toNat < 32 then '\\' :: 'u' :: Text.hex4 c.toNat
  else [c]

/-- A text as a JSON string. -/
def quoted (text : String) : String :=
  String.ofList ('"' :: text.toList.flatMap escaped ++ ['"'])

/-- The blanks in front of a line. -/
def indent (depth : Nat) : String :=
  String.ofList (List.replicate (2 * depth) ' ')

/-- Lines between an opening and a closing bracket. -/
def enclosed (depth : Nat) (first last : String) (lines : List String) : String :=
  if lines.isEmpty then first ++ last
  else first ++ "\n" ++ ",\n".intercalate lines ++ "\n" ++ indent depth ++ last

mutual

/-- A value whose first line stands at the given depth. -/
def render (depth : Nat) : Outline → String
  | .scalar text => text
  | .list items => enclosed depth "[" "]" (renderItems (depth + 1) items)
  | .record fields => enclosed depth "\x7b" "\x7d" (renderFields (depth + 1) fields)

/-- The lines of the items of a list. -/
def renderItems (depth : Nat) : List Outline → List String
  | [] => []
  | o :: os => (indent depth ++ render depth o) :: renderItems depth os

/-- The lines of the fields of a record. -/
def renderFields (depth : Nat) : List (String × Outline) → List String
  | [] => []
  | f :: fs => (indent depth ++ quoted f.1 ++ ": " ++ render depth f.2) :: renderFields depth fs

end

/-- A string. -/
def ofText (s : String) : Outline := .scalar (quoted s)

/-- A truth value. -/
def ofBool (b : Bool) : Outline := .scalar (if b then "true" else "false")

/-- A field that is left out if it has no value. -/
def field? (name : String) (value : Option Outline) : List (String × Outline) :=
  value.toList.map (name, ·)

end Outline

/-- A literal; a number stays as it is spelled. -/
def Literal.outline : Literal → Outline
  | .string value => .ofText value
  | .number spelling => .scalar spelling
  | .boolean b => .ofBool b
  | .null => .scalar "null"

/-- Flags as a record, in the order of the settings. -/
def Flags.outline (flags : Flags) : Outline :=
  .record (flags.entries.map fun e => (e.1, e.2.outline))

/-- A feature module as a record. -/
def FeatureSpec.outline (spec : FeatureSpec) : Outline :=
  .record (Outline.field? "name" (spec.name.map .ofText) ++
    [("source", .ofText spec.source), ("flags", spec.flags.outline)])

/-- How helper calls are written, as a record. -/
def HelperStyle.outline (style : HelperStyle) : Outline :=
  .record (Outline.field? "global" (style.global.map .ofText) ++
    [("module", .ofBool style.module)] ++
    Outline.field? "debug" (style.debug.map fun b => .record [("global", .ofBool b)]))

namespace Settings

/-- The settings as a record. -/
def outline (s : Settings) : Outline :=
  .record [
    ("envFlags", .record [("source", .ofText s.envSource), ("flags", s.envFlags.outline)]),
    ("debugToolsSource", .ofText s.toolsSource),
    ("features", .list (s.features.map FeatureSpec.outline)),
    ("externalizeHelpers", s.helpers.outline)]

/-- The settings as JSON over several lines. -/
def shown (s : Settings) : String :=
  s.outline.render 0

end Settings

end DebugGuard
