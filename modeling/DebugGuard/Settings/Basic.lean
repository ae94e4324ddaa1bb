import DebugGuard.Script.Node

/-!
# Settings

What one run is told: the values of the environment flags, where debug helpers are imported from,
which modules are lists of feature flags, and how helper calls are written.
-/

namespace DebugGuard

/-- Flags and their values, which are literals, each flag once and in the order of the settings. -/
structure Flags where
  entries : List (String × Literal)
  deriving DecidableEq, Repr

namespace Flags

/-- No flags. -/
def empty : Flags := ⟨[]⟩

/-- The value of a flag. -/
def find? (flags : Flags) (name : String) : Option Literal :=
  (flags.entries.find? (·.1 == name)).map (·.2)

/-- Gives a flag a value.  A flag that has one already keeps its place. -/
def insert (flags : Flags) (name : String) (value : Literal) : Flags :=
  if flags.entries.any (·.1 == name) then
    ⟨flags.entries.map fun e => if e.1 == name then (name, value) else e⟩
  else ⟨flags.entries ++ [(name, value)]⟩

/-- Flags from pairs, where the last value of a flag counts. -/
def ofList (entries : List (String × Literal)) : Flags :=
  entries.foldl (fun flags e => flags.insert e.1 e.2) empty

end Flags

/-- A module whose imports are replaced by constants. -/
structure FeatureSpec where
  name : Option String
  source : String
  flags : Flags
  deriving DecidableEq, Repr

/-- How helper calls are written. -/
structure HelperStyle where
  /-- The object whose methods the helpers are. -/
  global : Option String
  /-- The call stays as it is written. -/
  module : Bool
  /-- Whether the import of the helpers is taken out, if that is said. -/
  debug : Option Bool
  deriving DecidableEq, Repr

namespace HelperStyle

/-- Helpers become calls of the console. -/
def console : HelperStyle := ⟨none, false, none⟩

/-- Helpers exist at run time, as methods or as imports. -/
def isExternal (style : HelperStyle) : Bool :=
  style.global.isSome || style.module

/-- The import of the helpers has to go: helpers that stay imports keep theirs, unless the settings
say otherwise. -/
def dropsImport (style : HelperStyle) : Bool :=
  style.debug.getD !style.module

end HelperStyle

/-- The module whose import of the debug flag is replaced by constants. -/
def envFlagsModule : String := "@ember/env-flags"

/-- The name of the debug flag. -/
def debugName : String := "DEBUG"

/-- The settings of a run. -/
structure Settings where
  envSource : String
  envFlags : Flags
  /-- The module that the debug helpers come from. -/
  toolsSource : String
  features : List FeatureSpec
  helpers : HelperStyle
  /-- The value of the debug flag. -/
  debug : Literal
  deriving DecidableEq, Repr

namespace Settings

/-- The first feature module with the given source. -/
def featureSpec? (s : Settings) (source : String) : Option FeatureSpec :=
  s.features.find? (·.source == source)

/-- Imports from that source are replaced by constants. -/
def isFeatureSource (s : Settings) (source : String) : Bool :=
  s.features.any (·.source == source)

end Settings

end DebugGuard
