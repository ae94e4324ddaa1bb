/-!
# Log formats

How a run is to be logged, by name.  Case does not matter, and an unknown name means plain text.
-/

namespace DebugGuard.Cli

/-- How the log of a run looks. -/
inductive LogFormat where
  | text
  | tree
  | json
  deriving DecidableEq, Repr

/-- The format with the given name.  The names are in ASCII, and no other character has a lower case
that occurs in them, so lowering ASCII letters is enough. -/
def LogFormat.ofName (name : String) : LogFormat :=
  let lower := name.toList.map Char.toLower
  if lower = "tree".toList then .tree
  else if lower = "json".toList then .json
  else .text

end DebugGuard.Cli
