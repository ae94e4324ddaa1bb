/-!
# JSON values

A JSON value as it is written: numbers are digits, and a string whose escapes leave half a surrogate
pair over has no text.  What a number or a string is worth is decided where it is used, because a
value that nobody asks for only has to be well formed.
-/

namespace DebugGuard

/-- A number as it is written, in decimal digits. -/
structure Numeral where
  negative : Bool
  whole : List Nat
  /-- The digits behind the point; none if there is no point. -/
  fraction : List Nat
  /-- The sign of the exponent, true if negative, and its digits. -/
  exponent : Option (Bool × List Nat)
  deriving DecidableEq, Repr

/-- A JSON value, as it is written. -/
inductive Json where
  | null
  | boolean (value : Bool)
  | number (value : Numeral)
  /-- A string; it has no text if half a surrogate pair is left over. -/
  | string (text : Option String)
  | array (items : List Json)
  /-- An object; a field comes as often as it is written. -/
  | object (fields : List (Option String × Json))

end DebugGuard
