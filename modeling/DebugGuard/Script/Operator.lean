/-!
# Operators

How tightly operators bind.  Binary operators are left-associative; a higher number binds tighter.
-/

namespace DebugGuard.Operator

/-- How tightly a binary operator binds, if the word is one. -/
def precedence? (op : String) : Option Nat :=
  if op == "??" then some 1
  else if op == "||" then some 2
  else if op == "&&" then some 3
  else if op == "|" then some 4
  else if op == "&" then some 5
  else if ["==", "!=", "===", "!=="].contains op then some 6
  else if ["<", ">", "<=", ">=", "instanceof", "in"].contains op then some 7
  else if ["+", "-"].contains op then some 8
  else if ["*", "/", "%"].contains op then some 9
  else none

/-- The marks that assign. -/
def assigning : List String := ["=", "+=", "-=", "*=", "/="]

/-- The marks that may stand before their operand. -/
def unaryMarks : List String := ["!", "-", "+"]

/-- The words that may stand before their operand. -/
def unaryWords : List String := ["typeof", "void", "delete"]

end DebugGuard.Operator
