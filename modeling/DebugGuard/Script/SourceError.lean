import DebugGuard.Script.Token

/-!
# Faults in a source text

Everything that can be wrong with a source text, as causes (`Fault`) with a position.  The wording
is in one place, `Fault.message` and `SourceError.message`.
-/

namespace DebugGuard

/-- What the grammar asks for where another token stands. -/
inductive Wanted where
  | mark (text : String)
  | word (text : String)
  | name
  | stringLiteral
  | expression
  | declaration
  | assignable
  | initializer
  | sameLine
  deriving DecidableEq, Repr

/-- What is asked for, in words. -/
def Wanted.text : Wanted → String
  | .mark text => s!"'{text}' expected"
  | .word text => s!"'{text}' expected"
  | .name => "Identifier expected"
  | .stringLiteral => "String literal expected"
  | .expression => "Expression expected"
  | .declaration => "Declaration expected after 'export'"
  | .assignable => "Invalid left-hand side in assignment"
  | .initializer => "'const' declarations must be initialized"
  | .sameLine => "Line break not permitted here"

/-- What is wrong with a source text. -/
inductive Fault where
  /-- A block comment without its end. -/
  | openComment
  /-- A string literal without its closing quote on the line. -/
  | openString
  /-- An escape that lacks its hexadecimal digits. -/
  | hexDigits
  /-- A braced escape without its closing brace. -/
  | openEscape
  /-- A braced escape beyond the last code point. -/
  | escapeRange
  /-- An escape of half a surrogate pair. -/
  | loneSurrogate
  /-- A character that starts no token. -/
  | strayChar (c : Char)
  /-- A token that the grammar does not allow where it stands. -/
  | unexpected (wanted : Wanted) (found : Token)
  deriving DecidableEq, Repr

/-- How a token is named in a message. -/
def Token.shown (t : Token) : String :=
  match t.kind with
  | .endOfFile => "end of file"
  | .string => s!"\"{t.text}\""
  | _ => s!"'{t.text}'"

/-- The fault in words, without its place. -/
def Fault.message : Fault → String
  | .openComment => "'*/' expected."
  | .openString => "Unterminated string literal."
  | .hexDigits => "Hexadecimal digit expected."
  | .openEscape => "Unterminated Unicode escape sequence."
  | .escapeRange =>
    "An extended Unicode escape value must be between 0x0 and 0x10FFFF inclusive."
  | .loneSurrogate => "Unpaired surrogate escapes are not supported."
  | .strayChar c => s!"Invalid character '{c}'."
  | .unexpected wanted found => s!"{wanted.text}, found {found.shown}."

/-- A fault and the byte offset where it was seen. -/
structure SourceError where
  fault : Fault
  start : Nat
  deriving DecidableEq, Repr

/-- The position of a fault. -/
def SourceError.pos (e : SourceError) : Nat :=
  Text.position e.start

/-- The fault in words, with its position. -/
def SourceError.message (e : SourceError) : String :=
  s!"{e.fault.message} (at offset {e.pos})"

end DebugGuard
