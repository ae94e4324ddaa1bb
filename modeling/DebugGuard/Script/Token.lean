import DebugGuard.Text.Offset

/-!
# Tokens

A script is read as a list of tokens.  A token has a kind, a text, the byte offset where it starts,
and a note whether a line break stands between it and the token before it.  Of the offset a program
keeps thirty-two bits (`Token.pos`).  Words that steer the grammar are identifiers like all others;
the grammar tells them apart by their text.
-/

namespace DebugGuard

/-- The kinds of token.  Keywords are identifiers. -/
inductive TokenKind where
  | identifier
  | string
  | number
  | mark
  | endOfFile
  deriving DecidableEq, Repr

/-- A token.  The text of a string token is its value, without quotes and escapes; every other token
has the characters of the source as its text. -/
structure Token where
  kind : TokenKind
  text : String
  start : Nat
  afterBreak : Bool
  deriving DecidableEq, Repr

namespace Token

/-- The token that stands where a list of tokens has none. -/
def sentinel : Token := ⟨.endOfFile, "", 0, false⟩

/-- The position of a token. -/
def pos (t : Token) : Nat :=
  Text.position t.start

/-- A mark spelled `text`. -/
def isMark (t : Token) (text : String) : Bool :=
  t.kind = .mark && t.text == text

/-- An identifier spelled `text`. -/
def isWord (t : Token) (text : String) : Bool :=
  t.kind = .identifier && t.text == text

/-- The end of file. -/
def isEnd (t : Token) : Bool :=
  t.kind = .endOfFile

/-- All marks, longer ones first, so that the first one that fits is the longest. -/
def marks : List String :=
  ["===", "!==", "...", "=>", "==", "!=", "<=", ">=", "&&", "||", "??", "+=", "-=", "*=", "/=",
    "\x7b", "\x7d", "(", ")", "[", "]", ";", ",", ".", ":", "?", "=", "!", "+", "-", "*", "/", "%",
    "<", ">", "&", "|"]

/-- The words that never name a binding. -/
def reservedWords : List String :=
  ["break", "case", "catch", "class", "const", "continue", "debugger", "default", "delete", "do",
    "else", "export", "extends", "finally", "for", "function", "if", "import", "in", "instanceof",
    "new", "return", "super", "switch", "this", "throw", "try", "typeof", "var", "void", "while",
    "with", "null", "true", "false"]

/-- A word that never names a binding. -/
def isReserved (word : String) : Bool :=
  reservedWords.contains word

/-- An identifier that may name a binding. -/
def isName (t : Token) : Bool :=
  t.kind = .identifier && !isReserved t.text

end Token

end DebugGuard
