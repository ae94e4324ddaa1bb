import DebugGuard.Script.Token
import DebugGuard.Text.Quoted

/-!
# Words and gaps

A printed script is a list of pieces: words, which are tokens without a place, and gaps of blanks
and line feeds between them.  What a word is does not depend on its neighbours; where two words
would run together, the printer puts a gap.
-/

namespace DebugGuard

/-- A token without its place. -/
structure Word where
  kind : TokenKind
  text : String
  deriving DecidableEq, Repr

namespace Word

/-- The characters of a word; a string stands between quotes. -/
def written (w : Word) : List Char :=
  if w.kind = .string then (Text.quoted w.text).toList else w.text.toList

/-- The word of an operator, which is a mark or consists of letters. -/
def operator (op : String) : Word :=
  ⟨if op.toList.all Char.isAlpha then .identifier else .mark, op⟩

/-- The word of a property key without quotes, which is a numeral or a name. -/
def key (text : String) : Word :=
  ⟨if text.toList.head?.any fun c => c.isDigit || c == '.' then .number else .identifier, text⟩

end Word

/-- A part of a printed script. -/
inductive Piece where
  | word (w : Word)
  | blanks (count : Nat)
  | lineFeed
  deriving DecidableEq, Repr

namespace Piece

/-- A mark. -/
def mark (text : String) : Piece :=
  .word ⟨.mark, text⟩

/-- A name or a keyword. -/
def name (text : String) : Piece :=
  .word ⟨.identifier, text⟩

/-- A string literal with the given value. -/
def string (value : String) : Piece :=
  .word ⟨.string, value⟩

/-- A numeral as it is spelled. -/
def number (spelling : String) : Piece :=
  .word ⟨.number, spelling⟩

/-- A single blank. -/
def space : Piece :=
  .blanks 1

/-- The blanks in front of a line. -/
def indent (depth : Nat) : Piece :=
  .blanks (2 * depth)

/-- The characters of a piece. -/
def written : Piece → List Char
  | .word w => w.written
  | .blanks count => List.replicate count ' '
  | .lineFeed => ['\n']

/-- The characters of a printed script. -/
def chars (ps : List Piece) : List Char :=
  ps.flatMap written

/-- The text of a printed script. -/
def text (ps : List Piece) : String :=
  String.ofList (chars ps)

/-- Lists of pieces with commas between them. -/
def commas : List (List Piece) → List Piece
  | [] => []
  | [ps] => ps
  | ps :: pss => ps ++ mark "," :: space :: commas pss

end Piece

end DebugGuard
