import DebugGuard.Script.Escape
import DebugGuard.Text.Blank
import DebugGuard.Text.Letter
import DebugGuard.Text.Offset

/-!
# From characters to tokens

`Token.scan` cuts a source text into tokens.  Between two tokens stands trivia: blanks, comments to
the end of the line, and block comments.  After the trivia the next lexeme is the longest one that
its first character allows.

The functions below measure what they read in characters, so that nothing has to be said about what
they leave: it is a `drop` of what they were given.
-/

namespace DebugGuard

open Text

namespace Scan

/-! ### Trivia -/

/-- The characters of a block comment before its end mark. -/
def commentBody? : List Char → Option (List Char)
  | [] => none
  | '*' :: '/' :: _ => some []
  | c :: cs => (commentBody? cs).map (c :: ·)

/-- How many characters of trivia stand in front, and whether a line break is among them.  A block
comment counts as a line break if it holds a line feed; a comment to the end of the line ends before
the line feed. -/
def trivia (pos : Nat) (broken : Bool) (cs : List Char) : Except SourceError (Nat × Bool) :=
  match cs with
  | [] => .ok (0, broken)
  | '/' :: '/' :: r => do
    let line := r.takeWhile (· != '\n')
    let (n, b) ← trivia (pos + 2 + byteSize line) broken (r.drop line.length)
    return (n + line.length + 2, b)
  | '/' :: '*' :: r =>
    match commentBody? r with
    | none => .error ⟨.openComment, pos⟩
    | some body => do
      let (n, b) ←
        trivia (pos + 4 + byteSize body) (broken || body.contains '\n') (r.drop (body.length + 2))
      return (n + body.length + 4, b)
  | c :: r =>
    if isBlank c then do
      let (n, b) ← trivia (pos + c.utf8Size) (broken || breaksLine c) r
      return (n + 1, b)
    else .ok (0, broken)
termination_by cs.length

/-! ### Lexemes -/

/-- A character that a name may start with. -/
def isNameStart (c : Char) : Bool :=
  c == '_' || c == '$' || isLetter c

/-- A character that a name may go on with. -/
def isNamePart (c : Char) : Bool :=
  c == '_' || c == '$' || isLetter c || isNumeral c

/-- A digit of a numeral with a base mark; digits beyond the base are not told apart. -/
def isBasedDigit (c : Char) : Bool :=
  (Escape.hexValue? c).isSome || c == '_'

/-- The length of an exponent, zero if no digit follows its mark. -/
def exponentLength (cs : List Char) : Nat :=
  match cs with
  | e :: r =>
    if e = 'e' ∨ e = 'E' then
      let sign := match r with
        | s :: _ => if s = '+' ∨ s = '-' then 1 else 0
        | [] => 0
      match ((r.drop sign).takeWhile Char.isDigit).length with
      | 0 => 0
      | n => 1 + sign + n
    else 0
  | [] => 0

/-- The length of a fraction with its point. -/
def fractionLength (cs : List Char) : Nat :=
  match cs with
  | '.' :: r => 1 + (r.takeWhile Char.isDigit).length
  | _ => 0

/-- The length of the numeral in front. -/
def numeralLength (cs : List Char) : Nat :=
  match cs with
  | '0' :: c :: r =>
    if c ∈ ['x', 'X', 'b', 'B', 'o', 'O'] then 2 + (r.takeWhile isBasedDigit).length
    else decimalLength cs
  | _ => decimalLength cs
where
  decimalLength (cs : List Char) : Nat :=
    let whole := (cs.takeWhile fun c => c.isDigit || c == '_').length
    let fraction := fractionLength (cs.drop whole)
    whole + fraction + exponentLength (cs.drop (whole + fraction))

/-- The longest mark in front. -/
def mark? (cs : List Char) : Option String :=
  Token.marks.find? fun m => m.toList.isPrefixOf cs

/-- A token without its place: its kind, its text, and how many characters it takes behind its first
one. -/
structure Lexeme where
  kind : TokenKind
  text : String
  more : Nat

/-- A numeral starts with a digit, or with a point that a digit follows. -/
def startsNumeral (c : Char) (r : List Char) : Bool :=
  c.isDigit || (c == '.' && (r.head?.any Char.isDigit))

/-- The lexeme that starts with `c`, which is no trivia. -/
def lexeme (c : Char) (r : List Char) : Except Fault Lexeme :=
  if c = '"' ∨ c = '\x27' then
    (Escape.literalBody c r).map fun (value, n) => ⟨.string, String.ofList value, n⟩
  else if startsNumeral c r then
    let n := numeralLength (c :: r)
    .ok ⟨.number, String.ofList ((c :: r).take n), n - 1⟩
  else if isNameStart c then
    let tail := r.takeWhile isNamePart
    .ok ⟨.identifier, String.ofList (c :: tail), tail.length⟩
  else
    match mark? (c :: r) with
    | some m => .ok ⟨.mark, m, m.length - 1⟩
    | none => .error (.strayChar c)

end Scan

/-! ### The tokens of a text -/

namespace Token

/-- The tokens of the characters at offset `pos`, an end of file behind them. -/
def scanFrom (pos : Nat) (cs : List Char) : Except SourceError (List Token) := do
  let (n, broken) ← Scan.trivia pos false cs
  let start := pos + byteSize (cs.take n)
  match _h : cs.drop n with
  | [] => return [⟨.endOfFile, "", start, broken⟩]
  | c :: r =>
    match Scan.lexeme c r with
    | .error fault => throw ⟨fault, start⟩
    | .ok l =>
      let rest ← scanFrom (start + byteSize (c :: r.take l.more)) (r.drop l.more)
      return ⟨l.kind, l.text, start, broken⟩ :: rest
termination_by cs.length
decreasing_by
  have := congrArg List.length _h
  simp only [List.length_drop, List.length_cons] at this ⊢
  omega

/-- The tokens of a source text. -/
def scan (source : String) : Except SourceError (List Token) :=
  scanFrom 0 source.toList

end Token

end DebugGuard
