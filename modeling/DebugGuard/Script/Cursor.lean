import DebugGuard.Script.SourceError
import DebugGuard.Script.Operator
import DebugGuard.Script.Tree
import DebugGuard.Taken

/-!
# Reading tokens

The small readers that the grammar is made of.  Each takes the tokens that are left and answers with
a value and with what is left behind it.  A reader that succeeds takes at least one token, and its
result type says so (`Taken`); that is what the grammar's recursion rests on.

The list of tokens ends with an end of file, which no reader takes.
-/

namespace DebugGuard

/-- What reading tokens gives. -/
abbrev Reading := Except SourceError

namespace Cursor

/-- The token in front. -/
def current (ts : List Token) : Token :=
  ts.headD .sentinel

/-- The byte offset where the token in front starts. -/
def start (ts : List Token) : Nat :=
  (current ts).start

/-- The token behind the one in front; the last token stands for all that would follow it. -/
def next (ts : List Token) : Token :=
  match ts with
  | _ :: t :: _ => t
  | _ => current ts

/-- The token in front is the mark spelled `text`. -/
def atMark (text : String) (ts : List Token) : Bool :=
  (current ts).isMark text

/-- The token in front is the word spelled `text`, reserved or not. -/
def atWord (text : String) (ts : List Token) : Bool :=
  (current ts).isWord text

/-- No token but the end of file is left. -/
def atEnd (ts : List Token) : Bool :=
  (current ts).isEnd

/-- Refuses the token in front. -/
def unexpected {α : Type} (wanted : Wanted) (ts : List Token) : Reading α :=
  .error ⟨.unexpected wanted (current ts), start ts⟩

/-- Takes the token in front if it satisfies `p`. -/
def take? (p : Token → Bool) (ts : List Token) : Option (Taken ts Token) :=
  match ts with
  | [] => none
  | t :: rest => if p t then some ⟨t, rest, Nat.lt_succ_self _⟩ else none

/-- Takes the token in front, which must satisfy `p`. -/
def take (p : Token → Bool) (wanted : Wanted) (ts : List Token) : Reading (Taken ts Token) :=
  match take? p ts with
  | some taken => .ok taken
  | none => unexpected wanted ts

/-- Takes the mark in front, which must be spelled `text`. -/
def mark (text : String) (ts : List Token) : Reading (Taken ts Token) :=
  take (·.isMark text) (.mark text) ts

/-- Takes the word in front, which must be spelled `text`. -/
def word (text : String) (ts : List Token) : Reading (Taken ts Token) :=
  take (·.isWord text) (.word text) ts

/-- The name of a binding. -/
def name (ts : List Token) : Reading (Taken ts Token) :=
  take Token.isName .name ts

/-- A name where reserved words are allowed too. -/
def anyName (ts : List Token) : Reading (Taken ts Token) :=
  take (·.kind = .identifier) .name ts

/-- Takes the string literal in front. -/
def stringLiteral (ts : List Token) : Reading (Taken ts Token) :=
  take (·.kind = .string) .stringLiteral ts

/-- Takes the mark in front, if it is spelled `text`. -/
def mark? (text : String) (ts : List Token) : Option (Taken ts Token) :=
  take? (·.isMark text) ts

/-- Takes the word in front, if it is spelled `text`. -/
def word? (text : String) (ts : List Token) : Option (Taken ts Token) :=
  take? (·.isWord text) ts

/-- The token in front ends a statement without being part of it. -/
def endsStatement (t : Token) : Bool :=
  t.isMark "\x7d" || t.isEnd || t.afterBreak

/-- The end of a statement: a semicolon, or else a token that ends the statement by itself. -/
def semicolon (ts : List Token) : Reading (Passed ts Unit) :=
  match mark? ";" ts with
  | some ⟨_, r, h⟩ => .ok ⟨(), r, Nat.le_of_lt h⟩
  | none =>
    if endsStatement (current ts) then .ok ⟨(), ts, Nat.le_refl _⟩
    else unexpected (.mark ";") ts

/-- Items up to the mark `close`, which is taken too, with commas between them and perhaps one
behind the last. -/
def commaList {α : Type} (close : String) (ts : List Token)
    (item : (us : List Token) → us.length ≤ ts.length → Reading (Taken us α)) :
    Reading (Taken ts (List α)) :=
  match mark? close ts with
  | some ⟨_, r, h⟩ => .ok ⟨[], r, h⟩
  | none => do
    let ⟨x, r, h⟩ ← item ts (Nat.le_refl _)
    match mark? "," r with
    | some ⟨_, r', h'⟩ =>
      let ⟨xs, r'', h''⟩ ← commaList close r' fun us _ => item us (by omega)
      return ⟨x :: xs, r'', shorter_trans₃ h h' h''⟩
    | none =>
      let ⟨_, r', h'⟩ ← mark close r
      return ⟨[x], r', shorter_trans h h'⟩
termination_by ts.length

/-- The tokens behind an opening parenthesis are parameters of an arrow function with its arrow. -/
def closesArrow : List Token → Bool
  | [] => false
  | t :: ts =>
    if t.isMark ")" then atMark "=>" ts
    else if t.kind ≠ .identifier then false
    else
      match ts with
      | [] => false
      | u :: us => if u.isMark "," then closesArrow us else u.isMark ")" && atMark "=>" us

/-- An arrow function stands in front. -/
def atArrow (ts : List Token) : Bool :=
  if (current ts).isName then (next ts).isMark "=>"
  else atMark "(" ts && closesArrow ts.tail

/-- A binary operator that binds tighter than `least`, with how tightly it binds. -/
def binaryOperator? (least : Nat) (ts : List Token) : Option (Taken ts (String × Nat)) :=
  match take? (fun t => t.kind = .mark || t.isWord "instanceof" || t.isWord "in") ts with
  | none => none
  | some ⟨t, r, h⟩ =>
    match Operator.precedence? t.text with
    | none => none
    | some p => if p ≤ least then none else some ⟨(t.text, p), r, h⟩

end Cursor

end DebugGuard
