import DebugGuard.Script.SourceError

/-!
# String literals and their escapes

A string literal is read from the characters after its opening quote.  Each function here says what
it read and how many characters that took, so the text it read and the text that is left are `take`
and `drop` of one list.

Escapes spell a character by a letter, by two or four hexadecimal digits, or by hexadecimal digits
in braces.  A character beyond the first plane may also be spelled as two surrogates, each an escape
of its own.
-/

namespace DebugGuard.Escape

/-- The value of a hexadecimal digit. -/
def hexValue? (c : Char) : Option Nat :=
  if '0' ≤ c ∧ c ≤ '9' then some (c.toNat - 48)
  else if 'a' ≤ c ∧ c ≤ 'f' then some (c.toNat - 87)
  else if 'A' ≤ c ∧ c ≤ 'F' then some (c.toNat - 55)
  else none

/-- The value of hexadecimal digits, most significant first. -/
def hexDigits? (digits : List Char) : Option Nat :=
  digits.foldlM (fun value c => (hexValue? c).map (16 * value + ·)) 0

/-- A hexadecimal numeral of thirty-two bits: at least one digit, a plus sign allowed in front. -/
def hexNumeral? (cs : List Char) : Option Nat :=
  let digits := match cs with
    | '+' :: r => r
    | r => r
  if digits.isEmpty then none else (hexDigits? digits).filter (· < UInt32.size)

/-- The value of the first `count` characters as a hexadecimal numeral. -/
def fixedHex (count : Nat) (cs : List Char) : Except Fault Nat :=
  if cs.length < count then .error .hexDigits
  else
    match hexNumeral? (cs.take count) with
    | some code => .ok code
    | none => .error .hexDigits

/-- The code of an escape after its `u`: four hexadecimal digits, or any number of them in braces.
The closing brace is looked for in all that follows. -/
def codeUnit (cs : List Char) : Except Fault (Nat × Nat) :=
  match cs with
  | '\x7b' :: r =>
    let digits := r.takeWhile (· != '\x7d')
    if digits.length = r.length then .error .openEscape
    else
      match hexNumeral? digits with
      | none => .error .hexDigits
      | some code =>
        if code > 0x10FFFF then .error .escapeRange else .ok (code, digits.length + 2)
  | _ => (fixedHex 4 cs).map (·, 4)

/-- The first half of a surrogate pair. -/
def isHighSurrogate (code : Nat) : Bool :=
  0xD800 ≤ code && code < 0xDC00

/-- The second half of a surrogate pair. -/
def isLowSurrogate (code : Nat) : Bool :=
  0xDC00 ≤ code && code < 0xE000

/-- The character of a surrogate pair. -/
def pairCode (high low : Nat) : Nat :=
  0x10000 + (high - 0xD800) * 1024 + (low - 0xDC00)

/-- The character with the given code, unless it is half of a surrogate pair. -/
def scalar (code : Nat) : Except Fault Char :=
  if code.isValidChar then .ok (Char.ofNat code) else .error .loneSurrogate

/-- An escape after its `u`, which may take the escape of a low surrogate along. -/
def unicode (cs : List Char) : Except Fault (Char × Nat) := do
  let (code, used) ← codeUnit cs
  if isHighSurrogate code then
    match cs.drop used with
    | '\\' :: 'u' :: r =>
      let (low, more) ← codeUnit r
      if isLowSurrogate low then return (← scalar (pairCode code low), used + 2 + more)
      else throw .loneSurrogate
    | _ => throw .loneSurrogate
  else return (← scalar code, used)

/-- The characters that escape letters stand for. -/
def letterValue? : Char → Option Char
  | 'n' => some '\n'
  | 't' => some '\t'
  | 'r' => some '\r'
  | 'b' => some '\x08'
  | 'f' => some '\x0c'
  | 'v' => some '\x0b'
  | '0' => some '\x00'
  | _ => none

/-- What an escape after its backslash spells, and its length.  A line feed spells nothing, and a
character without a meaning of its own spells itself. -/
def spelled (cs : List Char) : Except Fault (List Char × Nat) :=
  match cs with
  | [] => .error .openString
  | c :: r =>
    if c = '\n' then .ok ([], 1)
    else if c = 'x' then do
      let code ← fixedHex 2 r
      return ([← scalar code], 3)
    else if c = 'u' then do
      let (value, used) ← unicode r
      return ([value], used + 1)
    else .ok ([(letterValue? c).getD c], 1)

/-- The value of a string literal from behind its opening quote to its closing one, and the number
of characters up to and with the closing quote. -/
def literalBody (quote : Char) (cs : List Char) : Except Fault (List Char × Nat) :=
  match cs with
  | [] => .error .openString
  | c :: r =>
    if c = '\n' then .error .openString
    else if c = quote then .ok ([], 1)
    else if c = '\\' then do
      let (value, used) ← spelled r
      let (more, n) ← literalBody quote (r.drop used)
      return (value ++ more, 1 + used + n)
    else do
      let (more, n) ← literalBody quote r
      return (c :: more, n + 1)
termination_by cs.length
decreasing_by all_goals simp only [List.length_drop, List.length_cons]; omega

end DebugGuard.Escape
