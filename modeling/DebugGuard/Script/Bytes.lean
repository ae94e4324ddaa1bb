import DebugGuard.Script.Scan

/-!
# The scanner on bytes

`Token.scan` goes through the characters of a text.  The scanner here keeps a byte offset instead:
it looks at single bytes, searches among bytes, and cuts the text at the offsets that it comes to.
A cut fails within a character, and so does a slice whose ends are in the wrong order.  A turn of a
loop that does not get ahead, or passes the end of the text, counts as a failure too.

Failures are kept apart from the faults of the text: a scan fails, or reports a fault, or gives
tokens (`Steps`).
-/

namespace DebugGuard

open Text

/-- Steps that may fail; if they do not, they give a value or report a fault. -/
abbrev Steps := ExceptT SourceError Option

/-! ### Bytes -/

namespace Text

/-- A byte of its own that spells a character with the property. -/
def isByteOf (p : Char → Bool) (b : UInt8) : Bool :=
  b < 128 && p (.ofNat b.toNat)

/-- The index of the first place where the bytes of `pattern` stand. -/
def findBytes? (pattern : List UInt8) : List UInt8 → Option Nat
  | [] => none
  | b :: bs =>
    if pattern.isPrefixOf (b :: bs) then some 0 else (findBytes? pattern bs).map (· + 1)

/-- The byte offset of the first character with the property. -/
def offsetOf? (p : Char → Bool) : List Char → Option Nat
  | [] => none
  | c :: cs => if p c then some 0 else (offsetOf? p cs).map (c.utf8Size + ·)

end Text

namespace ByteScan

variable (source : String)

/-- The byte at an offset; none at the end of the text and behind it. -/
def byte? (pos : Nat) : Option UInt8 :=
  (bytes source)[pos]?

/-- A character with the property, of one byte, stands at an offset. -/
def isAt (p : Char → Bool) (pos : Nat) : Bool :=
  (byte? source pos).any (isByteOf p)

/-- The bytes from an offset on. -/
def bytesFrom? (pos : Nat) : Option (List UInt8) :=
  if pos ≤ (bytes source).length then some ((bytes source).drop pos) else none

/-- The text from an offset on. -/
def textFrom? (pos : Nat) : Option String :=
  slice? source pos source.utf8ByteSize

/-- The offset behind the characters of one byte with the property. -/
def skip (p : Char → Bool) (pos : Nat) : Nat :=
  pos + (((bytes source).drop pos).takeWhile (isByteOf p)).length

/-- The offset lies ahead, but not behind the end of the text. -/
def GetsAhead (pos next : Nat) : Prop :=
  pos < next ∧ next ≤ source.utf8ByteSize

instance (pos next : Nat) : Decidable (GetsAhead source pos next) :=
  inferInstanceAs (Decidable (_ ∧ _))

/-! ### Trivia -/

/-- One turn over trivia: the offset behind a blank or a comment, and whether that holds a line
break; none in front of anything else. -/
def triviaTurn (pos : Nat) : Steps (Option (Nat × Bool)) :=
  if isAt source (· == '\n') pos then return some (pos + 1, true)
  else if isAt source (fun c => c == ' ' || c == '\t' || c == '\r') pos then
    return some (pos + 1, false)
  else if isAt source (· == '/') pos && isAt source (· == '/') (pos + 1) then do
    let rest ← bytesFrom? source pos
    match findBytes? (bytes "\n") rest with
    | some n => return some (pos + n, false)
    | none => return some (source.utf8ByteSize, false)
  else if isAt source (· == '/') pos && isAt source (· == '*') (pos + 1) then do
    let body ← bytesFrom? source (pos + 2)
    match findBytes? (bytes "*/") body with
    | none => throw ⟨.openComment, pos⟩
    | some n =>
      return some (pos + 2 + n + 2, (findBytes? (bytes "\n") (body.take n)).isSome)
  else if (byte? source pos).isNone then return none
  else do
    -- the other blanks are told by the character, which may be several bytes long
    let rest ← textFrom? source pos
    match rest.toList with
    | [] => return none
    | c :: _ =>
      if isBlank c then return some (pos + c.utf8Size, c.toNat == 0x2028 || c.toNat == 0x2029)
      else return none

/-- The offset behind all trivia, and whether it holds a line break. -/
def trivia (pos : Nat) (broken : Bool) : Steps (Nat × Bool) := do
  match ← triviaTurn source pos with
  | none => return (pos, broken)
  | some (next, breaks) =>
    -- a turn that stands still would be made again and again
    if GetsAhead source pos next then trivia next (broken || breaks)
    else (none : Option (Nat × Bool))
termination_by source.utf8ByteSize - pos
decreasing_by
  rename_i h
  unfold GetsAhead at h
  omega

/-! ### Strings -/

/-- The value of the next `count` bytes as a hexadecimal numeral.  Bytes that are no whole
characters are no numeral either. -/
def fixedHex (start count pos : Nat) : Steps Nat :=
  match (slice? source pos (pos + count)).bind fun digits => Escape.hexNumeral? digits.toList with
  | some code => return code
  | none => throw ⟨.hexDigits, start⟩

/-- The code of an escape after its `u`, and the offset behind it. -/
def codeUnit (start pos : Nat) : Steps (Nat × Nat) := do
  let rest ← textFrom? source pos
  if rest.toList.head? = some '\x7b' then
    let rest ← textFrom? source (pos + 1)
    match offsetOf? (· == '\x7d') rest.toList with
    | none => throw ⟨.openEscape, start⟩
    | some n =>
      let digits ← slice? source (pos + 1) (pos + 1 + n)
      match Escape.hexNumeral? digits.toList with
      | none => throw ⟨.hexDigits, start⟩
      | some code =>
        if code > 0x10FFFF then throw ⟨.escapeRange, start⟩ else return (code, pos + 1 + n + 1)
  else
    let code ← fixedHex source start 4 pos
    return (code, pos + 4)

/-- The character with the given code, unless it is half of a surrogate pair. -/
def scalar (start code : Nat) : Steps Char :=
  if code.isValidChar then return Char.ofNat code else throw ⟨.loneSurrogate, start⟩

/-- An escape after its `u`, and the offset behind it.  Without the escape of a low surrogate next
to it, that of a high surrogate stands alone. -/
def unicode (start pos : Nat) : Steps (Char × Nat) := do
  let (code, next) ← codeUnit source start pos
  if Escape.isHighSurrogate code then
    let rest ← textFrom? source next
    if ['\\', 'u'].isPrefixOf rest.toList then
      let (low, stop) ← codeUnit source start (next + 2)
      if Escape.isLowSurrogate low then
        return (← scalar start (Escape.pairCode code low), stop)
      else return (← scalar start code, next)
    else return (← scalar start code, next)
  else return (← scalar start code, next)

/-- What an escape after its backslash spells, and the offset behind it. -/
def escape (start pos : Nat) : Steps (List Char × Nat) := do
  let rest ← textFrom? source pos
  match rest.toList with
  | [] => throw ⟨.openString, start⟩
  | c :: _ =>
    let next := pos + c.utf8Size
    if c = '\n' then return ([], next)
    else if c = 'x' then
      let code ← fixedHex source start 2 next
      return ([← scalar start code], next + 2)
    else if c = 'u' then
      let (value, stop) ← unicode source start next
      return ([value], stop)
    else return ([(Escape.letterValue? c).getD c], next)

/-- One turn within a string literal: what it spells, the offset behind that, and whether this was
the closing quote. -/
def stringTurn (quote : Char) (start pos : Nat) : Steps (List Char × Nat × Bool) := do
  let rest ← textFrom? source pos
  match rest.toList with
  | [] => throw ⟨.openString, start⟩
  | c :: _ =>
    let next := pos + c.utf8Size
    if c = '\n' then throw ⟨.openString, start⟩
    else if c = quote then return ([], next, true)
    else if c = '\\' then
      let (value, stop) ← escape source start next
      return (value, stop, false)
    else return ([c], next, false)

/-- The value of a string literal from an offset within it on, and the offset behind its closing
quote. -/
def string (quote : Char) (start pos : Nat) : Steps (List Char × Nat) := do
  match ← stringTurn source quote start pos with
  | (value, next, true) => return (value, next)
  | (value, next, false) =>
    if GetsAhead source pos next then
      let (more, stop) ← string quote start next
      return (value ++ more, stop)
    else (none : Option (List Char × Nat))
termination_by source.utf8ByteSize - pos
decreasing_by
  rename_i h
  unfold GetsAhead at h
  omega

/-! ### Tokens -/

/-- The offset behind an exponent, if a digit follows its mark. -/
def exponentStop (pos : Nat) : Nat :=
  if isAt source (fun c => c == 'e' || c == 'E') pos then
    let digits := if isAt source (fun c => c == '+' || c == '-') (pos + 1) then pos + 2 else pos + 1
    if isAt source Char.isDigit digits then skip source Char.isDigit digits else pos
  else pos

/-- The offset behind a numeral. -/
def numeralStop (pos : Nat) : Nat :=
  if isAt source (· == '0') pos && isAt source (['x', 'X', 'b', 'B', 'o', 'O'].contains ·) (pos + 1)
  then skip source Scan.isBasedDigit (pos + 2)
  else
    let whole := skip source (fun c => c.isDigit || c == '_') pos
    exponentStop source
      (if isAt source (· == '.') whole then skip source Char.isDigit (whole + 1) else whole)

/-- The token at an offset that no trivia follows, and the offset behind it. -/
def token (start : Nat) (broken : Bool) : Steps (Token × Nat) :=
  if (byte? source start).isNone then return (⟨.endOfFile, "", start, broken⟩, start)
  else if isAt source (fun c => c == '"' || c == '\x27') start then do
    let quote := if isAt source (· == '"') start then '"' else '\x27'
    let (value, stop) ← string source quote start (start + 1)
    return (⟨.string, .ofList value, start, broken⟩, stop)
  else if isAt source Char.isDigit start ||
      isAt source (· == '.') start && isAt source Char.isDigit (start + 1) then do
    let stop := numeralStop source start
    let text ← slice? source start stop
    return (⟨.number, text, start, broken⟩, stop)
  else do
    let rest ← textFrom? source start
    if rest.toList.head?.any Scan.isNameStart then
      let size := (offsetOf? (!Scan.isNamePart ·) rest.toList).getD rest.utf8ByteSize
      let name ← slice? rest 0 size
      return (⟨.identifier, name, start, broken⟩, start + size)
    else
      match Scan.mark? rest.toList with
      | some m => return (⟨.mark, m, start, broken⟩, start + m.utf8ByteSize)
      | none => throw ⟨.strayChar (rest.toList.headD '\x00'), start⟩

/-- The tokens from an offset on. -/
def tokens (pos : Nat) : Steps (List Token) := do
  let (start, broken) ← trivia source pos false
  let (t, next) ← token source start broken
  if t.isEnd then return [t]
  else if GetsAhead source pos next then return t :: (← tokens next)
  else (none : Option (List Token))
termination_by source.utf8ByteSize - pos
decreasing_by
  rename_i h
  unfold GetsAhead at h
  omega

end ByteScan

/-- The tokens of a text, if no step fails. -/
def Token.scanBytes (source : String) : Steps (List Token) :=
  ByteScan.tokens source 0

end DebugGuard
