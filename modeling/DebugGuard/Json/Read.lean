import DebugGuard.Json.Basic
import DebugGuard.Script.Escape
import DebugGuard.Taken

/-!
# Reading JSON

`Json.parse` accepts exactly the texts of the JSON grammar.  Nothing is said about why a text is
refused.
-/

namespace DebugGuard.Json

/-! ### Leaves -/

/-- The four characters that separate values. -/
def isBlank (c : Char) : Bool :=
  c == ' ' || c == '\n' || c == '\t' || c == '\r'

/-- Blanks in front. -/
def blanks (cs : List Char) : Passed cs Unit :=
  ⟨(), cs.dropWhile isBlank, (List.dropWhile_sublist _).length_le⟩

/-- Takes the characters of `text`. -/
def exactly? (text : String) (cs : List Char) : Option (Taken cs Unit) :=
  let rest := cs.drop text.length
  if h : text.toList.isPrefixOf cs ∧ rest.length < cs.length then some ⟨(), rest, h.2⟩ else none

/-- Takes one character. -/
def char? (c : Char) (cs : List Char) : Option (Taken cs Unit) :=
  match cs with
  | [] => none
  | d :: rest => if d = c then some ⟨(), rest, Nat.lt_succ_self _⟩ else none

/-- Decimal digits in front. -/
def digits (cs : List Char) : Passed cs (List Nat) :=
  ⟨(cs.takeWhile Char.isDigit).map (·.toNat - 48), cs.dropWhile Char.isDigit,
    (List.dropWhile_sublist _).length_le⟩

/-- At least one decimal digit. -/
def digits? (cs : List Char) : Option (Taken cs (List Nat)) :=
  let ⟨ds, rest, _⟩ := digits cs
  if h : ds ≠ [] ∧ rest.length < cs.length then some ⟨ds, rest, h.2⟩ else none

/-- Digits without zeros in front. -/
def whole? (cs : List Char) : Option (Taken cs (List Nat)) := do
  let ⟨ds, rest, h⟩ ← digits? cs
  if ds.head? = some 0 ∧ ds ≠ [0] then none else some ⟨ds, rest, h⟩

/-- The digits behind a point, if there is one. -/
def fraction? (cs : List Char) : Option (Passed cs (List Nat)) :=
  match char? '.' cs with
  | none => some ⟨[], cs, Nat.le_refl _⟩
  | some ⟨_, r, _⟩ => do
    let ⟨ds, rest, _⟩ ← digits? r
    return ⟨ds, rest, by omega⟩

/-- A sign, true if negative. -/
def sign (cs : List Char) : Passed cs Bool :=
  match char? '-' cs with
  | some ⟨_, r, h⟩ => ⟨true, r, Nat.le_of_lt h⟩
  | none =>
    match char? '+' cs with
    | some ⟨_, r, h⟩ => ⟨false, r, Nat.le_of_lt h⟩
    | none => ⟨false, cs, Nat.le_refl _⟩

/-- An exponent, if there is one. -/
def exponent? (cs : List Char) : Option (Passed cs (Option (Bool × List Nat))) :=
  match (char? 'e' cs).or (char? 'E' cs) with
  | none => some ⟨none, cs, Nat.le_refl _⟩
  | some ⟨_, r, _⟩ => do
    let ⟨negative, r', _⟩ := sign r
    let ⟨ds, rest, _⟩ ← digits? r'
    return ⟨some (negative, ds), rest, by omega⟩

/-- A numeral: perhaps a minus sign, then digits, a fraction and an exponent. -/
def numeral? (cs : List Char) : Option (Taken cs Numeral) := do
  let ⟨negative, r, _⟩ : Passed cs Bool := match char? '-' cs with
    | some ⟨_, r, h⟩ => ⟨true, r, Nat.le_of_lt h⟩
    | none => ⟨false, cs, Nat.le_refl _⟩
  let ⟨whole, r', _⟩ ← whole? r
  let ⟨fraction, r'', _⟩ ← fraction? r'
  let ⟨exponent, rest, _⟩ ← exponent? r''
  return ⟨⟨negative, whole, fraction, exponent⟩, rest, by omega⟩

/-! ### Strings -/

/-- The value of four hexadecimal digits. -/
def hex4? (cs : List Char) : Option (Taken cs Nat) :=
  match cs with
  | a :: b :: c :: d :: rest =>
    (Escape.hexDigits? [a, b, c, d]).map fun n => ⟨n, rest, by simp only [List.length_cons]; omega⟩
  | _ => none

/-- The characters that escape letters stand for. -/
def letterValue? : Char → Option Char
  | '"' => some '"'
  | '\\' => some '\\'
  | '/' => some '/'
  | 'b' => some '\x08'
  | 'f' => some '\x0c'
  | 'n' => some '\n'
  | 'r' => some '\r'
  | 't' => some '\t'
  | _ => none

/-- The escape of a low surrogate. -/
def lowSurrogate? (cs : List Char) : Option (Taken cs Nat) := do
  let ⟨_, r, _⟩ ← exactly? "\\u" cs
  let ⟨low, rest, _⟩ ← hex4? r
  if Escape.isLowSurrogate low then some ⟨low, rest, by omega⟩ else none

/-- The character of an escape of four digits, behind them if need be that of its low surrogate; no
character if half a pair is left over. -/
def unicode? (cs : List Char) : Option (Taken cs (Option Char)) := do
  let ⟨code, r, _⟩ ← hex4? cs
  if Escape.isHighSurrogate code then
    match lowSurrogate? r with
    | some ⟨low, rest, _⟩ => some ⟨some (Char.ofNat (Escape.pairCode code low)), rest, by omega⟩
    | none => some ⟨none, r, by omega⟩
  else if Escape.isLowSurrogate code then some ⟨none, r, by omega⟩
  else some ⟨some (Char.ofNat code), r, by omega⟩

/-- The text of a string behind its opening quote, up to and with the closing one. -/
def stringBody? (cs : List Char) : Option (Taken cs (Option (List Char))) :=
  match cs with
  | [] => none
  | c :: r =>
    if c = '"' then some ⟨some [], r, by simp⟩
    else if c.toNat < 32 then none
    else if c = '\\' then
      match char? 'u' r with
      | some ⟨_, r', _⟩ => do
        let ⟨char, r'', _⟩ ← unicode? r'
        let ⟨more, rest, _⟩ ← stringBody? r''
        return ⟨(· :: ·) <$> char <*> more, rest, by simp only [List.length_cons]; omega⟩
      | none =>
        match r with
        | [] => none
        | e :: r' => do
          let char ← letterValue? e
          let ⟨more, rest, _⟩ ← stringBody? r'
          return ⟨more.map (char :: ·), rest, by simp only [List.length_cons]; omega⟩
    else do
      let ⟨more, rest, _⟩ ← stringBody? r
      return ⟨more.map (c :: ·), rest, by simp only [List.length_cons]; omega⟩
termination_by cs.length
decreasing_by all_goals simp only [List.length_cons]; omega

/-- A string in quotes; it has no text if half a surrogate pair is left over. -/
def string? (cs : List Char) : Option (Taken cs (Option String)) := do
  let ⟨_, r, _⟩ ← char? '"' cs
  let ⟨text, rest, _⟩ ← stringBody? r
  return ⟨text.map String.ofList, rest, by omega⟩

/-! ### Values -/

mutual

/-- A value with the blanks in front of it. -/
def value? (cs : List Char) : Option (Taken cs Json) := do
  let ⟨_, r, _⟩ := blanks cs
  match exactly? "null" r with
  | some ⟨_, rest, _⟩ => return ⟨.null, rest, by omega⟩
  | none =>
  match exactly? "true" r with
  | some ⟨_, rest, _⟩ => return ⟨.boolean true, rest, by omega⟩
  | none =>
  match exactly? "false" r with
  | some ⟨_, rest, _⟩ => return ⟨.boolean false, rest, by omega⟩
  | none =>
  match char? '[' r with
  | some ⟨_, r', _⟩ =>
    let ⟨_, r'', _⟩ := blanks r'
    match char? ']' r'' with
    | some ⟨_, rest, _⟩ => return ⟨.array [], rest, by omega⟩
    | none =>
      let ⟨items, rest, _⟩ ← items? r''
      return ⟨.array items, rest, by omega⟩
  | none =>
  match char? '\x7b' r with
  | some ⟨_, r', _⟩ =>
    let ⟨_, r'', _⟩ := blanks r'
    match char? '\x7d' r'' with
    | some ⟨_, rest, _⟩ => return ⟨.object [], rest, by omega⟩
    | none =>
      let ⟨fields, rest, _⟩ ← fields? r''
      return ⟨.object fields, rest, by omega⟩
  | none =>
  match char? '"' r with
  | some _ =>
    let ⟨text, rest, _⟩ ← string? r
    return ⟨.string text, rest, by omega⟩
  | none =>
    let ⟨n, rest, _⟩ ← numeral? r
    return ⟨.number n, rest, by omega⟩
termination_by (cs.length, 0)

/-- At least one item of an array, up to and with the closing bracket. -/
def items? (cs : List Char) : Option (Taken cs (List Json)) := do
  let ⟨item, r, _⟩ ← value? cs
  let ⟨_, r', _⟩ := blanks r
  match char? ',' r' with
  | some ⟨_, r'', _⟩ =>
    let ⟨more, rest, _⟩ ← items? r''
    return ⟨item :: more, rest, by omega⟩
  | none =>
    let ⟨_, rest, _⟩ ← char? ']' r'
    return ⟨[item], rest, by omega⟩
termination_by (cs.length, 1)

/-- At least one field of an object, up to and with the closing brace. -/
def fields? (cs : List Char) : Option (Taken cs (List (Option String × Json))) := do
  let ⟨_, r, _⟩ := blanks cs
  let ⟨key, r₁, _⟩ ← string? r
  let ⟨_, r₂, _⟩ := blanks r₁
  let ⟨_, r₃, _⟩ ← char? ':' r₂
  let ⟨value, r₄, _⟩ ← value? r₃
  let ⟨_, r₅, _⟩ := blanks r₄
  match char? ',' r₅ with
  | some ⟨_, r₆, _⟩ =>
    let ⟨more, rest, _⟩ ← fields? r₆
    return ⟨(key, value) :: more, rest, by omega⟩
  | none =>
    let ⟨_, rest, _⟩ ← char? '\x7d' r₅
    return ⟨[(key, value)], rest, by omega⟩
termination_by (cs.length, 1)

end

/-- The value that a text writes, with nothing but blanks around it. -/
def parse (text : String) : Option Json := do
  let ⟨value, rest, _⟩ ← value? text.toList
  if (blanks rest).rest.isEmpty then some value else none

end DebugGuard.Json
