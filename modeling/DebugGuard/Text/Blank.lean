/-!
# Blank characters

The characters that separate tokens: the twenty-five characters of the property `White_Space`
and the byte order mark.  Three of them break a line.
-/

namespace DebugGuard.Text

/-- White space in the sense of the property `White_Space`. -/
def isWhiteSpace (c : Char) : Bool :=
  let n := c.toNat
  (9 ≤ n && n ≤ 13) || n == 32 || n == 0x85 || n == 0xA0 || n == 0x1680 ||
    (0x2000 ≤ n && n ≤ 0x200A) || n == 0x2028 || n == 0x2029 || n == 0x202F || n == 0x205F ||
    n == 0x3000

/-- A character that separates tokens: white space or the byte order mark. -/
def isBlank (c : Char) : Bool :=
  isWhiteSpace c || c.toNat == 0xFEFF

/-- A blank that ends a line: line feed, line separator or paragraph separator. -/
def breaksLine (c : Char) : Bool :=
  c == '\n' || c.toNat == 0x2028 || c.toNat == 0x2029

/-- A character that ends a line is a blank. -/
theorem isBlank_of_breaksLine {c : Char} (h : breaksLine c = true) : isBlank c = true := by
  simp only [breaksLine, Bool.or_eq_true, beq_iff_eq] at h
  rcases h with (rfl | h) | h
  · decide
  · simp [isBlank, isWhiteSpace, h]
  · simp [isBlank, isWhiteSpace, h]

end DebugGuard.Text
