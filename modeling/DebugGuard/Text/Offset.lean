/-!
# Byte offsets and places

A position in a text is a byte offset of its UTF-8 form.  A reader wants a place instead: a line and
a column, both counted from one, the column in characters.

`Place.ofOffset` accepts every number: an offset inside a character counts as the start of that
character, an offset past the end as the end.
-/

namespace DebugGuard.Text

/-- The number of bytes that the characters occupy in UTF-8. -/
def byteSize : List Char → Nat
  | [] => 0
  | c :: cs => c.utf8Size + byteSize cs

@[simp] theorem byteSize_nil : byteSize [] = 0 := rfl

@[simp] theorem byteSize_cons (c : Char) (cs : List Char) :
    byteSize (c :: cs) = c.utf8Size + byteSize cs := rfl

@[simp] theorem byteSize_append (as bs : List Char) :
    byteSize (as ++ bs) = byteSize as + byteSize bs := by
  induction as with
  | nil => exact (Nat.zero_add _).symm
  | cons c as ih => simp only [List.cons_append, byteSize_cons, ih, Nat.add_assoc]

/-- The position that is kept of a byte offset: its lowest thirty-two bits. -/
def position (offset : Nat) : Nat :=
  offset % UInt32.size

theorem position_of_lt {offset : Nat} (h : offset < UInt32.size) : position offset = offset :=
  Nat.mod_eq_of_lt h

@[simp] theorem position_zero : position 0 = 0 := rfl

/-- The bytes of a text. -/
def bytes (source : String) : List UInt8 :=
  source.toUTF8.data.toList

/-- The text between two offsets; none if they are in the wrong order or one of them is no offset at
which the text can be cut. -/
def slice? (source : String) (start stop : Nat) : Option String :=
  if start ≤ stop ∧ String.Pos.Raw.isValid source ⟨start⟩ ∧
      String.Pos.Raw.isValid source ⟨stop⟩ then
    some (String.Pos.Raw.extract source ⟨start⟩ ⟨stop⟩)
  else none

/-- The longest run of characters at the front that fits into the given number of bytes. -/
def fitting : Nat → List Char → List Char
  | _, [] => []
  | size, c :: cs => if c.utf8Size ≤ size then c :: fitting (size - c.utf8Size) cs else []

/-- A line and a column, both counted from one. -/
structure Place where
  line : Nat
  column : Nat
  deriving DecidableEq, Repr

/-- The place right after the given characters. -/
def Place.after (before : List Char) : Place where
  line := before.count '\n' + 1
  column := (before.reverse.takeWhile (· != '\n')).length + 1

/-- The place of a byte offset in a text. -/
def Place.ofOffset (source : String) (offset : Nat) : Place :=
  .after (fitting offset source.toList)

end DebugGuard.Text
