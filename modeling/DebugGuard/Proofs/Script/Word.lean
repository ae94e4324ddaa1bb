import DebugGuard.Proofs.Script.Numeral
import DebugGuard.Proofs.Text.Quoted
import DebugGuard.Script.Piece

/-!
# Words are scanned as they were written

Pieces are scanned back into their words (`scanAfter_pieces`), provided that each word is one that
the scanner knows (`Word.Valid`) and that no word is carried on by the text behind it
(`Piece.Apart`).  A gap keeps any two words apart; without one it depends on the word and on the
next character (`Word.endsBefore`).
-/

namespace DebugGuard

open Text

/-! ### Words -/

namespace Word

/-- A word that the scanner cuts out of a text. -/
def Valid (w : Word) : Prop :=
  match w.kind with
  | .identifier => ∃ c r, w.text.toList = c :: r ∧ Scan.isNameStart c = true ∧
      ∀ d ∈ r, Scan.isNamePart d = true
  | .number => IsNumeral w.text.toList
  | .mark => w.text ∈ Token.marks
  | .string => True
  | .endOfFile => False

/-- Marks that no other mark begins with. -/
def solidMarks : List String :=
  ["(", ")", "[", "]", "\x7b", "\x7d", ";", ",", ":", "%"]

/-- The word ends in front of the character. -/
def endsBefore (w : Word) (c : Char) : Bool :=
  match w.kind with
  | .identifier => !Scan.isNamePart c
  | .number => !Scan.isNamePart c && (c != '.' || !isWhole w.text.toList)
  | .mark => solidMarks.contains w.text ||
      (!(['=', '>', '&', '|', '?', '/', '*'].contains c) &&
        (w.text != "." || (c != '.' && !c.isDigit)))
  | _ => true

/-- The text does not carry the word on. -/
def Before (w : Word) (rest : List Char) : Prop :=
  ∀ c ∈ rest.head?, w.endsBefore c = true

end Word

namespace Scan

/-! ### Characters that start a word -/

theorem toNat_of_isBlank {c : Char} (h : isBlank c = true) :
    c.toNat ∈ List.range' 9 5 ++ List.range' 0x2000 11 ++
      [32, 0x85, 0xA0, 0x1680, 0x2028, 0x2029, 0x202F, 0x205F, 0x3000, 0xFEFF] := by
  simp only [isBlank, isWhiteSpace, Bool.or_eq_true, Bool.and_eq_true, decide_eq_true_eq,
    beq_iff_eq] at h
  simp only [List.mem_append, List.mem_range'_1, List.mem_cons, List.not_mem_nil, or_false]
  omega

/-- No blank is a letter. -/
theorem isBlank_eq_false_of_isNameStart {c : Char} (h : isNameStart c = true) :
    isBlank c = false := by
  by_contra hb
  have hb := toNat_of_isBlank (by simpa using hb)
  have hall : ∀ n ∈ List.range' 9 5 ++ List.range' 0x2000 11 ++
      [32, 0x85, 0xA0, 0x1680, 0x2028, 0x2029, 0x202F, 0x205F, 0x3000, 0xFEFF],
      isNameStart (Char.ofNat n) = false := by decide +kernel
  have := hall _ hb
  rw [Char.ofNat_toNat, h] at this
  exact Bool.false_ne_true this.symm

theorem toNat_of_isDigit {c : Char} (h : c.isDigit = true) : 48 ≤ c.toNat ∧ c.toNat ≤ 57 := by
  simp only [Char.isDigit, Bool.and_eq_true, decide_eq_true_eq, UInt32.le_iff_toNat_le] at h
  exact h

theorem isBlank_eq_false_of_isDigit {c : Char} (h : c.isDigit = true) : isBlank c = false := by
  by_contra hb
  have hb := toNat_of_isBlank (by simpa using hb)
  have := toNat_of_isDigit h
  simp only [List.mem_append, List.mem_range'_1, List.mem_cons, List.not_mem_nil, or_false] at hb
  omega

theorem isNameStart_eq_false_of_isDigit {c : Char} (h : c.isDigit = true) :
    isNameStart c = false := by
  by_contra hs
  have hall : ∀ n ∈ List.range' 48 10, isNameStart (Char.ofNat n) = false := by decide
  have := toNat_of_isDigit h
  have := hall c.toNat (by rw [List.mem_range'_1]; omega)
  rw [Char.ofNat_toNat] at this
  exact hs this

/-- Trivia ends in front of a character that is neither blank nor the start of a comment. -/
theorem trivia_eq_zero {c : Char} {r : List Char} (hb : isBlank c = false)
    (hc : c = '/' → ∀ d ∈ r.head?, d ≠ '/' ∧ d ≠ '*') (pos : Nat) (broken : Bool) :
    trivia pos broken (c :: r) = .ok (0, broken) := by
  unfold trivia
  split
  · next heq => cases heq
  · next heq =>
    obtain ⟨rfl, rfl⟩ := List.cons.inj heq
    exact absurd rfl (hc rfl '/' rfl).1
  · next heq =>
    obtain ⟨rfl, rfl⟩ := List.cons.inj heq
    exact absurd rfl (hc rfl '*' rfl).2
  · next heq =>
    obtain ⟨rfl, rfl⟩ := List.cons.inj heq
    rw [if_neg (by simp [hb])]

/-! ### Lexemes -/

/-- The characters of `w` with `rest` behind them are cut into `w` and `rest`. -/
def Cuts (w : Word) (rest : List Char) : Prop :=
  ∃ c r, w.written = c :: r ∧ isBlank c = false ∧
    (c = '/' → ∀ d ∈ (r ++ rest).head?, d ≠ '/' ∧ d ≠ '*') ∧
    ∃ l, lexeme c (r ++ rest) = .ok l ∧ l.kind = w.kind ∧ l.text = w.text ∧ l.more = r.length

theorem cuts_string (value : String) (rest : List Char) : Cuts ⟨.string, value⟩ rest := by
  have hw : Word.written ⟨.string, value⟩ =
      '"' :: (value.toList.flatMap quotedChar ++ ['"']) := by
    simp [Word.written, quoted]
  refine ⟨'"', _, hw, by decide, by simp, ?_⟩
  rw [List.append_assoc, lexeme, if_pos (.inl rfl), List.singleton_append, literalBody_quoted]
  exact ⟨_, rfl, rfl, String.ofList_toList, by simp⟩

theorem cuts_identifier {text : String} (hv : Word.Valid ⟨.identifier, text⟩) {rest : List Char}
    (hr : Word.Before ⟨.identifier, text⟩ rest) : Cuts ⟨.identifier, text⟩ rest := by
  obtain ⟨c, r, htext, hc, hpart⟩ := hv
  have hstop : Stops isNamePart rest := fun d hd => by simpa [Word.endsBefore] using hr d hd
  have htake : (r ++ rest).takeWhile isNamePart = r := by
    rw [takeWhile_append_of_stops hstop, List.takeWhile_eq_self_iff.2 hpart]
  have hquote : ¬(c = '"' ∨ c = '\x27') := by
    rintro (rfl | rfl) <;> revert hc <;> decide
  have hnum : startsNumeral c (r ++ rest) = false := by
    have hpoint : c ≠ '.' := by rintro rfl; revert hc; decide
    have hdigit : c.isDigit = false := by
      by_contra hd
      rw [isNameStart_eq_false_of_isDigit (by simpa using hd)] at hc
      exact Bool.false_ne_true hc
    simp [startsNumeral, hpoint, hdigit]
  refine ⟨c, r, by simp [Word.written, htext], isBlank_eq_false_of_isNameStart hc, ?_, ?_⟩
  · rintro rfl
    exact absurd hc (by decide)
  · rw [lexeme, if_neg hquote, if_neg (by simp [hnum]), if_pos hc, htake]
    exact ⟨_, rfl, rfl, by simp [← htext], rfl⟩

theorem cuts_number {text : String} (hv : Word.Valid ⟨.number, text⟩) {rest : List Char}
    (hr : Word.Before ⟨.number, text⟩ rest) : Cuts ⟨.number, text⟩ rest := by
  obtain ⟨c, r, htext, hstart, hlen⟩ := hv
  have hend : ∀ d ∈ rest.head?, isNamePart d = false ∧ (d = '.' → isWhole text.toList = false) := by
    intro d hd
    have := hr d hd
    simp only [Word.endsBefore, Bool.and_eq_true, Bool.not_eq_true', Bool.or_eq_true,
      bne_iff_ne] at this
    exact ⟨this.1, fun h => this.2.resolve_left (not_not.2 h)⟩
  have hcut : numeralLength (c :: (r ++ rest)) = r.length + 1 := by
    rw [htext] at hlen hend
    refine @numeralLength_append (c :: r) _ hlen (by simp) (fun d hd => (hend d hd).1) ?_
    intro hw d hd
    by_contra hp
    rw [(hend d hd).2 (by simpa using hp)] at hw
    exact Bool.false_ne_true hw
  have hstart' : startsNumeral c (r ++ rest) = true := by
    cases r with
    | nil =>
      have hc : c.isDigit = true := by simpa [startsNumeral] using hstart
      simp [startsNumeral, hc]
    | cons d r => exact hstart
  have hc : c.isDigit = true ∨ c = '.' := by
    simp only [startsNumeral, Bool.or_eq_true, Bool.and_eq_true, beq_iff_eq] at hstart
    exact hstart.imp_right And.left
  have hquote : ¬(c = '"' ∨ c = '\x27') := by
    rcases hc with hc | rfl
    · rintro (rfl | rfl) <;> exact absurd hc (by decide)
    · decide
  refine ⟨c, r, by simp [Word.written, htext], ?_, ?_, ?_⟩
  · rcases hc with hc | rfl
    · exact isBlank_eq_false_of_isDigit hc
    · decide
  · rintro rfl
    exact absurd hc (by decide)
  · rw [lexeme, if_neg hquote, if_pos hstart', hcut]
    refine ⟨_, rfl, rfl, ?_, rfl⟩
    simp [List.take_left', ← htext]

/-- In the list of marks, those in front of a mark neither begin it nor carry it on, unless the
next character is one of a few. -/
theorem marks_order : ∀ m ∈ Token.marks, ∀ a ∈ Token.marks.takeWhile (· != m),
    ¬a.toList <+: m.toList ∧ (m.toList <+: a.toList → m ∉ Word.solidMarks ∧
      ∀ d ∈ (a.toList.drop m.toList.length).head?,
        d ∈ ['=', '>', '&', '|', '?'] ∨ d = '.' ∧ m = ".") := by
  have hall : ∀ m ∈ Token.marks, ∀ a ∈ Token.marks.takeWhile (· != m),
      ¬a.toList <+: m.toList ∧ (m.toList <+: a.toList → m ∉ Word.solidMarks ∧
        (a.toList.drop m.toList.length).head?.all fun d =>
          decide (d ∈ ['=', '>', '&', '|', '?'] ∨ d = '.' ∧ m = ".")) := by
    decide +kernel
  simpa only [Option.mem_def, Option.all_eq_true, decide_eq_true_eq] using hall

theorem marks_first : ∀ m ∈ Token.marks, m.toList ≠ [] ∧ ∀ c ∈ m.toList.head?,
    isBlank c = false ∧ c ∉ ['"', '\x27'] ∧ isNameStart c = false ∧ c.isDigit = false ∧
      (c = '.' → m.toList.tail = [] ∧ m = "." ∨ m.toList.tail.head? = some '.') ∧
      (c = '/' → m.toList.tail = [] ∧ m = "/" ∨ m.toList.tail.head? = some '=') := by
  have hall : ∀ m ∈ Token.marks, m.toList ≠ [] ∧ m.toList.head?.all fun c => decide
      (isBlank c = false ∧ c ∉ ['"', '\x27'] ∧ isNameStart c = false ∧ c.isDigit = false ∧
        (c = '.' → m.toList.tail = [] ∧ m = "." ∨ m.toList.tail.head? = some '.') ∧
        (c = '/' → m.toList.tail = [] ∧ m = "/" ∨ m.toList.tail.head? = some '=')) := by
    decide +kernel
  simpa only [Option.mem_def, Option.all_eq_true, decide_eq_true_eq] using hall

theorem marks_eq_append {m : String} (hm : m ∈ Token.marks) :
    Token.marks = Token.marks.takeWhile (· != m) ++ m ::
      (Token.marks.dropWhile (· != m)).tail := by
  have hne : Token.marks.dropWhile (· != m) ≠ [] := by
    rw [Ne, List.dropWhile_eq_nil_iff]
    exact fun h => by simpa using h m hm
  have hhead : (Token.marks.dropWhile (· != m)).head hne = m := by
    simpa using List.head_dropWhile_not (· != m) hne
  have hcons := List.cons_head_tail hne
  rw [hhead] at hcons
  rw [hcons, List.takeWhile_append_dropWhile]

theorem mark?_append {m : String} (hm : m ∈ Token.marks) {rest : List Char}
    (hr : Word.Before ⟨.mark, m⟩ rest) : mark? (m.toList ++ rest) = some m := by
  rw [mark?, List.find?_eq_some_iff_append]
  refine ⟨by simp, _, _, marks_eq_append hm, fun a ha => ?_⟩
  obtain ⟨hshort, hlong⟩ := marks_order m hm a ha
  rw [Bool.not_eq_true', ← Bool.not_eq_true, List.isPrefixOf_iff_prefix]
  intro hp
  rcases Nat.le_total a.toList.length m.toList.length with hle | hle
  · exact hshort (List.prefix_of_prefix_length_le hp (List.prefix_append _ _) hle)
  obtain ⟨s, hs⟩ := List.prefix_of_prefix_length_le (List.prefix_append _ _) hp hle
  obtain ⟨hsolid, hnext⟩ := hlong ⟨s, hs⟩
  rw [← hs, List.drop_left] at hnext
  rw [← hs, List.prefix_append_right_inj] at hp
  match s, hp with
  | [], _ => exact hshort ⟨[], by rw [← hs, List.append_nil, List.append_nil]⟩
  | d :: s, hp =>
    obtain ⟨t, rfl⟩ := hp
    have hend := hr d rfl
    simp only [Word.endsBefore, List.contains_eq_mem, hsolid, decide_false, Bool.false_or,
      Bool.and_eq_true, Bool.not_eq_true', decide_eq_false_iff_not, Bool.or_eq_true,
      bne_iff_ne] at hend
    rcases hnext d rfl with h | ⟨rfl, rfl⟩
    · exact hend.1 (by revert h; simp only [List.mem_cons]; tauto)
    · simp at hend

theorem cuts_mark {text : String} (hv : Word.Valid ⟨.mark, text⟩) {rest : List Char}
    (hr : Word.Before ⟨.mark, text⟩ rest) : Cuts ⟨.mark, text⟩ rest := by
  have hmark := mark?_append hv hr
  obtain ⟨hne, hfirst⟩ := marks_first text hv
  obtain ⟨c, r, htext⟩ := List.exists_cons_of_ne_nil hne
  obtain ⟨hblank, hquote, hname, hdigit, hpoint, hslash⟩ := hfirst c (by simp [htext])
  rw [htext, List.tail_cons] at hpoint hslash
  have hnum : startsNumeral c (r ++ rest) = false := by
    simp only [startsNumeral, hdigit, Bool.false_or, Bool.and_eq_false_iff, beq_eq_false_iff_ne]
    by_cases hc : c = '.'
    · refine .inr ?_
      rcases hpoint hc with ⟨rfl, rfl⟩ | h
      · cases rest with
        | nil => rfl
        | cons d rest =>
          have hend : Word.endsBefore ⟨.mark, "."⟩ d = true := hr d rfl
          have hsolid : Word.solidMarks.contains "." = false := by decide
          simp only [Word.endsBefore, hsolid] at hend
          simpa using (by simpa using hend : _ ∧ _ ∧ _).2.2
      · cases r with
        | nil => simp at h
        | cons d r =>
          obtain rfl : d = '.' := by simpa using h
          rfl
    · exact .inl hc
  refine ⟨c, r, by simp [Word.written, htext], hblank, ?_, ?_⟩
  · intro hc d hd
    rcases hslash hc with ⟨rfl, rfl⟩ | h
    · have hend : Word.endsBefore ⟨.mark, "/"⟩ d = true := hr d hd
      constructor <;> rintro rfl <;> exact absurd hend (by decide)
    · cases r with
      | nil => simp at h
      | cons d' r =>
        obtain rfl : d' = '=' := by simpa using h
        obtain rfl : '=' = d := by simpa using hd
        decide
  · rw [lexeme, if_neg (by simpa using hquote), if_neg (by simp [hnum]), if_neg (by simp [hname]),
      ← List.cons_append, ← htext, hmark]
    exact ⟨_, rfl, rfl, rfl, by simp [← String.length_toList, htext]⟩

end Scan

end DebugGuard
