import DebugGuard.Proofs.Script.Scanned
import DebugGuard.Proofs.Text.Decoding

/-!
# Where every word ends

Some characters carry no word on: blanks, and signs that stand next to one another.  To a word in
front of such a place it makes no difference what stands behind it, or whether anything does
(`Scan.lexeme_append`).  A string ends by itself, with its closing quote, so what stands behind it
never matters (`Scan.lexeme_string_append`).
-/

namespace DebugGuard

open Text

namespace Scan

variable {c d : Char} {cs rest rest' tail : List Char}

/-- No word at the end of `cs` goes on into `rest`. -/
structure Halts (cs rest : List Char) : Prop where
  name : Stops isNamePart rest
  mark : Stops (fun d => ['=', '>', '&', '|', '?', '.', '/', '*'].contains d) rest
  /-- Between the mark of an exponent and a digit a sign would belong to the numeral. -/
  sign : ∀ e ∈ cs.getLast?, e = 'e' ∨ e = 'E' → ∀ s r, rest = s :: r → s = '+' ∨ s = '-' →
    Stops Char.isDigit r

theorem Halts.suffix {before : List Char} (h : Halts (before ++ cs) rest) (hne : cs ≠ []) :
    Halts cs rest where
  name := h.name
  mark := h.mark
  sign e he := h.sign e (by rwa [List.getLast?_append_of_ne_nil _ hne])

theorem isNamePart_eq_false_of_isBlank (h : isBlank c = true) : isNamePart c = false := by
  have hall : ∀ n ∈ List.range' 9 5 ++ List.range' 0x2000 11 ++
      [32, 0x85, 0xA0, 0x1680, 0x2028, 0x2029, 0x202F, 0x205F, 0x3000, 0xFEFF],
      isNamePart (Char.ofNat n) = false := by decide +kernel
  have hc := hall _ (toNat_of_isBlank h)
  rwa [Char.ofNat_toNat] at hc

theorem halts_blank (h : isBlank d = true) : Halts cs (d :: rest) := by
  have hne (ds : List Char) (hds : ds.all (fun e => !isBlank e) = true) :
      ds.contains d = false := by
    by_contra hmem
    have hd := List.all_eq_true.1 hds d (List.contains_iff_mem.1 (by simpa using hmem))
    simp [h] at hd
  refine ⟨stops_cons.2 (isNamePart_eq_false_of_isBlank h), stops_cons.2 (hne _ (by decide)), ?_⟩
  intro e he hexponent s r heq hs
  obtain ⟨rfl, rfl⟩ := List.cons.inj heq
  have hsign := hne ['+', '-'] (by decide)
  rcases hs with rfl | rfl <;> exact absurd hsign (by decide)

/-- A sign that stands in no exponent starts a word. -/
theorem halts_sign (hc : c = '+' ∨ c = '-')
    (hrest : ∀ e ∈ cs.getLast?, e = 'e' ∨ e = 'E' → Stops Char.isDigit rest) :
    Halts cs (c :: rest) := by
  refine ⟨stops_cons.2 ?_, stops_cons.2 ?_, ?_⟩
  · rcases hc with rfl | rfl <;> decide
  · rcases hc with rfl | rfl <;> decide
  · intro e he hexponent s r heq hs
    obtain ⟨rfl, rfl⟩ := List.cons.inj heq
    exact hrest e he hexponent

/-- Of two signs next to each other, neither belongs to the word in front of it. -/
theorem halts_signs (hc : c = '+' ∨ c = '-') :
    Halts cs (c :: c :: rest) ∧ Halts (cs ++ [c]) (c :: rest) := by
  constructor
  · refine halts_sign hc fun e he hexponent => stops_cons.2 ?_
    rcases hc with rfl | rfl <;> decide
  · refine halts_sign hc fun e he hexponent => ?_
    rw [List.getLast?_append_of_ne_nil _ (List.cons_ne_nil _ _)] at he
    cases he
    rcases hc with rfl | rfl <;> exact absurd hexponent (by decide)

/-! ### Numerals -/

theorem exponentLength_append_of_halts (h : Halts cs rest) :
    exponentLength (cs ++ rest) = exponentLength cs := by
  have hd : Stops Char.isDigit rest := h.name.mono fun _ => isNamePart_of_isDigit
  cases cs with
  | nil =>
    cases rest with
    | nil => rfl
    | cons d rest =>
      have hd : ¬(d = 'e' ∨ d = 'E') := by
        rintro (rfl | rfl) <;> exact absurd (stops_cons.1 h.name) (by decide)
      simp [exponentLength, hd]
  | cons e r =>
    by_cases he : e = 'e' ∨ e = 'E'
    · rw [List.cons_append, exponentLength_cons he, exponentLength_cons he]
      cases r with
      | cons s r =>
        have hle : signLength (s :: r) ≤ (s :: r).length := by
          rw [signLength]
          split <;> simp
        have hsign : signLength (s :: r ++ rest) = signLength (s :: r) := rfl
        rw [hsign, List.drop_append_of_le_length hle, takeWhile_append_of_stops hd]
      | nil =>
        -- a sign at the boundary has no digit behind it, so it makes no exponent
        have hnone : (rest.drop (signLength rest)).takeWhile Char.isDigit = [] := by
          cases rest with
          | nil => rfl
          | cons s rest =>
            by_cases hs : s = '+' ∨ s = '-'
            · simpa [signLength, hs] using
                takeWhile_append_of_stops (h.sign e rfl he s rest rfl hs) []
            · simpa [signLength, hs] using takeWhile_append_of_stops hd []
        rw [List.nil_append, hnone]
        rfl
    · simp [exponentLength, he]

theorem decimalLength_append_of_halts (h : Halts cs rest) :
    numeralLength.decimalLength (cs ++ rest) = numeralLength.decimalLength cs := by
  have hd : Stops Char.isDigit rest := h.name.mono fun _ => isNamePart_of_isDigit
  have hw : Stops (fun c => c.isDigit || c == '_') rest := h.name.mono fun c hc => by
    rcases Bool.or_eq_true_iff.1 hc with hc | hc
    · exact isNamePart_of_isDigit hc
    · rw [beq_iff_eq.1 hc]
      decide
  have hp : Stops (· == '.') rest := h.mark.mono fun c hc => by
    rw [beq_iff_eq.1 hc]
    decide
  simp only [numeralLength.decimalLength]
  rw [takeWhile_append_of_stops hw]
  set whole := (cs.takeWhile fun c => c.isDigit || c == '_').length
  have hwhole : whole ≤ cs.length := length_takeWhile_le _ cs
  rw [List.drop_append_of_le_length hwhole, fractionLength_append hd fun _ => hp]
  set fraction := fractionLength (cs.drop whole)
  have hfraction : fraction ≤ cs.length - whole := by
    simpa using fractionLength_le (cs.drop whole)
  rw [List.drop_append_of_le_length (by omega)]
  -- what is left in front of the boundary ends where `cs` ends, if anything is left
  by_cases hne : cs.drop (whole + fraction) = []
  · rw [hne]
    have hnil : Halts [] rest := ⟨h.name, h.mark, fun e he => by cases he⟩
    rw [exponentLength_append_of_halts hnil]
  · have hsplit : cs = cs.take (whole + fraction) ++ cs.drop (whole + fraction) :=
      (List.take_append_drop _ cs).symm
    rw [exponentLength_append_of_halts ((hsplit ▸ h).suffix hne)]

theorem numeralLength_append_of_halts (h : Halts (c :: cs) rest) :
    numeralLength (c :: cs ++ rest) = numeralLength (c :: cs) := by
  have hbase : ∀ d ∈ rest.head?, d ∉ ['x', 'X', 'b', 'B', 'o', 'O'] := by
    intro d hd hmem
    have hall : ['x', 'X', 'b', 'B', 'o', 'O'].all isNamePart = true := by decide
    exact Bool.false_ne_true ((h.name d hd).symm.trans (List.all_eq_true.1 hall d hmem))
  rcases numeralLength_cases (c :: cs) with ⟨d, r, heq, hd⟩ | hdec
  · have hb : Stops isBasedDigit rest := h.name.mono fun _ => isNamePart_of_isBasedDigit
    rw [heq, List.cons_append, List.cons_append, numeralLength_of_base hd, numeralLength_of_base hd,
      takeWhile_append_of_stops hb]
  · rw [numeralLength_of_decimal hdec, numeralLength_of_decimal fun d r heq => ?_,
      decimalLength_append_of_halts h]
    cases cs with
    | nil =>
      obtain ⟨-, rfl⟩ : c = '0' ∧ rest = d :: r := by simpa using heq
      exact hbase d rfl
    | cons d' cs =>
      obtain ⟨hzero, hd, -⟩ : c = '0' ∧ d' = d ∧ cs ++ rest = r := by simpa using heq
      exact hdec d cs (by rw [hzero, hd])

theorem startsNumeral_append_of_halts (h : Halts (c :: cs) rest) :
    startsNumeral c (cs ++ rest) = startsNumeral c cs := by
  cases cs with
  | cons d cs => rfl
  | nil =>
    cases rest with
    | nil => rfl
    | cons d rest =>
      have hd : d.isDigit = false := by
        by_contra hd
        have hpart := isNamePart_of_isDigit (by simpa using hd)
        exact Bool.false_ne_true ((stops_cons.1 h.name).symm.trans hpart)
      simp [startsNumeral, hd]

/-! ### Marks -/

/-- Past its first character a mark has only characters that carry a mark on. -/
theorem marks_tail : ∀ m ∈ Token.marks, ∀ d ∈ m.toList.tail,
    ['=', '>', '&', '|', '?', '.', '/', '*'].contains d = true := by
  have hall : Token.marks.all (fun m => m.toList.tail.all fun d =>
      ['=', '>', '&', '|', '?', '.', '/', '*'].contains d) = true := by
    decide +kernel
  exact fun m hm d hd => List.all_eq_true.1 (List.all_eq_true.1 hall m hm) d hd

theorem mark?_append_of_halts (h : Halts (c :: cs) rest) :
    mark? (c :: cs ++ rest) = mark? (c :: cs) := by
  refine List.find?_congr fun m hm => ?_
  rw [Bool.eq_iff_iff, List.isPrefixOf_iff_prefix, List.isPrefixOf_iff_prefix]
  refine ⟨fun hp => ?_, fun hp => hp.trans (List.prefix_append _ _)⟩
  by_contra hlong
  -- a longer mark would have the first character behind the boundary in its tail
  rcases Nat.le_total m.toList.length (c :: cs).length with hle | hle
  · exact hlong (List.prefix_of_prefix_length_le hp (List.prefix_append _ _) hle)
  obtain ⟨more, hmore⟩ := List.prefix_of_prefix_length_le (List.prefix_append _ _) hp hle
  rw [← hmore, List.prefix_append_right_inj] at hp
  cases more with
  | nil => exact hlong (by rw [← hmore, List.append_nil])
  | cons d more =>
    obtain ⟨more', rfl⟩ := hp
    have hd := marks_tail m hm d (by rw [← hmore]; simp)
    exact Bool.false_ne_true ((stops_cons.1 h.mark).symm.trans hd)

/-! ### Lexemes -/

/-- A boundary ends a word just as the end of the text does. -/
theorem lexeme_append (hc : ¬Escape.IsQuote c) (h : Halts (c :: cs) rest) :
    lexeme c (cs ++ rest) = lexeme c cs := by
  have htake : (c :: (cs ++ rest)).take (numeralLength (c :: cs)) =
      (c :: cs).take (numeralLength (c :: cs)) := by
    rw [← List.cons_append, List.take_append_of_le_length (numeralLength_le _)]
  have hquote : ¬(c = '"' ∨ c = '\x27') := hc
  simp only [lexeme]
  rw [if_neg hquote, if_neg hquote, startsNumeral_append_of_halts h, ← List.cons_append,
    numeralLength_append_of_halts h, List.cons_append, htake, takeWhile_append_of_stops h.name,
    ← List.cons_append, mark?_append_of_halts h]

/-- The words that start with a quote are the strings. -/
theorem kind_eq_string_iff {l : Lexeme} (h : lexeme c cs = .ok l) :
    l.kind = .string ↔ Escape.IsQuote c := by
  rw [lexeme] at h
  by_cases hc : c = '"' ∨ c = '\x27'
  · rw [if_pos hc] at h
    cases hbody : Escape.literalBody c cs with
    | error e =>
      rw [hbody] at h
      cases h
    | ok x =>
      rw [hbody] at h
      cases h
      exact iff_of_true rfl hc
  · rw [if_neg hc] at h
    refine iff_of_false (fun hkind => ?_) hc
    split_ifs at h
    · cases h
      cases hkind
    · cases h
      cases hkind
    · cases hmark : mark? (c :: cs) with
      | none =>
        rw [hmark] at h
        cases h
      | some m =>
        rw [hmark] at h
        cases h
        cases hkind

/-- A string is written in units, and ends with its closing quote. -/
theorem exists_spells_of_lexeme {w : Word} (hc : Escape.IsQuote c)
    (h : lexeme c (tail ++ rest) = .ok ⟨w.kind, w.text, tail.length⟩) :
    ∃ value text, Escape.Spells Escape.Scanned c value text ∧ tail = text ++ [c] ∧
      w = ⟨.string, String.ofList value⟩ := by
  have hquote : c = '"' ∨ c = '\x27' := hc
  rw [lexeme, if_pos hquote] at h
  cases hbody : Escape.literalBody c (tail ++ rest) with
  | error e =>
    rw [hbody] at h
    cases h
  | ok x =>
    obtain ⟨value, n⟩ := x
    rw [hbody] at h
    obtain ⟨text, rest', hspells, hsplit, rfl⟩ := Escape.spells_of_literalBody hbody
    simp only [Except.map, Except.ok.injEq, Lexeme.mk.injEq] at h
    obtain ⟨hkind, htext, hlen⟩ := h
    refine ⟨value, text, hspells, ?_, by rw [hkind, htext]⟩
    have hsplit : tail ++ rest = (text ++ [c]) ++ rest' := by rw [hsplit]; simp
    exact (List.append_inj hsplit (by simpa using hlen.symm)).1

/-- A string is the same string in front of any other text. -/
theorem lexeme_string_append {w : Word} (hc : Escape.IsQuote c)
    (h : lexeme c (tail ++ rest) = .ok ⟨w.kind, w.text, tail.length⟩) (rest' : List Char) :
    lexeme c (tail ++ rest') = .ok ⟨w.kind, w.text, tail.length⟩ := by
  have hquote : c = '"' ∨ c = '\x27' := hc
  obtain ⟨value, text, hspells, rfl, rfl⟩ := exists_spells_of_lexeme hc h
  rw [lexeme, if_pos hquote, List.append_assoc, List.singleton_append,
    Escape.literalBody_of_spells hc hspells rest', List.length_append, List.length_singleton]
  rfl

end Scan

end DebugGuard
