import DebugGuard.Script.Scan
import Mathlib

/-!
# Numerals and what follows them

A numeral ends where the text behind it cannot carry it on (`numeralLength_append`): in front of any
character that is no part of a name, except that a point carries on a numeral of digits alone.
-/

namespace DebugGuard

open Text

/-- A text that is a numeral from its first to its last character. -/
def IsNumeral (text : List Char) : Prop :=
  ∃ c r, text = c :: r ∧ Scan.startsNumeral c r = true ∧ Scan.numeralLength text = text.length

/-- A numeral without base, point and exponent, which a point would carry on. -/
def isWhole (text : List Char) : Bool :=
  text.all fun c => c.isDigit || c == '_'

namespace Scan

/-- The text is empty or begins with a character that fails `p`. -/
def Stops (p : Char → Bool) (rest : List Char) : Prop :=
  ∀ c ∈ rest.head?, p c = false

@[simp] theorem stops_cons {p : Char → Bool} {c : Char} {rest : List Char} :
    Stops p (c :: rest) ↔ p c = false := by
  simp [Stops]

theorem takeWhile_append_of_stops {p : Char → Bool} {rest : List Char} (h : Stops p rest)
    (cs : List Char) : (cs ++ rest).takeWhile p = cs.takeWhile p := by
  induction cs with
  | nil =>
    cases rest with
    | nil => rfl
    | cons c rest => simp only [List.nil_append, List.takeWhile_cons, stops_cons.1 h]; rfl
  | cons c cs ih => simp only [List.cons_append, List.takeWhile_cons, ih]

theorem Stops.mono {p q : Char → Bool} {rest : List Char} (h : Stops q rest)
    (hpq : ∀ c, p c = true → q c = true) : Stops p rest := by
  intro c hc
  cases hp : p c
  · rfl
  · exact absurd (hpq c hp) (by simp [h c hc])

theorem length_takeWhile_le (p : Char → Bool) (cs : List Char) :
    (cs.takeWhile p).length ≤ cs.length :=
  (List.takeWhile_sublist p).length_le

theorem isNamePart_of_isDigit {c : Char} (h : c.isDigit = true) : isNamePart c = true := by
  simp [isNamePart, isNumeral_of_isDigit h]

theorem isNamePart_of_isAlpha {c : Char} (h : c.isAlpha = true) : isNamePart c = true := by
  simp [isNamePart, isLetter_of_isAlpha h]

theorem isNamePart_of_isBasedDigit {c : Char} (h : isBasedDigit c = true) :
    isNamePart c = true := by
  rcases Bool.or_eq_true_iff.1 h with h | h
  · simp only [Escape.hexValue?, Char.le_def, UInt32.le_iff_toNat_le] at h
    split_ifs at h with h1 h2 h3
    · exact isNamePart_of_isDigit (by simpa [Char.isDigit, UInt32.le_iff_toNat_le] using h1)
    · refine isNamePart_of_isAlpha (Bool.or_eq_true_iff.2 (.inr ?_))
      have hf : 'f'.val.toNat ≤ 'z'.val.toNat := by decide
      simpa [Char.isLower, UInt32.le_iff_toNat_le] using ⟨h2.1, h2.2.trans hf⟩
    · refine isNamePart_of_isAlpha (Bool.or_eq_true_iff.2 (.inl ?_))
      have hf : 'F'.val.toNat ≤ 'Z'.val.toNat := by decide
      simpa [Char.isUpper, UInt32.le_iff_toNat_le] using ⟨h3.1, h3.2.trans hf⟩
    · simp at h
  · rw [beq_iff_eq.1 h]; decide

/-! ### The parts of a decimal numeral -/

theorem fractionLength_le (cs : List Char) : fractionLength cs ≤ cs.length := by
  unfold fractionLength
  split
  · next r =>
    have := length_takeWhile_le Char.isDigit r
    simp only [List.length_cons]
    omega
  · exact Nat.zero_le _

theorem fractionLength_append {cs rest : List Char} (hd : Stops Char.isDigit rest)
    (hp : cs = [] → Stops (· == '.') rest) :
    fractionLength (cs ++ rest) = fractionLength cs := by
  cases cs with
  | nil =>
    cases rest with
    | nil => rfl
    | cons c rest =>
      have hc : c ≠ '.' := by simpa using hp rfl
      simp [fractionLength, hc]
  | cons c cs =>
    by_cases hc : c = '.'
    · subst hc
      simp only [List.cons_append, fractionLength, takeWhile_append_of_stops hd]
    · simp [fractionLength, hc]

/-- An exponent that takes all of `cs` takes nothing of the text behind it. -/
theorem exponentLength_append {cs rest : List Char} (h : exponentLength cs = cs.length)
    (hd : Stops Char.isDigit rest) (he : Stops (fun c => c == 'e' || c == 'E') rest) :
    exponentLength (cs ++ rest) = cs.length := by
  cases cs with
  | nil =>
    cases rest with
    | nil => rfl
    | cons c rest =>
      have hc : ¬(c = 'e' ∨ c = 'E') := by simpa using he
      simp [exponentLength, hc]
  | cons c cs =>
    simp only [exponentLength] at h
    simp only [List.cons_append, exponentLength]
    split_ifs at h ⊢ with hc
    · cases cs with
      | nil => simp at h
      | cons s cs =>
        simp only [List.cons_append] at h ⊢
        rw [← h]
        split_ifs with hs
        · simp only [List.drop_succ_cons, List.drop_zero, takeWhile_append_of_stops hd]
        · simp only [List.drop_zero, ← List.cons_append, takeWhile_append_of_stops hd]

theorem decimalLength_append {cs rest : List Char}
    (h : numeralLength.decimalLength cs = cs.length) (hn : Stops isNamePart rest)
    (hp : isWhole cs = true → Stops (· == '.') rest) :
    numeralLength.decimalLength (cs ++ rest) = cs.length := by
  have hd : Stops Char.isDigit rest := hn.mono fun _ => isNamePart_of_isDigit
  have hw : Stops (fun c => c.isDigit || c == '_') rest := hn.mono fun c hc => by
    rcases Bool.or_eq_true_iff.1 hc with hc | hc
    · exact isNamePart_of_isDigit hc
    · rw [beq_iff_eq.1 hc]; decide
  have he : Stops (fun c => c == 'e' || c == 'E') rest := hn.mono fun c hc => by
    simp only [Bool.or_eq_true, beq_iff_eq] at hc
    rcases hc with rfl | rfl <;> decide
  simp only [numeralLength.decimalLength] at h ⊢
  rw [takeWhile_append_of_stops hw]
  set whole := (cs.takeWhile fun c => c.isDigit || c == '_').length with hwhole
  have hle : whole ≤ cs.length := length_takeWhile_le _ cs
  rw [List.drop_append_of_le_length hle]
  -- the fraction is the same unless the digits took everything
  have hempty : cs.drop whole = [] → isWhole cs = true := by
    intro hnil
    have hall : cs.takeWhile (fun c => c.isDigit || c == '_') = cs :=
      (List.takeWhile_prefix _).eq_of_length (le_antisymm hle (by simpa using hnil))
    exact List.all_eq_true.2 (List.takeWhile_eq_self_iff.1 hall)
  rw [fractionLength_append hd fun hnil => hp (hempty hnil)]
  set fraction := fractionLength (cs.drop whole) with hfraction
  have hfle : fraction ≤ cs.length - whole := by
    simpa using fractionLength_le (cs.drop whole)
  rw [List.drop_append_of_le_length (by omega)]
  rw [exponentLength_append (by simp only [List.length_drop]; omega) hd he]
  simp only [List.length_drop]
  omega

/-! ### Numerals -/

/-- A numeral ends in front of a text that cannot carry it on. -/
theorem numeralLength_append {cs rest : List Char} (h : numeralLength cs = cs.length)
    (hne : cs ≠ []) (hn : Stops isNamePart rest) (hp : isWhole cs = true → Stops (· == '.') rest) :
    numeralLength (cs ++ rest) = cs.length := by
  have decimal (h : numeralLength.decimalLength cs = cs.length)
      (hbase : ∀ c r, cs ++ rest = '0' :: c :: r → c ∉ ['x', 'X', 'b', 'B', 'o', 'O']) :
      numeralLength (cs ++ rest) = cs.length := by
    rw [← decimalLength_append h hn hp]
    unfold numeralLength
    split
    · next c r hc => rw [if_neg (hbase c r hc)]
    · rfl
  match cs with
  | [c] =>
    refine decimal (by simpa [numeralLength] using h) fun d r hd hmem => ?_
    have hrest : rest = d :: r := (List.cons.inj hd).2
    rw [hrest, stops_cons] at hn
    have hall : ['x', 'X', 'b', 'B', 'o', 'O'].all isNamePart = true := by decide
    exact Bool.false_ne_true (hn.symm.trans (List.all_eq_true.1 hall d hmem))
  | c :: d :: r =>
    by_cases hbase : c = '0' ∧ d ∈ ['x', 'X', 'b', 'B', 'o', 'O']
    · obtain ⟨rfl, hd⟩ := hbase
      have hb : Stops isBasedDigit rest := hn.mono fun _ => isNamePart_of_isBasedDigit
      simp only [numeralLength, if_pos hd, List.cons_append, takeWhile_append_of_stops hb] at h ⊢
      exact h
    · refine decimal ?_ fun d' r' hd hmem => ?_
      · unfold numeralLength at h
        split at h
        · next c' r' hc =>
          obtain ⟨h0, hc⟩ := List.cons.inj hc
          obtain ⟨rfl, -⟩ := List.cons.inj hc
          rwa [if_neg fun hd => hbase ⟨h0, hd⟩] at h
        · exact h
      · obtain ⟨h0, hd⟩ := List.cons.inj hd
        obtain ⟨rfl, -⟩ := List.cons.inj hd
        exact hbase ⟨h0, hmem⟩

end Scan

end DebugGuard
