import DebugGuard.Script.Escape
import Mathlib

/-!
# Hexadecimal numerals

A numeral is a list of hexadecimal digits, most significant first, in either case and with any
number of zeros in front (`HexNumeral`).  The scanner takes all of them for the numbers that they
stand for, as long as the number has thirty-two bits, and besides them a numeral with one plus sign
in front (`hexNumeral?_eq_some_iff`).
-/

namespace DebugGuard.Escape

/-- A hexadecimal digit, in either case, and its value. -/
def HexDigit (c : Char) (v : Nat) : Prop :=
  v < 16 ∧ (c = v.digitChar ∨ c = v.digitChar.toUpper)

/-- A hexadecimal digit, in either case. -/
def IsHex (c : Char) : Prop :=
  ∃ v, HexDigit c v

/-- Hexadecimal digits, most significant first, and the number that they stand for. -/
def HexNumeral (digits : List Char) (n : Nat) : Prop :=
  digits ≠ [] ∧ ∃ values, List.Forall₂ HexDigit digits values ∧ Nat.ofDigits 16 values.reverse = n

/-- What the scanner takes for a numeral: a plus sign may stand in front. -/
def Scanned (digits : List Char) (n : Nat) : Prop :=
  HexNumeral digits n ∨ ∃ unsigned, digits = '+' :: unsigned ∧ HexNumeral unsigned n

variable {digits : List Char} {n m : Nat}

/-! ### Digits -/

/-- No hexadecimal digit has a meaning of its own in a literal. -/
theorem IsHex.ne {c : Char} (h : IsHex c) : c ∉ ['"', '\x27', '\\', '+', '\x7b', '\x7d'] := by
  obtain ⟨v, hv, rfl | rfl⟩ := h <;> interval_cases v <;> decide

theorem hexDigit_of_hexValue? {c : Char} {v : Nat} (h : hexValue? c = some v) : HexDigit c v := by
  have hlt : c.toNat < 128 := by
    unfold hexValue? at h
    split_ifs at h with h₁ h₂ h₃
    · exact Nat.lt_of_le_of_lt (UInt32.le_iff_toNat_le.1 h₁.2) (by decide)
    · exact Nat.lt_of_le_of_lt (UInt32.le_iff_toNat_le.1 h₂.2) (by decide)
    · exact Nat.lt_of_le_of_lt (UInt32.le_iff_toNat_le.1 h₃.2) (by decide)
  have hall : ∀ n < 128, ∀ v ∈ hexValue? (Char.ofNat n), v < 16 ∧
      (Char.ofNat n = v.digitChar ∨ Char.ofNat n = v.digitChar.toUpper) := by
    decide +kernel
  have := hall c.toNat hlt v (by rw [Char.ofNat_toNat]; exact h)
  rwa [Char.ofNat_toNat] at this

theorem hexValue?_eq_some_iff {c : Char} {v : Nat} : hexValue? c = some v ↔ HexDigit c v := by
  refine ⟨hexDigit_of_hexValue?, ?_⟩
  rintro ⟨hv, rfl | rfl⟩ <;> interval_cases v <;> rfl

theorem hexDigits?_eq_some_iff : hexDigits? digits = some n ↔
    ∃ values, List.Forall₂ HexDigit digits values ∧ Nat.ofDigits 16 values.reverse = n := by
  -- digits behind others: what those stand for is multiplied by sixteen at each further digit
  have hfold (acc : Nat) : digits.foldlM (fun value c => (hexValue? c).map (16 * value + ·)) acc =
      some n ↔ ∃ values, List.Forall₂ HexDigit digits values ∧
        values.foldl (fun value v => v + 16 * value) acc = n := by
    induction digits generalizing acc with
    | nil => simp
    | cons c digits ih =>
      rw [List.foldlM_cons, Option.bind_eq_bind, Option.bind_eq_some_iff]
      simp only [Option.map_eq_some_iff, hexValue?_eq_some_iff, ih]
      constructor
      · rintro ⟨_, ⟨v, hv, rfl⟩, values, hvalues, rfl⟩
        exact ⟨v :: values, .cons hv hvalues, by rw [List.foldl_cons, Nat.add_comm]⟩
      · rintro ⟨_, hall, rfl⟩
        cases hall with
        | @cons _ v _ values hv hvalues =>
          exact ⟨_, ⟨v, hv, rfl⟩, values, hvalues, by rw [List.foldl_cons, Nat.add_comm]⟩
  simp only [hexDigits?, hfold, Nat.ofDigits_eq_foldr, List.foldr_reverse, Nat.cast_id]

/-! ### Numerals -/

theorem hexNumeral_iff : HexNumeral digits n ↔ digits ≠ [] ∧ hexDigits? digits = some n := by
  rw [hexDigits?_eq_some_iff, HexNumeral]

namespace HexNumeral

theorem unique (h : HexNumeral digits n) (h' : HexNumeral digits m) : n = m :=
  Option.some.inj ((hexNumeral_iff.1 h).2.symm.trans (hexNumeral_iff.1 h').2)

theorem isHex (h : HexNumeral digits n) : ∀ c ∈ digits, IsHex c := by
  obtain ⟨-, values, hvalues, -⟩ := h
  exact ((List.forall₂_and_left _ _).1 (hvalues.imp fun c v hv => ⟨⟨v, hv⟩, hv⟩)).1

theorem not_plus (h : HexNumeral ('+' :: digits) n) : False :=
  (h.isHex '+' List.mem_cons_self).ne (by decide)

/-- A zero in front changes nothing. -/
theorem cons_zero (h : HexNumeral digits n) : HexNumeral ('0' :: digits) n := by
  obtain ⟨-, values, hvalues, rfl⟩ := h
  refine ⟨List.cons_ne_nil _ _, 0 :: values, .cons ⟨by decide, .inl rfl⟩ hvalues, ?_⟩
  rw [List.reverse_cons, Nat.ofDigits_append, Nat.ofDigits_singleton, Nat.mul_zero, Nat.add_zero]

theorem lt (h : HexNumeral digits n) : n < 16 ^ digits.length := by
  obtain ⟨-, values, hvalues, rfl⟩ := h
  have hflip : List.Forall₂ (fun v c => HexDigit c v) values digits := hvalues.flip
  have hlt : ∀ v ∈ values.reverse, v < 16 := by
    intro v hv
    have hall := ((List.forall₂_and_left _ _).1 (hflip.imp fun v c hc => ⟨hc.1, hc⟩)).1
    exact hall v (List.mem_reverse.1 hv)
  rw [hvalues.length_eq, ← List.length_reverse]
  exact Nat.ofDigits_lt_base_pow_length (by decide) hlt

end HexNumeral

/-- Digits stand for some number. -/
theorem exists_hexNumeral (hne : digits ≠ []) (h : ∀ c ∈ digits, IsHex c) :
    ∃ n, HexNumeral digits n := by
  suffices ∃ values, List.Forall₂ HexDigit digits values by
    obtain ⟨values, hvalues⟩ := this
    exact ⟨_, hne, values, hvalues, rfl⟩
  clear hne
  induction digits with
  | nil => exact ⟨[], .nil⟩
  | cons c digits ih =>
    obtain ⟨v, hv⟩ := h c List.mem_cons_self
    obtain ⟨values, hvalues⟩ := ih fun d hd => h d (List.mem_cons_of_mem _ hd)
    exact ⟨v :: values, .cons hv hvalues⟩

/-! ### What the scanner takes -/

theorem hexNumeral?_eq_some_iff :
    hexNumeral? digits = some n ↔ Scanned digits n ∧ n < UInt32.size := by
  have hread (ds : List Char) : (if ds.isEmpty then none else
      (hexDigits? ds).filter (· < UInt32.size)) = some n ↔ HexNumeral ds n ∧ n < UInt32.size := by
    cases ds with
    | nil => simp [HexNumeral]
    | cons d ds => simp [Option.filter_eq_some_iff, hexDigits?_eq_some_iff, HexNumeral]
  unfold hexNumeral?
  dsimp only
  split
  · next r =>
    rw [hread]
    refine and_congr_left fun _ => ⟨fun h => .inr ⟨r, rfl, h⟩, ?_⟩
    rintro (h | ⟨r', heq, h⟩)
    · exact h.not_plus.elim
    · obtain rfl := (List.cons.inj heq).2
      exact h
  · next hsign =>
    rw [hread]
    refine and_congr_left fun _ => ⟨.inl, ?_⟩
    rintro (h | ⟨r', heq, -⟩)
    · exact h
    · exact absurd heq (hsign r')

namespace Scanned

theorem unique (h : Scanned digits n) (h' : Scanned digits m) : n = m := by
  rcases h with h | ⟨ds, rfl, h⟩ <;> rcases h' with h' | ⟨ds', heq, h'⟩
  · exact h.unique h'
  · subst heq
    exact h.not_plus.elim
  · exact h'.not_plus.elim
  · obtain rfl := (List.cons.inj heq).2
    exact h.unique h'

theorem mem (h : Scanned digits n) : ∀ c ∈ digits, IsHex c ∨ c = '+' := by
  intro c hc
  rcases h with h | ⟨ds, rfl, h⟩
  · exact .inl (h.isHex c hc)
  · rcases List.mem_cons.1 hc with rfl | hc
    · exact .inr rfl
    · exact .inl (h.isHex c hc)

theorem lt (h : Scanned digits n) : n < 16 ^ digits.length := by
  rcases h with h | ⟨ds, rfl, h⟩
  · exact h.lt
  · exact Nat.lt_of_lt_of_le h.lt (Nat.pow_le_pow_right (by decide) (Nat.le_succ _))

end Scanned

end DebugGuard.Escape
