import DebugGuard.Proofs.Text.Decoding
import DebugGuard.Script.Escape
import DebugGuard.Text.Quoted
import Mathlib

/-!
# Reading quoted text back

What `Text.quoted` writes is a string literal with the same value (`literalBody_quoted`): for each
character it writes one of the spellings of that character (`spelling_quotedChar`).  What it writes
is harmless in a line of text (`printable_quotedChar`).
-/

namespace DebugGuard.Text

open Escape

theorem hexValue?_hexDigit {n : Nat} (h : n < 16) : hexValue? (hexDigit n) = some n := by
  interval_cases n <;> rfl

/-- Four digits stand for the number they were written for. -/
theorem hexNumeral_hex4 {n : Nat} (h : n < 65536) : HexNumeral (hex4 n) n := by
  have hv (k : Nat) : hexValue? (hexDigit (k % 16)) = some (k % 16) :=
    hexValue?_hexDigit (Nat.mod_lt k (by decide))
  rw [hexNumeral_iff]
  refine ⟨List.cons_ne_nil _ _, ?_⟩
  simp only [hexDigits?, hex4, List.foldlM_cons, List.foldlM_nil, hv, Option.map_some,
    Option.bind_eq_bind, Option.bind_some, Option.pure_def, Option.some.injEq]
  omega

/-- A character is written in one of its spellings. -/
theorem spelling_quotedChar (c : Char) : Spelling '"' c (quotedChar c) := by
  unfold quotedChar
  split_ifs with h1 h2 h3 h4 h5 h6
  · subst h1
    exact .slash (by decide) (by decide) (by decide) (by decide)
  · subst h2
    exact .slash (by decide) (by decide) (by decide) (by decide)
  · subst h3
    exact .letter (by decide)
  · subst h4
    exact .letter (by decide)
  · subst h5
    exact .letter (by decide)
  · have hlt : c.toNat < 65536 := by
      simp only [isControl, Bool.or_eq_true, Bool.and_eq_true, decide_eq_true_eq] at h6
      omega
    exact .code (.four (hexNumeral_hex4 hlt) rfl)
  · exact .itself h3 h1 h2

/-- What is written for a text is read as the text, up to and with the closing quote. -/
theorem literalBody_quoted (text rest : List Char) :
    literalBody '"' (text.flatMap quotedChar ++ '"' :: rest) =
      .ok (text, (text.flatMap quotedChar).length + 1) := by
  have hall : List.Forall₂ (Spelling '"') text (text.map quotedChar) := by
    rw [List.forall₂_map_right_iff, List.forall₂_same]
    exact fun c _ => spelling_quotedChar c
  rw [List.flatMap_def]
  exact literalBody_spellings (.inl rfl) hall rest

/-! ### Plain text -/

/-- Neither a control nor a line separator. -/
def Printable (c : Char) : Prop :=
  isControl c = false ∧ c.toNat ≠ 0x2028 ∧ c.toNat ≠ 0x2029

theorem printable_of_ascii {c : Char} (h : 32 ≤ c.toNat ∧ c.toNat < 127) : Printable c := by
  unfold Printable
  simp only [isControl, Bool.or_eq_false_iff, Bool.and_eq_false_iff, decide_eq_false_iff_not]
  omega

theorem printable_quotedChar (c : Char) : ∀ d ∈ quotedChar c, Printable d := by
  have hdigit (k : Nat) : 32 ≤ (hexDigit (k % 16)).toNat ∧ (hexDigit (k % 16)).toNat < 127 := by
    have hall : ∀ v < 16, 32 ≤ (hexDigit v).toNat ∧ (hexDigit v).toNat < 127 := by decide
    exact hall _ (Nat.mod_lt k (by decide))
  -- escapes are written in marks, letters and digits
  have hescape {text : List Char} (h : ∀ d ∈ text, 32 ≤ d.toNat ∧ d.toNat < 127) :
      ∀ d ∈ text, Printable d := fun d hd => printable_of_ascii (h d hd)
  unfold quotedChar
  split_ifs with h1 h2 h3 h4 h5 h6
  · exact hescape (by simp)
  · exact hescape (by simp)
  · exact hescape (by simp)
  · exact hescape (by simp)
  · exact hescape (by simp)
  · exact hescape (by simp [hex4, hdigit])
  · simpa [Printable, and_assoc] using h6

end DebugGuard.Text
