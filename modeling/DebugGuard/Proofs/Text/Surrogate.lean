import DebugGuard.Script.Escape
import Mathlib

/-!
# Surrogate pairs

A character beyond the first plane is written as two codes, its halves, which are the codes of no
characters.  Two codes are put together to a character exactly if they are its halves
(`halves_of_pairCode`, `pairCode_halves`).
-/

namespace DebugGuard.Escape

-- The halves are irreducible: unification would count such numbers down to zero.

/-- The code of the first half of a character beyond the first plane. -/
@[irreducible]
def highHalf (c : Char) : Nat :=
  0xD800 + (c.toNat - 0x10000) / 0x400

/-- The code of the second half. -/
@[irreducible]
def lowHalf (c : Char) : Nat :=
  0xDC00 + (c.toNat - 0x10000) % 0x400

variable {c : Char} {n high low : Nat}

/-! ### Codes of characters and of halves -/

theorem toNat_lt (c : Char) : c.toNat < 0x110000 := by
  have := c.valid
  simp only [UInt32.isValidChar, Nat.isValidChar] at this
  rcases this with h | h
  · exact Nat.lt_trans h (by decide)
  · exact h.2

/-- No character is half of a surrogate pair. -/
theorem not_surrogate (c : Char) :
    isHighSurrogate c.toNat = false ∧ isLowSurrogate c.toNat = false := by
  have hv : c.toNat.isValidChar := c.valid
  simp only [Nat.isValidChar] at hv
  simp only [isHighSurrogate, isLowSurrogate, Bool.and_eq_false_iff, decide_eq_false_iff_not]
  omega

theorem not_high_and_low (h : isHighSurrogate n = true) (h' : isLowSurrogate n = true) : False := by
  simp only [isHighSurrogate, isLowSurrogate, Bool.and_eq_true, decide_eq_true_eq] at h h'
  omega

theorem lt_of_surrogate (h : isHighSurrogate n = true ∨ isLowSurrogate n = true) :
    n < 0x110000 := by
  simp only [isHighSurrogate, isLowSurrogate, Bool.and_eq_true, decide_eq_true_eq] at h
  omega

theorem scalar_toNat (c : Char) : scalar c.toNat = .ok c := by
  have hv : c.toNat.isValidChar := c.valid
  rw [scalar, if_pos hv, Char.ofNat_toNat]

theorem toNat_of_scalar (h : scalar n = .ok c) : n = c.toNat := by
  unfold scalar at h
  split at h
  · next hv =>
    cases h
    rw [Char.toNat_ofNat, if_pos hv]
  · cases h

/-! ### Pairs -/

theorem halves_of_pairCode (hhigh : isHighSurrogate high = true)
    (hlow : isLowSurrogate low = true) (hc : pairCode high low = c.toNat) :
    0xFFFF < c.toNat ∧ high = highHalf c ∧ low = lowHalf c := by
  simp only [isHighSurrogate, isLowSurrogate, Bool.and_eq_true, decide_eq_true_eq] at hhigh hlow
  obtain ⟨k, rfl⟩ := Nat.exists_eq_add_of_le hhigh.1
  obtain ⟨m, rfl⟩ := Nat.exists_eq_add_of_le hlow.1
  have hm : m < 0x400 := by omega
  unfold pairCode at hc
  unfold highHalf lowHalf
  rw [← hc]
  omega

theorem pairCode_add {k : Nat} (hk : k < 0x100000) :
    isHighSurrogate (0xD800 + k / 0x400) = true ∧ isLowSurrogate (0xDC00 + k % 0x400) = true ∧
      pairCode (0xD800 + k / 0x400) (0xDC00 + k % 0x400) = 0x10000 + k := by
  refine ⟨?_, ?_, ?_⟩
  · rw [isHighSurrogate, Bool.and_eq_true, decide_eq_true_eq, decide_eq_true_eq]
    omega
  · rw [isLowSurrogate, Bool.and_eq_true, decide_eq_true_eq, decide_eq_true_eq]
    omega
  · unfold pairCode
    omega

theorem pairCode_halves (hc : 0xFFFF < c.toNat) : isHighSurrogate (highHalf c) = true ∧
    isLowSurrogate (lowHalf c) = true ∧ pairCode (highHalf c) (lowHalf c) = c.toNat := by
  have hlt := toNat_lt c
  have hk := @pairCode_add (c.toNat - 0x10000) (by omega)
  rw [show 0x10000 + (c.toNat - 0x10000) = c.toNat by omega] at hk
  unfold highHalf lowHalf
  exact hk

end DebugGuard.Escape
