import DebugGuard.Proofs.Script.Sound
import DebugGuard.Proofs.Script.Scan

/-!
# What the scanner makes of a text

The tokens of any source text are words that stand for themselves (`Word.Valid`), with one end of
file behind them (`Token.scan_sound`).  A numeral is cut off where it ends by its own characters,
so scanning it again gives the same numeral (`Scan.numeralLength_take`).
-/

namespace DebugGuard

open Text

theorem Word.Valid.kind_ne {w : Word} (h : w.Valid) : w.kind ≠ .endOfFile := by
  intro heq
  rw [Word.Valid, heq] at h
  exact h

namespace Scan

/-! ### Numerals that are cut off -/

theorem takeWhile_take {p : Char → Bool} {cs : List Char} {n : Nat}
    (h : (cs.takeWhile p).length ≤ n) : (cs.take n).takeWhile p = cs.takeWhile p := by
  rw [← List.take_takeWhile, List.take_of_length_le h]

theorem fractionLength_take {cs : List Char} {n : Nat} (h : fractionLength cs ≤ n) :
    fractionLength (cs.take n) = fractionLength cs := by
  cases cs with
  | nil => simp
  | cons c r =>
    by_cases hc : c = '.'
    · subst hc
      have h : 1 + (r.takeWhile Char.isDigit).length ≤ n := h
      obtain ⟨m, rfl⟩ : ∃ m, n = m + 1 := ⟨n - 1, by omega⟩
      rw [List.take_succ_cons]
      simp only [fractionLength]
      rw [takeWhile_take (by omega)]
    · have hzero (r : List Char) : fractionLength (c :: r) = 0 := by simp [fractionLength, hc]
      rw [hzero]
      cases n with
      | zero => rfl
      | succ n => rw [List.take_succ_cons, hzero]

/-- The length of the sign of an exponent. -/
def signLength (cs : List Char) : Nat :=
  match cs with
  | s :: _ => if s = '+' ∨ s = '-' then 1 else 0
  | [] => 0

theorem signLength_take {cs : List Char} {n : Nat} (h : 1 ≤ n) :
    signLength (cs.take n) = signLength cs := by
  cases cs with
  | nil => simp
  | cons c r =>
    obtain ⟨m, rfl⟩ : ∃ m, n = m + 1 := ⟨n - 1, by omega⟩
    rfl

theorem exponentLength_cons {e : Char} {r : List Char} (he : e = 'e' ∨ e = 'E') :
    exponentLength (e :: r) = match ((r.drop (signLength r)).takeWhile Char.isDigit).length with
      | 0 => 0
      | n => 1 + signLength r + n := by
  rw [exponentLength.eq_def]
  dsimp only
  rw [if_pos he]
  rfl

/-- An exponent is an `e`, perhaps a sign, and at least one digit. -/
theorem exponentLength_cases (cs : List Char) : exponentLength cs = 0 ∨
    ∃ e r k, cs = e :: r ∧ (e = 'e' ∨ e = 'E') ∧
      ((r.drop (signLength r)).takeWhile Char.isDigit).length = k + 1 ∧
      exponentLength cs = 1 + signLength r + (k + 1) := by
  cases cs with
  | nil => exact .inl rfl
  | cons e r =>
    by_cases he : e = 'e' ∨ e = 'E'
    · have h := exponentLength_cons (r := r) he
      cases hk : ((r.drop (signLength r)).takeWhile Char.isDigit).length with
      | zero =>
        rw [hk] at h
        exact .inl h
      | succ k =>
        rw [hk] at h
        exact .inr ⟨e, r, k, rfl, he, hk, h⟩
    · exact .inl (by simp [exponentLength, he])

theorem exponentLength_le (cs : List Char) : exponentLength cs ≤ cs.length := by
  rcases exponentLength_cases cs with h | ⟨e, r, k, rfl, -, hk, h⟩
  · omega
  · have := length_takeWhile_le Char.isDigit (r.drop (signLength r))
    rw [hk, List.length_drop] at this
    rw [h, List.length_cons]
    omega

theorem exponentLength_take (cs : List Char) :
    exponentLength (cs.take (exponentLength cs)) = exponentLength cs := by
  rcases exponentLength_cases cs with h | ⟨e, r, k, rfl, he, hk, h⟩
  · rw [h]
    rfl
  · have htake : 1 + signLength r + (k + 1) = signLength r + (k + 1) + 1 := by omega
    have hdigits : (((r.take (signLength r + (k + 1))).drop (signLength r)).takeWhile
        Char.isDigit).length = k + 1 := by
      rw [List.drop_take, Nat.add_sub_cancel_left, takeWhile_take (by omega), hk]
    rw [h, htake, List.take_succ_cons, exponentLength_cons he, signLength_take (by omega), hdigits]
    exact htake

theorem decimalLength_le (cs : List Char) : numeralLength.decimalLength cs ≤ cs.length := by
  have hwhole := length_takeWhile_le (fun c => c.isDigit || c == '_') cs
  have hfraction := fractionLength_le (cs.drop (cs.takeWhile fun c => c.isDigit || c == '_').length)
  have hexponent := exponentLength_le (cs.drop ((cs.takeWhile fun c => c.isDigit || c == '_').length +
    fractionLength (cs.drop (cs.takeWhile fun c => c.isDigit || c == '_').length)))
  rw [List.length_drop] at hfraction hexponent
  simp only [numeralLength.decimalLength]
  omega

theorem decimalLength_take (cs : List Char) :
    numeralLength.decimalLength (cs.take (numeralLength.decimalLength cs)) =
      numeralLength.decimalLength cs := by
  simp only [numeralLength.decimalLength]
  set whole := (cs.takeWhile fun c => c.isDigit || c == '_').length with hwhole
  set fraction := fractionLength (cs.drop whole) with hfraction
  set exponent := exponentLength (cs.drop (whole + fraction)) with hexponent
  have hw : ((cs.take (whole + fraction + exponent)).takeWhile
      fun c => c.isDigit || c == '_').length = whole := by
    rw [takeWhile_take (by omega)]
  have hf : fractionLength ((cs.take (whole + fraction + exponent)).drop whole) = fraction := by
    rw [List.drop_take, fractionLength_take (by omega)]
  have he : exponentLength ((cs.take (whole + fraction + exponent)).drop (whole + fraction)) =
      exponent := by
    rw [List.drop_take, Nat.add_sub_cancel_left, hexponent, exponentLength_take]
  rw [hw, hf, he]

/-- A numeral with a base mark or without one. -/
theorem numeralLength_cases (cs : List Char) :
    (∃ c r, cs = '0' :: c :: r ∧ c ∈ ['x', 'X', 'b', 'B', 'o', 'O']) ∨
      (∀ c r, cs = '0' :: c :: r → c ∉ ['x', 'X', 'b', 'B', 'o', 'O']) := by
  by_cases h : ∃ c r, cs = '0' :: c :: r ∧ c ∈ ['x', 'X', 'b', 'B', 'o', 'O']
  · exact .inl h
  · exact .inr fun c r hc hmem => h ⟨c, r, hc, hmem⟩

theorem numeralLength_of_base {c : Char} (hc : c ∈ ['x', 'X', 'b', 'B', 'o', 'O']) (r : List Char) :
    numeralLength ('0' :: c :: r) = 2 + (r.takeWhile isBasedDigit).length := by
  rw [numeralLength, if_pos hc]

theorem numeralLength_of_decimal {cs : List Char}
    (h : ∀ c r, cs = '0' :: c :: r → c ∉ ['x', 'X', 'b', 'B', 'o', 'O']) :
    numeralLength cs = numeralLength.decimalLength cs := by
  unfold numeralLength
  split
  · next c r => rw [if_neg (h c r rfl)]
  · rfl

theorem numeralLength_le (cs : List Char) : numeralLength cs ≤ cs.length := by
  rcases numeralLength_cases cs with ⟨c, r, rfl, hc⟩ | h
  · have := length_takeWhile_le isBasedDigit r
    rw [numeralLength_of_base hc, List.length_cons, List.length_cons]
    omega
  · rw [numeralLength_of_decimal h]
    exact decimalLength_le cs

theorem numeralLength_take (cs : List Char) :
    numeralLength (cs.take (numeralLength cs)) = numeralLength cs := by
  rcases numeralLength_cases cs with ⟨c, r, rfl, hc⟩ | h
  · rw [numeralLength_of_base hc, Nat.add_comm, List.take_succ_cons, List.take_succ_cons,
      numeralLength_of_base hc, takeWhile_take (Nat.le_refl _), Nat.add_comm]
  · have hbased : ∀ c r, cs.take (numeralLength cs) = '0' :: c :: r →
        c ∉ ['x', 'X', 'b', 'B', 'o', 'O'] := by
      intro c r heq
      have := List.take_append_drop (numeralLength cs) cs
      rw [heq] at this
      exact h c _ this.symm
    rw [numeralLength_of_decimal hbased, numeralLength_of_decimal h, decimalLength_take]

/-! ### Lexemes -/

/-- A numeral takes its first digit, and the point in front of it. -/
theorem lt_numeralLength {c : Char} {r : List Char} (h : startsNumeral c r = true) :
    1 ≤ numeralLength (c :: r) ∧ (c = '.' → 2 ≤ numeralLength (c :: r)) := by
  rcases numeralLength_cases (c :: r) with ⟨d, r', heq, hd⟩ | hdec
  · obtain ⟨rfl, rfl⟩ := List.cons.inj heq
    rw [numeralLength_of_base hd]
    omega
  rw [numeralLength_of_decimal hdec]
  simp only [numeralLength.decimalLength]
  by_cases hc : c.isDigit = true
  · have hne : c ≠ '.' := by rintro rfl; exact absurd hc (by decide)
    simp [hc, hne]
    omega
  · obtain ⟨rfl, hr⟩ : c = '.' ∧ r.head?.any Char.isDigit = true := by
      simpa [startsNumeral, hc] using h
    obtain ⟨d, r', rfl, hdigit⟩ : ∃ d r', r = d :: r' ∧ d.isDigit = true := by
      cases r with
      | nil => cases hr
      | cons d r' => exact ⟨d, r', rfl, by simpa using hr⟩
    have hwhole : ('.' :: d :: r').takeWhile (fun c => c.isDigit || c == '_') = [] := by
      rw [List.takeWhile_cons, if_neg (by decide)]
    have hfraction : 2 ≤ fractionLength ('.' :: d :: r') := by
      simp [fractionLength, hdigit]
      omega
    simp only [hwhole, List.length_nil, List.drop_zero, Nat.zero_add]
    omega

theorem isNumeral_of_starts {c : Char} {r : List Char} (h : startsNumeral c r = true) :
    IsNumeral ((c :: r).take (numeralLength (c :: r))) := by
  obtain ⟨hone, htwo⟩ := lt_numeralLength h
  have hlength : ((c :: r).take (numeralLength (c :: r))).length = numeralLength (c :: r) := by
    rw [List.length_take, Nat.min_eq_left (numeralLength_le _)]
  obtain ⟨n, hn⟩ : ∃ n, numeralLength (c :: r) = n + 1 := ⟨numeralLength (c :: r) - 1, by omega⟩
  refine ⟨c, r.take n, by rw [hn, List.take_succ_cons], ?_, ?_⟩
  · rw [startsNumeral, Bool.or_eq_true] at h ⊢
    refine h.imp_right fun h => ?_
    rw [Bool.and_eq_true] at h ⊢
    have := htwo (by simpa using h.1)
    obtain ⟨m, rfl⟩ : ∃ m, n = m + 1 := ⟨n - 1, by omega⟩
    cases r with
    | nil => simp at h
    | cons d r => exact h
  · rw [hlength, numeralLength_take]

theorem mark?_eq_some {cs : List Char} {m : String} (h : mark? cs = some m) :
    m.toList <+: cs ∧ m.toList ≠ [] := by
  unfold mark? at h
  have hne : ∀ m ∈ Token.marks, m.toList ≠ [] := by decide
  have hprefix := List.find?_some h
  exact ⟨List.isPrefixOf_iff_prefix.1 hprefix, hne m (List.mem_of_find?_eq_some h)⟩

/-- A lexeme is a word that stands for itself. -/
theorem valid_of_lexeme {c : Char} {r : List Char} {l : Lexeme} (h : lexeme c r = .ok l) :
    Word.Valid ⟨l.kind, l.text⟩ := by
  unfold lexeme at h
  split at h
  · cases hbody : Escape.literalBody c r with
    | error e => simp [hbody, Except.map] at h
    | ok x =>
      rw [hbody] at h
      cases h
      trivial
  split at h
  · next hstart =>
    cases h
    have := isNumeral_of_starts hstart
    simpa [Word.Valid] using this
  split at h
  · next hname =>
    cases h
    exact ⟨c, r.takeWhile isNamePart, by simp, hname, fun d hd => List.mem_takeWhile_imp hd⟩
  · split at h
    · next m hm =>
      cases h
      exact List.mem_of_find?_eq_some hm
    · cases h

end Scan

namespace Token

/-- The tokens of a text are words that stand for themselves, and an end of file. -/
theorem Scans.sound {pos : Nat} {cs : List Char} {ts : List Token} (h : Scans pos cs ts) :
    ∃ ws e, ts = ws ++ [e] ∧ e.kind = .endOfFile ∧ ∀ w ∈ ws, w.word.Valid := by
  induction h with
  | last => exact ⟨[], _, rfl, rfl, by simp⟩
  | token _ _ hl _ ih =>
    obtain ⟨ws, e, rfl, he, hws⟩ := ih
    refine ⟨_ :: ws, e, rfl, he, fun w hw => ?_⟩
    rcases List.mem_cons.1 hw with rfl | hw
    · exact Scan.valid_of_lexeme hl
    · exact hws w hw

theorem scan_sound {source : String} {ts : List Token} (h : scan source = .ok ts) :
    ∃ ws e, ts = ws ++ [e] ∧ e.kind = .endOfFile ∧ ∀ w ∈ ws, w.word.Valid :=
  (scans_of_scanFrom h).sound

end Token

theorem Cursor.scanned_of_scan {source : String} {ts : List Token}
    (h : Token.scan source = .ok ts) : Scanned ts := by
  obtain ⟨ws, e, rfl, he, hws⟩ := Token.scan_sound h
  intro w hw hk
  rcases List.mem_append.1 hw with hw | hw
  · exact hws w hw
  · obtain rfl := List.mem_singleton.1 hw
    exact absurd he hk

end DebugGuard
