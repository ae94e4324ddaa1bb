import DebugGuard.Proofs.Text.Decoding
import DebugGuard.Script.Escape
import Mathlib

/-!
# Escapes without their digits

A literal with an escape that lacks its hexadecimal digits (`Malformed`) is not read, with one
exception: a plus sign may stand for the first digit (`signed_of_literalBody`).  It counts as a zero
then (`literalBody_exchange`).

The escape may stand anywhere in the literal.  Up to the backslash of an escape, what the literal
encloses is a row of whole units (`exists_unit`), whatever else is wrong with it.
-/

namespace DebugGuard.Escape

/-- Hexadecimal digits, as many as asked for, stand in front. -/
def Led (count : Nat) (cs : List Char) : Prop :=
  ∃ digits more, cs = digits ++ more ∧ digits.length = count ∧ ∀ c ∈ digits, IsHex c

/-- What stands behind the backslash of an escape lacks the digits of the escape. -/
inductive Malformed : List Char → Prop
  | two {cs} (h : ¬Led 2 cs) : Malformed ('x' :: cs)
  | four {cs} (hbrace : cs.head? ≠ some '\x7b') (h : ¬Led 4 cs) : Malformed ('u' :: cs)
  | braced {digits more} (hclose : '\x7d' ∉ digits)
      (h : digits = [] ∨ ∃ c ∈ digits, ¬IsHex c) :
      Malformed ('u' :: '\x7b' :: (digits ++ '\x7d' :: more))
  | unclosed {cs} (h : '\x7d' ∉ cs) : Malformed ('u' :: '\x7b' :: cs)

/-- An escape behind its backslash with a plus sign for the first digit, and the same escape with a
zero there. -/
inductive Signed : List Char → List Char → Prop
  | two {digits} (hhex : ∀ c ∈ digits, IsHex c) (hlen : digits.length = 1) :
      Signed ('x' :: '+' :: digits) ('x' :: '0' :: digits)
  | four {digits} (hhex : ∀ c ∈ digits, IsHex c) (hlen : digits.length = 3) :
      Signed ('u' :: '+' :: digits) ('u' :: '0' :: digits)
  | braced {digits} (hhex : ∀ c ∈ digits, IsHex c) (hne : digits ≠ []) :
      Signed ('u' :: '\x7b' :: '+' :: (digits ++ ['\x7d']))
        ('u' :: '\x7b' :: '0' :: (digits ++ ['\x7d']))

variable {quote : Char} {body tail more rest w w' value : List Char} {n : Nat} {item : Item}
  {items : List Item} {texts : List (List Char)}

/-! ### The unit of an escape -/

/-- Characters that mean nothing by themselves end in front of the next backslash. -/
theorem Enclosed.of_append_inert {ds : List Char} (h : ∀ d ∈ ds, Inert d)
    (hbody : Enclosed quote body) (heq : ds ++ more = body ++ '\\' :: tail) :
    ∃ body', body = ds ++ body' ∧ Enclosed quote body' := by
  induction ds generalizing body with
  | nil => exact ⟨body, rfl, hbody⟩
  | cons d ds ih =>
    obtain ⟨-, hslash⟩ := h d List.mem_cons_self
    cases hbody with
    | nil => exact absurd (List.cons.inj heq).1 hslash
    | escape => exact absurd (List.cons.inj heq).1 hslash
    | plain hquote _ hbody =>
      obtain ⟨rfl, hrest⟩ := List.cons.inj heq
      obtain ⟨body', rfl, hbody'⟩ := ih (fun d hd => h d (List.mem_cons_of_mem _ hd)) hbody hrest
      exact ⟨body', rfl, hbody'⟩

/-- The unit in front ends within the enclosed text, or starts with the backslash behind it. -/
theorem Written.within (h : Written Scanned quote item w) (hbody : Enclosed quote body)
    (heq : w ++ more = body ++ '\\' :: tail) :
    (body = [] ∧ ∃ w', w = '\\' :: w') ∨ ∃ body', body = w ++ body' ∧ Enclosed quote body' := by
  rcases h.shape with ⟨c, rfl, -, hslash⟩ | ⟨c, ds, rfl, hds⟩
  · cases hbody with
    | nil => exact absurd (List.cons.inj heq).1 hslash
    | plain _ _ hbody =>
      obtain ⟨rfl, -⟩ := List.cons.inj heq
      exact .inr ⟨_, rfl, hbody⟩
    | escape => exact absurd (List.cons.inj heq).1 hslash
  · cases hbody with
    | nil => exact .inl ⟨rfl, _, rfl⟩
    | plain _ hslash => exact absurd (List.cons.inj heq).1.symm hslash
    | escape hbody =>
      simp only [List.cons_append, List.cons.injEq, true_and] at heq
      obtain ⟨rfl, heq⟩ := heq
      obtain ⟨body', rfl, hbody'⟩ := hbody.of_append_inert hds heq
      exact .inr ⟨body', rfl, hbody'⟩

/-- If a backslash stands behind an enclosed text in a row of units, one of the units starts
there. -/
theorem exists_unit (hq : quote ≠ '\\') (h : List.Forall₂ (Written Scanned quote) items texts)
    (hbody : Enclosed quote body) (heq : texts.flatten ++ quote :: rest = body ++ '\\' :: tail) :
    ∃ items₁ item items₂ texts₁ w texts₂, items = items₁ ++ item :: items₂ ∧
      List.Forall₂ (Written Scanned quote) items₁ texts₁ ∧ texts₁.flatten = body ∧
      Written Scanned quote item ('\\' :: w) ∧ List.Forall₂ (Written Scanned quote) items₂ texts₂ ∧
      tail = w ++ (texts₂.flatten ++ quote :: rest) := by
  induction h generalizing body with
  | nil =>
    cases hbody with
    | nil => exact absurd (List.cons.inj heq).1 hq
    | plain hquote => exact absurd (List.cons.inj heq).1.symm hquote
    | escape => exact absurd (List.cons.inj heq).1 hq
  | @cons item text items texts hw hall ih =>
    rw [List.flatten_cons, List.append_assoc] at heq
    rcases hw.within hbody heq with ⟨rfl, w, rfl⟩ | ⟨body', rfl, hbody'⟩
    · exact ⟨[], item, items, [], w, texts, rfl, .nil, rfl, hw, hall, (List.cons.inj heq).2.symm⟩
    · rw [List.append_assoc] at heq
      obtain ⟨items₁, item', items₂, texts₁, w, texts₂, rfl, hall₁, rfl, hw', hall₂, htail⟩ :=
        ih hbody' (List.append_cancel_left heq)
      exact ⟨item :: items₁, item', items₂, text :: texts₁, w, texts₂, rfl, .cons hw hall₁, rfl,
        hw', hall₂, htail⟩

/-- An escape may be exchanged for another spelling of the same unit. -/
theorem literalBody_exchange (hquote : IsQuote quote) (hbody : Enclosed quote body)
    (hw : Written Scanned quote item ('\\' :: w)) (hw' : Written Scanned quote item ('\\' :: w'))
    (hlen : w.length = w'.length)
    (h : literalBody quote (body ++ '\\' :: (w ++ more)) = .ok (value, n)) :
    literalBody quote (body ++ '\\' :: (w' ++ more)) = .ok (value, n) := by
  obtain ⟨text, rest, ⟨items, texts, hall, rfl, hdecodes⟩, heq, rfl⟩ := spells_of_literalBody h
  obtain ⟨items₁, item₀, items₂, texts₁, w₀, texts₂, rfl, hall₁, rfl, hw₀, hall₂, htail⟩ :=
    exists_unit hquote.ne.1 hall hbody heq.symm
  -- the unit that was read there is the one that is exchanged
  have hcut : ('\\' :: w₀) ++ (texts₂.flatten ++ quote :: rest) = ('\\' :: w) ++ more := by
    rw [List.cons_append, List.cons_append, htail]
  obtain ⟨rfl, hsame⟩ := hw₀.unique hw hcut
  obtain rfl := (List.cons.inj hsame).2
  obtain rfl := List.append_cancel_left htail
  have hspells : Spells Scanned quote value (texts₁ ++ ('\\' :: w') :: texts₂).flatten :=
    ⟨_, _, List.rel_append hall₁ (.cons hw' hall₂), rfl, hdecodes⟩
  have hread := literalBody_of_spells hquote hspells rest
  have hlength := congrArg List.length heq
  simp only [List.length_append, List.length_cons] at hlength
  simp only [List.flatten_append, List.flatten_cons, List.append_assoc, List.cons_append,
    List.length_append, List.length_cons] at hread
  rw [hread]
  congr 2
  omega

/-! ### Missing digits -/

theorem Signed.written (quote : Char) (h : Signed w w') : w.length = w'.length ∧
    ∃ item, Written Scanned quote item ('\\' :: w) ∧ Written Scanned quote item ('\\' :: w') := by
  -- the digits behind the sign give the number, with a zero in front or without
  have hnumber {digits : List Char} (hhex : ∀ c ∈ digits, IsHex c) (hne : digits ≠ []) :
      ∃ n, Scanned ('+' :: digits) n ∧ Scanned ('0' :: digits) n := by
    obtain ⟨n, hn⟩ := exists_hexNumeral hne hhex
    exact ⟨n, .inr ⟨digits, rfl, hn⟩, .inl hn.cons_zero⟩
  cases h with
  | two hhex hlen =>
    obtain ⟨n, hplus, hzero⟩ := hnumber hhex (List.ne_nil_of_length_eq_add_one hlen)
    exact ⟨rfl, _, .two hplus (congrArg (· + 1) hlen), .two hzero (congrArg (· + 1) hlen)⟩
  | four hhex hlen =>
    obtain ⟨n, hplus, hzero⟩ := hnumber hhex (List.ne_nil_of_length_eq_add_one hlen)
    exact ⟨rfl, _, .code (.four hplus (congrArg (· + 1) hlen)),
      .code (.four hzero (congrArg (· + 1) hlen))⟩
  | braced hhex hne =>
    obtain ⟨n, hplus, hzero⟩ := hnumber hhex hne
    exact ⟨rfl, _, .code (.braced hplus), .code (.braced hzero)⟩

/-- A unit that lacks its digits has a plus sign for the first one. -/
theorem Written.signed (h : Written Scanned quote item ('\\' :: w)) (hw : Malformed (w ++ more)) :
    ∃ w', Signed w w' := by
  generalize htail : w ++ more = tail at hw
  -- a unit that starts with a backslash has a character behind it
  obtain ⟨c, ds, rfl⟩ : ∃ c ds, w = c :: ds := by
    rcases h.shape with ⟨c, heq, -, hslash⟩ | ⟨c, ds, heq, -⟩
    · exact absurd (List.cons.inj heq).1.symm hslash
    · exact ⟨c, ds, (List.cons.inj heq).2⟩
  cases hw with
  | two hlacks =>
    obtain ⟨rfl, rfl⟩ := List.cons.inj htail
    obtain ⟨n, -, hds, hlen⟩ := h.eq_two
    rcases hds with hds | ⟨digits, rfl, hds⟩
    · exact absurd ⟨_, _, rfl, hlen, hds.isHex⟩ hlacks
    · exact ⟨_, .two hds.isHex (Nat.succ.inj hlen)⟩
  | four hbrace hlacks =>
    obtain ⟨rfl, rfl⟩ := List.cons.inj htail
    obtain ⟨n, -, hcoded⟩ := h.eq_code
    cases hcoded with
    | four hds hlen =>
      rcases hds with hds | ⟨digits, rfl, hds⟩
      · exact absurd ⟨_, _, rfl, hlen, hds.isHex⟩ hlacks
      · exact ⟨_, .four hds.isHex (Nat.succ.inj hlen)⟩
    | braced => exact absurd rfl hbrace
  | @braced digits more' hclose hlacks =>
    obtain ⟨rfl, hbrace⟩ := List.cons.inj htail
    obtain ⟨n, -, hcoded⟩ := h.eq_code
    cases hcoded with
    | four hds hlen => exact absurd hbrace (hds.ne_brace hlen)
    | braced hds =>
      simp only [List.append_eq, List.cons_append, List.append_assoc, List.nil_append,
        List.cons.injEq, true_and] at hbrace
      obtain rfl := eq_of_brace hds.not_brace.2 hclose hbrace
      rcases hds with hds | ⟨digits, rfl, hds⟩
      · rcases hlacks with rfl | ⟨c, hc, hhex⟩
        · exact absurd rfl hds.1
        · exact absurd (hds.isHex c hc) hhex
      · exact ⟨_, .braced hds.isHex hds.1⟩
  | unclosed hclose =>
    obtain ⟨rfl, hbrace⟩ := List.cons.inj htail
    obtain ⟨n, -, hcoded⟩ := h.eq_code
    cases hcoded with
    | four hds hlen => exact absurd hbrace (hds.ne_brace hlen)
    | braced hds =>
      simp only [List.append_eq, List.cons_append, List.append_assoc, List.nil_append,
        List.cons.injEq, true_and] at hbrace
      simp [← hbrace] at hclose

/-- If a literal is read although one of its escapes lacks digits, a plus sign stands for the first
digit there. -/
theorem signed_of_literalBody (hquote : IsQuote quote) (hbody : Enclosed quote body)
    (hmalformed : Malformed tail) (h : literalBody quote (body ++ '\\' :: tail) = .ok (value, n)) :
    ∃ w w' more, Signed w w' ∧ tail = w ++ more := by
  obtain ⟨text, rest, ⟨items, texts, hall, rfl, -⟩, heq, -⟩ := spells_of_literalBody h
  obtain ⟨_, item, _, _, w, texts₂, -, -, -, hw, -, rfl⟩ :=
    exists_unit hquote.ne.1 hall hbody heq.symm
  obtain ⟨w', hsigned⟩ := hw.signed hmalformed
  exact ⟨w, w', _, hsigned, rfl⟩

end DebugGuard.Escape
