import DebugGuard.Proofs.Text.Hexadecimal
import DebugGuard.Proofs.Text.Surrogate
import DebugGuard.Script.Escape
import Mathlib

/-!
# The grammar of string literals

What stands between the quotes of a literal is written in units (`Written`): a character for itself,
or a backslash with all that its escape takes.  A unit says which characters it stands for, or, if
it gives a character by its number, that number, which may be half of a surrogate pair.  `Decodes`
puts the units together, and `Spells` says that a text is written for a value.

Whatever is read is spelled in this grammar (`spells_of_literalBody`).  Beyond the character behind
its backslash a unit has digits, a plus sign and braces only, so a literal ends at the first quote
of its kind that no backslash takes along (`enclosed_of_literalBody`).
-/

namespace DebugGuard

/-- A computation that may fail succeeds if its two halves do. -/
theorem bind_eq_ok {ε α β : Type} {x : Except ε α} {f : α → Except ε β} {b : β} :
    x >>= f = .ok b ↔ ∃ a, x = .ok a ∧ f a = .ok b := by
  cases x with
  | error e => simp [bind, Except.bind]
  | ok a => simp [bind, Except.bind]

theorem bind_eq_error {ε α β : Type} {x : Except ε α} {f : α → Except ε β} {e : ε} :
    x >>= f = .error e ↔ x = .error e ∨ ∃ a, x = .ok a ∧ f a = .error e := by
  cases x with
  | error e' => simp [bind, Except.bind]
  | ok a => simp [bind, Except.bind]

namespace Escape

/-- The characters may stand between two quotes: a backslash takes the character behind it along,
and none of the others is the quote. -/
inductive Enclosed (quote : Char) : List Char → Prop
  | nil : Enclosed quote []
  | plain {c cs} (hquote : c ≠ quote) (hslash : c ≠ '\\') (hcs : Enclosed quote cs) :
      Enclosed quote (c :: cs)
  | escape {c cs} (hcs : Enclosed quote cs) : Enclosed quote ('\\' :: c :: cs)

/-- The characters that open and close a literal. -/
def IsQuote (c : Char) : Prop :=
  c = '"' ∨ c = '\x27'

/-- Neither a quote nor a backslash. -/
def Inert (c : Char) : Prop :=
  ¬IsQuote c ∧ c ≠ '\\'

/-! ### Units of a literal -/

/-- An escape of the code `n`: a backslash, a `u`, and four digits or any number of digits in
braces. -/
inductive Coded (digits : List Char → Nat → Prop) (n : Nat) : List Char → Prop
  | four {ds} (hds : digits ds n) (hlen : ds.length = 4) : Coded digits n ('\\' :: 'u' :: ds)
  | braced {ds} (hds : digits ds n) :
      Coded digits n ('\\' :: 'u' :: '\x7b' :: (ds ++ ['\x7d']))

/-- A unit of a literal: some characters, or the code of an escape, which may be a surrogate. -/
inductive Item where
  | chars (value : List Char)
  | code (n : Nat)

/-- What an escape by a single letter spells. -/
def ofLetter (c : Char) : List Char :=
  if c = '\n' then [] else [(letterValue? c).getD c]

/-- The text of a unit in a literal with the given quotes. -/
inductive Written (digits : List Char → Nat → Prop) (quote : Char) : Item → List Char → Prop
  | plain {c} (hbreak : c ≠ '\n') (hquote : c ≠ quote) (hslash : c ≠ '\\') :
      Written digits quote (.chars [c]) [c]
  | letter {c} (hx : c ≠ 'x') (hu : c ≠ 'u') :
      Written digits quote (.chars (ofLetter c)) ['\\', c]
  | two {ds n} (hds : digits ds n) (hlen : ds.length = 2) :
      Written digits quote (.chars [Char.ofNat n]) ('\\' :: 'x' :: ds)
  | code {n text} (h : Coded digits n text) : Written digits quote (.code n) text

/-- The characters that units stand for.  A character is given by its code, or beyond the first
plane by the codes of its halves. -/
inductive Decodes : List Item → List Char → Prop
  | nil : Decodes [] []
  | chars {value items rest} (h : Decodes items rest) :
      Decodes (.chars value :: items) (value ++ rest)
  | code {c items rest} (h : Decodes items rest) :
      Decodes (.code c.toNat :: items) (c :: rest)
  | halves {c items rest} (hc : 0xFFFF < c.toNat) (h : Decodes items rest) :
      Decodes (.code (highHalf c) :: .code (lowHalf c) :: items) (c :: rest)

/-- The text is written in units that stand for the value. -/
def Spells (digits : List Char → Nat → Prop) (quote : Char) (value text : List Char) : Prop :=
  ∃ items texts, List.Forall₂ (Written digits quote) items texts ∧ texts.flatten = text ∧
    Decodes items value

variable {quote : Char} {cs rest text value : List Char} {n used : Nat}

theorem Decodes.append {items items' : List Item} {value' : List Char} (h : Decodes items value)
    (h' : Decodes items' value') : Decodes (items ++ items') (value ++ value') := by
  induction h with
  | nil => exact h'
  | @chars value items rest _ ih =>
    rw [List.append_assoc]
    exact .chars ih
  | code _ ih => exact .code ih
  | halves hc _ ih => exact .halves hc ih

section Spells

variable {digits : List Char → Nat → Prop} {value' text' : List Char} {c : Char}

theorem Spells.nil : Spells digits quote [] [] :=
  ⟨[], [], .nil, rfl, .nil⟩

theorem Spells.append (h : Spells digits quote value text) (h' : Spells digits quote value' text') :
    Spells digits quote (value ++ value') (text ++ text') := by
  obtain ⟨items, texts, hall, rfl, hdecodes⟩ := h
  obtain ⟨items', texts', hall', rfl, hdecodes'⟩ := h'
  exact ⟨items ++ items', texts ++ texts', List.rel_append hall hall', List.flatten_append,
    hdecodes.append hdecodes'⟩

theorem Written.spells (h : Written digits quote (.chars value) text) :
    Spells digits quote value text :=
  ⟨_, [text], .cons h .nil, List.flatten_singleton, by simpa using Decodes.chars .nil⟩

theorem Coded.spells (h : Coded digits c.toNat text) : Spells digits quote [c] text :=
  ⟨_, [text], .cons (.code h) .nil, List.flatten_singleton, .code .nil⟩

theorem Coded.spells_halves (hc : 0xFFFF < c.toNat) (h : Coded digits (highHalf c) text)
    (h' : Coded digits (lowHalf c) text') : Spells digits quote [c] (text ++ text') :=
  ⟨_, [text, text'], .cons (.code h) (.cons (.code h') .nil), by simp, .halves hc .nil⟩

end Spells

/-! ### What is read -/

theorem scanned_of_fixedHex {count : Nat} (h : fixedHex count cs = .ok n) :
    count ≤ cs.length ∧ Scanned (cs.take count) n := by
  unfold fixedHex at h
  split at h
  · cases h
  next hlength =>
  cases hn : hexNumeral? (cs.take count) with
  | none => rw [hn] at h; cases h
  | some m =>
    rw [hn] at h
    cases h
    exact ⟨Nat.le_of_not_lt hlength, (hexNumeral?_eq_some_iff.1 hn).1⟩

theorem coded_of_codeUnit (h : codeUnit cs = .ok (n, used)) :
    used ≤ cs.length ∧ Coded Scanned n ('\\' :: 'u' :: cs.take used) := by
  unfold codeUnit at h
  split at h
  · next r =>
    dsimp only at h
    split at h
    · cases h
    next hlength =>
    cases hn : hexNumeral? (r.takeWhile (· != '\x7d')) with
    | none => rw [hn] at h; cases h
    | some m =>
      rw [hn] at h
      dsimp only at h
      split at h
      · cases h
      cases h
      have hds := (hexNumeral?_eq_some_iff.1 hn).1
      have hsplit := List.takeWhile_append_dropWhile (p := (· != '\x7d')) (l := r)
      set ds := r.takeWhile (· != '\x7d')
      -- the search stops in front of a brace, since it does not run to the end
      obtain ⟨d, tail, htail⟩ : ∃ d tail, r.dropWhile (· != '\x7d') = d :: tail := by
        refine List.exists_cons_of_ne_nil fun hnil => hlength ?_
        rw [hnil, List.append_nil] at hsplit
        rw [hsplit]
      have hd : d = '\x7d' := by
        have := List.head?_dropWhile_not (· != '\x7d') r
        rw [htail] at this
        simpa using this
      have hr : r = ds ++ ['\x7d'] ++ tail := by
        rw [← hsplit, htail, hd, List.append_assoc, List.singleton_append]
      have htake : ('\x7b' :: r).take (ds.length + 2) = '\x7b' :: (ds ++ ['\x7d']) := by
        rw [List.take_succ_cons, hr, List.take_left' (by simp)]
      refine ⟨?_, htake ▸ .braced hds⟩
      rw [hr]
      simp only [List.length_cons, List.length_append, List.length_nil]
      omega
  · cases hn : fixedHex 4 cs with
    | error e => rw [hn] at h; cases h
    | ok m =>
      rw [hn] at h
      cases h
      obtain ⟨hlength, hds⟩ := scanned_of_fixedHex hn
      exact ⟨hlength, .four hds (List.length_take_of_le hlength)⟩

/-- An escape behind its `u`, which may take the escape of a low surrogate along. -/
theorem spells_of_unicode (quote : Char) {c : Char} (h : unicode cs = .ok (c, used)) :
    used ≤ cs.length ∧ Spells Scanned quote [c] ('\\' :: 'u' :: cs.take used) := by
  unfold unicode at h
  obtain ⟨⟨code, first⟩, hcode, h⟩ := bind_eq_ok.1 h
  obtain ⟨hfirst, hcoded⟩ := coded_of_codeUnit hcode
  dsimp only at h
  by_cases hhigh : isHighSurrogate code = true
  · rw [if_pos hhigh] at h
    split at h
    · next r hdrop =>
      obtain ⟨⟨low, more⟩, hlow, h⟩ := bind_eq_ok.1 h
      obtain ⟨hmore, hcoded'⟩ := coded_of_codeUnit hlow
      dsimp only at h
      by_cases hpair : isLowSurrogate low = true
      · simp only [hpair, if_true] at h
        obtain ⟨d, hd, h⟩ := bind_eq_ok.1 h
        cases h
        obtain ⟨hc, hh, hl⟩ := halves_of_pairCode hhigh hpair (toNat_of_scalar hd)
        rw [hh] at hcoded
        rw [hl] at hcoded'
        have hlength := congrArg List.length hdrop
        simp only [List.length_drop, List.length_cons] at hlength
        refine ⟨by omega, ?_⟩
        have htake : '\\' :: 'u' :: cs.take (first + 2 + more) =
            ('\\' :: 'u' :: cs.take first) ++ ('\\' :: 'u' :: r.take more) := by
          rw [Nat.add_assoc, List.take_add, hdrop, Nat.add_comm 2, List.take_succ_cons,
            List.take_succ_cons]
          rfl
        rw [htake]
        exact hcoded.spells_halves hc hcoded'
      · rw [if_neg hpair] at h
        cases h
    · cases h
  · rw [if_neg hhigh] at h
    obtain ⟨d, hd, h⟩ := bind_eq_ok.1 h
    cases h
    rw [toNat_of_scalar hd] at hcoded
    exact ⟨hfirst, hcoded.spells⟩

theorem spells_of_spelled (quote : Char) (h : spelled cs = .ok (value, used)) :
    used ≤ cs.length ∧ Spells Scanned quote value ('\\' :: cs.take used) := by
  unfold spelled at h
  split at h
  · cases h
  next c r =>
  split at h
  · next hbreak =>
    cases h
    subst hbreak
    exact ⟨Nat.succ_pos _, (Written.letter (by decide) (by decide)).spells⟩
  next hbreak =>
  split at h
  · next hx =>
    obtain ⟨n, hcode, h⟩ := bind_eq_ok.1 h
    obtain ⟨hlength, hds⟩ := scanned_of_fixedHex hcode
    obtain ⟨d, hd, h⟩ := bind_eq_ok.1 h
    cases h
    subst hx
    refine ⟨Nat.succ_le_succ hlength, ?_⟩
    have hwritten : Written Scanned quote _ _ := .two hds (List.length_take_of_le hlength)
    rw [toNat_of_scalar hd, Char.ofNat_toNat] at hwritten
    exact hwritten.spells
  next hx =>
  split at h
  · next hu =>
    obtain ⟨⟨d, n⟩, hunicode, h⟩ := bind_eq_ok.1 h
    cases h
    subst hu
    obtain ⟨hlength, hspells⟩ := spells_of_unicode quote hunicode
    exact ⟨Nat.succ_le_succ hlength, hspells⟩
  next hu =>
  cases h
  refine ⟨Nat.succ_pos _, ?_⟩
  have hwritten : Written Scanned quote _ _ := .letter hx hu
  rw [ofLetter, if_neg hbreak] at hwritten
  exact hwritten.spells

/-- Whatever is read is written in units, up to the closing quote. -/
theorem spells_of_literalBody (h : literalBody quote cs = .ok (value, n)) :
    ∃ text rest, Spells Scanned quote value text ∧ cs = text ++ quote :: rest ∧
      n = text.length + 1 := by
  induction hlen : cs.length using Nat.strongRecOn generalizing cs value n with
  | ind len ih =>
  unfold literalBody at h
  split at h
  · cases h
  next c r =>
  rw [List.length_cons] at hlen
  split at h
  · cases h
  next hbreak =>
  split at h
  · next hc =>
    cases h
    exact ⟨[], r, .nil, by rw [hc, List.nil_append], rfl⟩
  next hquote =>
  split at h
  · next hslash =>
    obtain ⟨⟨spelling, used⟩, hspelled, h⟩ := bind_eq_ok.1 h
    obtain ⟨⟨more, k⟩, hmore, h⟩ := bind_eq_ok.1 h
    cases h
    obtain ⟨text, rest, hspells, hrest, rfl⟩ :=
      ih _ (by rw [List.length_drop]; omega) hmore rfl
    obtain ⟨hlength, hspells'⟩ := spells_of_spelled quote hspelled
    refine ⟨_, rest, hspells'.append hspells, ?_, ?_⟩
    · rw [hslash, List.append_assoc, ← hrest, List.cons_append, List.take_append_drop]
    · rw [List.length_append, List.length_cons, List.length_take, Nat.min_eq_left hlength]
      omega
  · next hslash =>
    obtain ⟨⟨more, k⟩, hmore, h⟩ := bind_eq_ok.1 h
    cases h
    obtain ⟨text, rest, hspells, rfl, rfl⟩ := ih _ (by omega) hmore rfl
    have hwritten : Written Scanned quote _ _ := .plain hbreak hquote hslash
    exact ⟨c :: text, rest, hwritten.spells.append hspells, rfl, rfl⟩

/-! ### Where a literal ends -/

theorem Enclosed.append_inert (hq : IsQuote quote) (h : ∀ c ∈ cs, Inert c)
    (hrest : Enclosed quote rest) : Enclosed quote (cs ++ rest) := by
  induction cs with
  | nil => exact hrest
  | cons c cs ih =>
    obtain ⟨hc, hslash⟩ := h c List.mem_cons_self
    exact .plain (fun heq => hc (heq ▸ hq)) hslash (ih fun d hd => h d (List.mem_cons_of_mem _ hd))

theorem Scanned.inert {digits : List Char} (h : Scanned digits n) : ∀ c ∈ digits, Inert c := by
  intro c hc
  rcases h.mem c hc with hc | rfl
  · have := hc.ne
    simp only [List.mem_cons, not_or] at this
    exact ⟨not_or.2 ⟨this.1, this.2.1⟩, this.2.2.1⟩
  · exact ⟨not_or.2 (by decide), by decide⟩

/-- A unit is a character that stands for itself, or a backslash, the character that it takes along,
and characters that mean nothing by themselves. -/
theorem Written.shape {item : Item} (h : Written Scanned quote item text) :
    (∃ c, text = [c] ∧ c ≠ quote ∧ c ≠ '\\') ∨
      ∃ c ds, text = '\\' :: c :: ds ∧ ∀ d ∈ ds, Inert d := by
  cases h with
  | plain hbreak hquote hslash => exact .inl ⟨_, rfl, hquote, hslash⟩
  | letter hx hu => exact .inr ⟨_, [], rfl, by simp⟩
  | two hds hlen => exact .inr ⟨_, _, rfl, hds.inert⟩
  | code h =>
    refine .inr ?_
    cases h with
    | four hds hlen => exact ⟨_, _, rfl, hds.inert⟩
    | @braced ds hds =>
      have hbraces : Inert '\x7b' ∧ Inert '\x7d' := by
        unfold Inert IsQuote
        decide
      refine ⟨_, _, rfl, fun d hd => ?_⟩
      simp only [List.mem_cons, List.mem_append, List.not_mem_nil, or_false] at hd
      rcases hd with rfl | hd | rfl
      · exact hbraces.1
      · exact hds.inert d hd
      · exact hbraces.2

theorem Enclosed.append_written {item : Item} (hq : IsQuote quote)
    (h : Written Scanned quote item text) (hrest : Enclosed quote rest) :
    Enclosed quote (text ++ rest) := by
  rcases h.shape with ⟨c, rfl, hquote, hslash⟩ | ⟨c, ds, rfl, hds⟩
  · exact .plain hquote hslash hrest
  · exact .escape (.append_inert hq hds hrest)

theorem enclosed_flatten {items : List Item} {texts : List (List Char)} (hq : IsQuote quote)
    (h : List.Forall₂ (Written Scanned quote) items texts) : Enclosed quote texts.flatten := by
  induction h with
  | nil => exact .nil
  | cons hw _ ih => exact .append_written hq hw ih

/-- A literal is read up to the first quote that no backslash takes along. -/
theorem enclosed_of_literalBody (hq : IsQuote quote) (h : literalBody quote cs = .ok (value, n)) :
    ∃ body rest, cs = body ++ quote :: rest ∧ n = body.length + 1 ∧ Enclosed quote body := by
  obtain ⟨text, rest, ⟨items, texts, hall, rfl, -⟩, hcs, hn⟩ := spells_of_literalBody h
  exact ⟨_, rest, hcs, hn, enclosed_flatten hq hall⟩

end Escape

end DebugGuard
