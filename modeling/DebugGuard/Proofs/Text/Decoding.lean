import DebugGuard.Proofs.Text.Literal
import DebugGuard.Script.Escape
import Mathlib

/-!
# Decoding string literals

The other half of what `DebugGuard.Proofs.Text.Literal` says of the grammar.  A text that is written
for a value is read as that value (`literalBody_of_spells`), so all spellings of a character are
read alike (`literalBody_spellings`).  A text is written in one list of units only (`units_unique`).
Hence what cannot be decoded is not read, whichever spelling was chosen for it: units in which half
of a surrogate pair stands without the other half (`paired_of_literalBody`).
-/

namespace DebugGuard.Escape

/-- A letter that stands for another character behind a backslash, and that character. -/
def letters : List (Char × Char) :=
  [('n', '\n'), ('t', '\t'), ('r', '\r'), ('b', '\x08'), ('f', '\x0c'), ('v', '\x0b'),
    ('0', '\x00')]

/-- A spelling of one character in a literal with the given quotes. -/
inductive Spelling (quote c : Char) : List Char → Prop
  | itself (hbreak : c ≠ '\n') (hquote : c ≠ quote) (hslash : c ≠ '\\') : Spelling quote c [c]
  | letter {l} (hl : (l, c) ∈ letters) : Spelling quote c ['\\', l]
  | slash (hletter : c ∉ letters.map Prod.fst) (hbreak : c ≠ '\n') (hx : c ≠ 'x') (hu : c ≠ 'u') :
      Spelling quote c ['\\', c]
  | two {ds} (hds : HexNumeral ds c.toNat) (hlen : ds.length = 2) :
      Spelling quote c ('\\' :: 'x' :: ds)
  | code {text} (h : Coded HexNumeral c.toNat text) : Spelling quote c text
  | halves {text text'} (hc : 0xFFFF < c.toNat) (h : Coded HexNumeral (highHalf c) text)
      (h' : Coded HexNumeral (lowHalf c) text') : Spelling quote c (text ++ text')

/-- The escape of the first half of a surrogate pair. -/
def Item.IsHigh : Item → Prop
  | .chars _ => False
  | .code n => isHighSurrogate n = true

/-- The escape of the second half. -/
def Item.IsLow : Item → Prop
  | .chars _ => False
  | .code n => isLowSurrogate n = true

/-- Right behind each first half of a surrogate pair stands a second half, and right in front of
each second half a first half. -/
def Paired (items : List Item) : Prop :=
  ∀ before item after, items = before ++ item :: after →
    (item.IsHigh → ∃ low more, after = low :: more ∧ low.IsLow) ∧
      (item.IsLow → ∃ front high, before = front ++ [high] ∧ high.IsHigh)

/-- In front of anything, the text is read as the value. -/
def Reads (quote : Char) (value text : List Char) : Prop :=
  ∀ rest, literalBody quote (text ++ rest) =
    (literalBody quote rest).map fun x => (value ++ x.1, text.length + x.2)

variable {quote c : Char} {rest text value digits : List Char} {n : Nat} {items : List Item}
  {texts : List (List Char)}

/-! ### Written text is read -/

theorem fixedHex_of_scanned (h : Scanned digits n) (hn : n < UInt32.size) (rest : List Char) :
    fixedHex digits.length (digits ++ rest) = .ok n := by
  rw [fixedHex, if_neg (by simp), List.take_left, hexNumeral?_eq_some_iff.2 ⟨h, hn⟩]

theorem Scanned.not_brace (h : Scanned digits n) : '\x7b' ∉ digits ∧ '\x7d' ∉ digits := by
  refine ⟨fun hc => ?_, fun hc => ?_⟩
  all_goals
    rcases h.mem _ hc with h | h
    · exact h.ne (by decide)
    · exact absurd h (by decide)

/-- Four digits do not start with a brace. -/
theorem Scanned.ne_brace {more : List Char} (h : Scanned digits n) (hlen : digits.length = 4) :
    digits ++ rest ≠ '\x7b' :: more := by
  obtain ⟨d, ds, rfl⟩ := List.exists_cons_of_length_eq_add_one hlen
  intro heq
  obtain ⟨rfl, -⟩ := List.cons.inj heq
  exact h.not_brace.1 List.mem_cons_self

theorem takeWhile_brace (h : '\x7d' ∉ digits) (rest : List Char) :
    (digits ++ '\x7d' :: rest).takeWhile (· != '\x7d') = digits := by
  rw [List.takeWhile_append_of_pos, List.takeWhile_cons_of_neg (by simp), List.append_nil]
  intro d hd
  rw [bne_iff_ne]
  rintro rfl
  exact h hd

/-- What stands in front of the first closing brace is determined by the text. -/
theorem eq_of_brace {digits' rest' : List Char} (h : '\x7d' ∉ digits) (h' : '\x7d' ∉ digits')
    (heq : digits ++ '\x7d' :: rest = digits' ++ '\x7d' :: rest') : digits = digits' := by
  rw [← takeWhile_brace h rest, heq, takeWhile_brace h']

/-- The escape of a code is read, if it is the code of a character or half of one. -/
theorem codeUnit_of_coded (h : Coded Scanned n text) (hn : n < 0x110000) :
    ∃ ds, text = '\\' :: 'u' :: ds ∧ ∀ rest, codeUnit (ds ++ rest) = .ok (n, ds.length) := by
  have hsize : n < UInt32.size := Nat.lt_trans hn (by decide)
  cases h with
  | @four ds hds hlen =>
    refine ⟨ds, rfl, fun rest => ?_⟩
    rw [codeUnit, ← hlen, fixedHex_of_scanned hds hsize]
    · rfl
    · exact fun r => hds.ne_brace hlen
  | @braced ds hds =>
    refine ⟨_, rfl, fun rest => ?_⟩
    have hcs : '\x7b' :: (ds ++ ['\x7d']) ++ rest = '\x7b' :: (ds ++ '\x7d' :: rest) := by simp
    rw [hcs, codeUnit]
    simp only [takeWhile_brace hds.not_brace.2]
    rw [if_neg (by simp), hexNumeral?_eq_some_iff.2 ⟨hds, hsize⟩]
    simp only [if_neg (Nat.not_lt.2 (Nat.le_of_lt_succ hn)), List.length_cons, List.length_append,
      List.length_nil]

theorem IsQuote.ne (h : IsQuote quote) : quote ≠ '\\' ∧ quote ≠ '\n' := by
  rcases h with rfl | rfl <;> decide

/-- A backslash and what is read behind it. -/
theorem reads_of_spelled (hq : quote ≠ '\\')
    (h : ∀ rest, spelled (text ++ rest) = .ok (value, text.length)) :
    Reads quote value ('\\' :: text) := by
  intro rest
  rw [List.cons_append, literalBody, if_neg (by decide), if_neg hq.symm, if_pos rfl, h]
  simp only [bind, Except.bind, List.drop_left, List.length_cons, Nat.add_comm text.length]
  cases literalBody quote rest <;> rfl

theorem reads_of_unicode (hq : quote ≠ '\\')
    (h : ∀ rest, unicode (text ++ rest) = .ok (c, text.length)) :
    Reads quote [c] ('\\' :: 'u' :: text) := by
  refine reads_of_spelled hq fun rest => ?_
  simp [spelled, h, bind, Except.bind, pure, Except.pure]

theorem Coded.reads (hq : quote ≠ '\\') (h : Coded Scanned c.toNat text) :
    Reads quote [c] text := by
  obtain ⟨ds, rfl, hds⟩ := codeUnit_of_coded h (toNat_lt c)
  refine reads_of_unicode hq fun rest => ?_
  simp [unicode, hds, not_surrogate, scalar_toNat, bind, Except.bind, pure, Except.pure]

/-- The escapes of two halves are read as one. -/
theorem Coded.reads_pair {high low : Nat} {text' : List Char} (hq : quote ≠ '\\')
    (h : Coded Scanned high text) (h' : Coded Scanned low text')
    (hhigh : isHighSurrogate high = true) (hlow : isLowSurrogate low = true)
    (hpair : pairCode high low = c.toNat) : Reads quote [c] (text ++ text') := by
  obtain ⟨ds, rfl, hds⟩ := codeUnit_of_coded h (lt_of_surrogate (.inl hhigh))
  obtain ⟨ds', rfl, hds'⟩ := codeUnit_of_coded h' (lt_of_surrogate (.inr hlow))
  show Reads quote [c] ('\\' :: 'u' :: (ds ++ '\\' :: 'u' :: ds'))
  refine reads_of_unicode hq fun rest => ?_
  rw [List.append_assoc, List.length_append, List.length_cons, List.length_cons]
  -- one step after the other: reduced at once, the codes would be counted down to zero
  refine bind_eq_ok.2 ⟨(high, ds.length), hds _, ?_⟩
  dsimp only
  rw [if_pos hhigh, List.drop_left]
  refine bind_eq_ok.2 ⟨(low, ds'.length), hds' _, ?_⟩
  dsimp only
  rw [if_pos hlow]
  refine bind_eq_ok.2 ⟨c, hpair ▸ scalar_toNat c, ?_⟩
  rw [Nat.add_assoc, Nat.add_comm 2]
  rfl

/-- A unit other than an escape of a code is read as what it stands for. -/
theorem Written.reads (hq : quote ≠ '\\') (h : Written Scanned quote (.chars value) text) :
    Reads quote value text := by
  cases h with
  | plain hbreak hquote hslash =>
    intro rest
    rw [List.singleton_append, literalBody, if_neg hbreak, if_neg hquote, if_neg hslash,
      List.length_singleton]
    cases literalBody quote rest with
    | error e => rfl
    | ok x => simp [Except.map, bind, Except.bind, pure, Except.pure, Nat.add_comm]
  | @letter c hx hu =>
    refine reads_of_spelled hq fun rest => ?_
    rw [List.singleton_append, spelled, ofLetter]
    simp only [if_neg hx, if_neg hu, List.length_singleton]
    split <;> rfl
  | @two ds n hds hlen =>
    have hn : n < 256 := by
      have := hds.lt
      rwa [hlen] at this
    have hvalid : n.isValidChar := .inl (by omega)
    have hfixed (rest) := fixedHex_of_scanned hds (Nat.lt_trans hn (by decide)) rest
    rw [hlen] at hfixed
    refine reads_of_spelled hq fun rest => ?_
    simp [spelled, hfixed, scalar, hvalid, hlen, bind, Except.bind, pure, Except.pure]

theorem reads_nil : Reads quote [] [] := by
  intro rest
  rw [List.nil_append]
  cases literalBody quote rest with
  | error e => rfl
  | ok x => simp [Except.map]

theorem Reads.append {value' text' : List Char} (h : Reads quote value text)
    (h' : Reads quote value' text') : Reads quote (value ++ value') (text ++ text') := by
  intro rest
  rw [List.append_assoc, h, h']
  cases literalBody quote rest with
  | error e => rfl
  | ok x => simp [Except.map, Nat.add_assoc]

/-- Units are read as what they stand for.  Halves are read together, all others one by one. -/
theorem Decodes.reads (hq : quote ≠ '\\') (h : Decodes items value)
    (hall : List.Forall₂ (Written Scanned quote) items texts) :
    Reads quote value texts.flatten := by
  induction h generalizing texts with
  | nil =>
    cases hall
    exact reads_nil
  | chars _ ih =>
    cases hall with
    | cons hw hall => exact (hw.reads hq).append (ih hall)
  | code _ ih =>
    cases hall with
    | cons hw hall =>
      cases hw with
      | code hw => exact (hw.reads hq).append (ih hall)
  | halves hc _ ih =>
    cases hall with
    | cons hw hall =>
      cases hall with
      | cons hw' hall =>
        cases hw with
        | code hw =>
          cases hw' with
          | code hw' =>
            obtain ⟨hhigh, hlow, hpair⟩ := pairCode_halves hc
            have hreads := (hw.reads_pair hq hw' hhigh hlow hpair).append (ih hall)
            rwa [List.append_assoc] at hreads

/-- A text written for a value is read as the value, up to and with the closing quote. -/
theorem literalBody_of_spells (hquote : IsQuote quote) (h : Spells Scanned quote value text)
    (rest : List Char) :
    literalBody quote (text ++ quote :: rest) = .ok (value, text.length + 1) := by
  obtain ⟨hq, hbreak⟩ := hquote.ne
  obtain ⟨items, texts, hall, rfl, hdecodes⟩ := h
  have hclose : literalBody quote (quote :: rest) = .ok ([], 1) := by
    rw [literalBody, if_neg hbreak, if_pos rfl]
  rw [hdecodes.reads hq hall (quote :: rest), hclose]
  simp only [Except.map, List.append_nil]

/-! ### Spellings -/

theorem Coded.scanned (h : Coded HexNumeral n text) : Coded Scanned n text := by
  cases h with
  | four hds hlen => exact .four (.inl hds) hlen
  | braced hds => exact .braced (.inl hds)

theorem Written.scanned {item : Item} (h : Written HexNumeral quote item text) :
    Written Scanned quote item text := by
  cases h with
  | plain hbreak hquote hslash => exact .plain hbreak hquote hslash
  | letter hx hu => exact .letter hx hu
  | two hds hlen => exact .two (.inl hds) hlen
  | code h => exact .code h.scanned

theorem Spelling.spells (h : Spelling quote c text) : Spells Scanned quote [c] text := by
  cases h with
  | itself hbreak hquote hslash => exact (Written.plain hbreak hquote hslash).spells
  | @letter l hl =>
    have hall : ∀ p ∈ letters, p.1 ≠ 'x' ∧ p.1 ≠ 'u' ∧ ofLetter p.1 = [p.2] := by decide
    obtain ⟨hx, hu, hvalue⟩ := hall _ hl
    exact hvalue ▸ (Written.letter hx hu).spells
  | slash hletter hbreak hx hu =>
    have hvalue : ofLetter c = [c] := by
      rw [ofLetter, if_neg hbreak, letterValue?]
      · rfl
      all_goals
        rintro rfl
        exact hletter (by decide)
    have hwritten : Written Scanned quote _ _ := .letter hx hu
    rw [hvalue] at hwritten
    exact hwritten.spells
  | @two ds hds hlen =>
    have hwritten : Written Scanned quote _ _ := .two (.inl hds) hlen
    rw [Char.ofNat_toNat] at hwritten
    exact hwritten.spells
  | code h => exact h.scanned.spells
  | halves hc h h' => exact h.scanned.spells_halves hc h'.scanned

/-- All spellings of all characters are read alike. -/
theorem literalBody_spellings (hquote : IsQuote quote)
    (h : List.Forall₂ (Spelling quote) value texts) (rest : List Char) :
    literalBody quote (texts.flatten ++ quote :: rest) =
      .ok (value, texts.flatten.length + 1) := by
  suffices Spells Scanned quote value texts.flatten from literalBody_of_spells hquote this rest
  induction h with
  | nil => exact .nil
  | cons hc _ ih => exact hc.spells.append ih

/-! ### Units are told apart in one way only -/

section Unique

variable {item item' : Item} {w w' more more' : List Char} {m : Nat}

theorem Coded.starts {digits : List Char → Nat → Prop} (h : Coded digits n w) :
    ∃ ds, w = '\\' :: 'u' :: ds := by
  cases h with
  | four => exact ⟨_, rfl⟩
  | braced => exact ⟨_, rfl⟩

theorem Coded.unique (h : Coded Scanned n w) (h' : Coded Scanned m w')
    (heq : w ++ more = w' ++ more') : n = m ∧ w = w' := by
  cases h with
  | four hds hlen =>
    cases h' with
    | four hds' hlen' =>
      simp only [List.cons_append, List.cons.injEq, true_and] at heq
      obtain ⟨rfl, -⟩ := List.append_inj heq (hlen.trans hlen'.symm)
      exact ⟨hds.unique hds', rfl⟩
    | braced hds' =>
      simp only [List.cons_append, List.cons.injEq, true_and] at heq
      exact absurd heq (hds.ne_brace hlen)
  | braced hds =>
    cases h' with
    | four hds' hlen' =>
      simp only [List.cons_append, List.cons.injEq, true_and] at heq
      exact absurd heq.symm (hds'.ne_brace hlen')
    | braced hds' =>
      simp only [List.cons_append, List.cons.injEq, true_and, List.append_assoc] at heq
      obtain rfl := eq_of_brace hds.not_brace.2 hds'.not_brace.2 heq
      exact ⟨hds.unique hds', rfl⟩

theorem Written.eq_chars {d : List Char → Nat → Prop} (h : Written d quote item (c :: w))
    (hslash : c ≠ '\\') : item = .chars [c] ∧ w = [] := by
  cases h with
  | plain => exact ⟨rfl, rfl⟩
  | letter | two => exact absurd rfl hslash
  | code h =>
    obtain ⟨ds, heq⟩ := h.starts
    exact absurd (List.cons.inj heq).1 hslash

theorem Written.eq_letter {d : List Char → Nat → Prop} (h : Written d quote item ('\\' :: c :: w))
    (hx : c ≠ 'x') (hu : c ≠ 'u') : item = .chars (ofLetter c) ∧ w = [] := by
  cases h with
  | letter => exact ⟨rfl, rfl⟩
  | two => exact absurd rfl hx
  | code h =>
    obtain ⟨ds, heq⟩ := h.starts
    simp only [List.cons.injEq, true_and] at heq
    exact absurd heq.1 hu

theorem Written.eq_two {d : List Char → Nat → Prop} (h : Written d quote item ('\\' :: 'x' :: w)) :
    ∃ n, item = .chars [Char.ofNat n] ∧ d w n ∧ w.length = 2 := by
  cases h with
  | letter hx => exact absurd rfl hx
  | two hds hlen => exact ⟨_, rfl, hds, hlen⟩
  | code h =>
    obtain ⟨ds, heq⟩ := h.starts
    simp at heq

theorem Written.eq_code {d : List Char → Nat → Prop} (h : Written d quote item ('\\' :: 'u' :: w)) :
    ∃ n, item = .code n ∧ Coded d n ('\\' :: 'u' :: w) := by
  cases h with
  | letter hx hu => exact absurd rfl hu
  | code h => exact ⟨_, rfl, h⟩

/-- The first unit of a text and what it stands for are determined by the text. -/
theorem Written.unique (h : Written Scanned quote item w) (h' : Written Scanned quote item' w')
    (heq : w ++ more = w' ++ more') : item = item' ∧ w = w' := by
  rcases h.shape with ⟨c, rfl, -, hslash⟩ | ⟨c, w, rfl, -⟩ <;>
    rcases h'.shape with ⟨c', rfl, -, hslash'⟩ | ⟨c', w', rfl, -⟩
  · obtain ⟨rfl, -⟩ := List.cons.inj heq
    exact ⟨(h.eq_chars hslash).1.trans (h'.eq_chars hslash).1.symm, rfl⟩
  · exact absurd (List.cons.inj heq).1 hslash
  · exact absurd (List.cons.inj heq).1.symm hslash'
  -- behind a backslash the next character tells the kinds of units apart
  simp only [List.cons_append, List.cons.injEq, true_and] at heq
  obtain ⟨rfl, heq⟩ := heq
  by_cases hx : c = 'x'
  · subst hx
    obtain ⟨n, rfl, hds, hlen⟩ := h.eq_two
    obtain ⟨m, rfl, hds', hlen'⟩ := h'.eq_two
    obtain ⟨rfl, -⟩ := List.append_inj heq (hlen.trans hlen'.symm)
    rw [hds.unique hds']
    exact ⟨rfl, rfl⟩
  by_cases hu : c = 'u'
  · subst hu
    obtain ⟨n, rfl, hcoded⟩ := h.eq_code
    obtain ⟨m, rfl, hcoded'⟩ := h'.eq_code
    have hcut : ('\\' :: 'u' :: w) ++ more = ('\\' :: 'u' :: w') ++ more' := by simpa using heq
    obtain ⟨rfl, hsame⟩ := hcoded.unique hcoded' hcut
    exact ⟨rfl, hsame⟩
  · obtain ⟨rfl, rfl⟩ := h.eq_letter hx hu
    obtain ⟨rfl, rfl⟩ := h'.eq_letter hx hu
    exact ⟨rfl, rfl⟩

theorem Written.starts (hq : quote ≠ '\\') (h : Written Scanned quote item w) :
    ∃ c s, w = c :: s ∧ c ≠ quote := by
  rcases h.shape with ⟨c, rfl, hquote, -⟩ | ⟨c, ds, rfl, -⟩
  · exact ⟨c, [], rfl, hquote⟩
  · exact ⟨_, _, rfl, hq.symm⟩

/-- Up to the closing quote a text is written in one list of units only. -/
theorem units_unique {items' : List Item} {texts' : List (List Char)} (hq : quote ≠ '\\')
    (h : List.Forall₂ (Written Scanned quote) items texts)
    (h' : List.Forall₂ (Written Scanned quote) items' texts')
    (heq : texts.flatten ++ quote :: more = texts'.flatten ++ quote :: more') :
    items = items' ∧ texts = texts' := by
  induction h generalizing items' texts' with
  | nil =>
    cases h' with
    | nil => exact ⟨rfl, rfl⟩
    | cons hw' _ =>
      obtain ⟨c, s, rfl, hc⟩ := hw'.starts hq
      exact absurd (List.cons.inj heq).1.symm hc
  | cons hw hall ih =>
    cases h' with
    | nil =>
      obtain ⟨c, s, rfl, hc⟩ := hw.starts hq
      exact absurd (List.cons.inj heq).1 hc
    | cons hw' hall' =>
      rw [List.flatten_cons, List.flatten_cons, List.append_assoc, List.append_assoc] at heq
      obtain ⟨rfl, rfl⟩ := hw.unique hw' heq
      obtain ⟨rfl, rfl⟩ := ih hall' (List.append_cancel_left heq)
      exact ⟨rfl, rfl⟩

end Unique

/-! ### Surrogates without their other half -/

theorem not_high_toNat (c : Char) : ¬(Item.code c.toNat).IsHigh := by
  simp [Item.IsHigh, not_surrogate]

theorem not_low_toNat (c : Char) : ¬(Item.code c.toNat).IsLow := by
  simp [Item.IsLow, not_surrogate]

/-- A unit that is no surrogate leaves pairs as they are. -/
theorem Paired.cons {item : Item} (hhigh : ¬item.IsHigh) (hlow : ¬item.IsLow) (h : Paired items) :
    Paired (item :: items) := by
  intro before item' after heq
  cases before with
  | nil =>
    obtain ⟨rfl, -⟩ := List.cons.inj heq
    exact ⟨fun hi => absurd hi hhigh, fun hi => absurd hi hlow⟩
  | cons first before =>
    obtain ⟨rfl, rfl⟩ := List.cons.inj heq
    obtain ⟨hafter, hbefore⟩ := h before item' after rfl
    refine ⟨hafter, fun hi => ?_⟩
    obtain ⟨front, high, rfl, hh⟩ := hbefore hi
    exact ⟨_ :: front, high, rfl, hh⟩

theorem Paired.cons_pair {high low : Item} (hhigh : high.IsHigh) (hnot : ¬high.IsLow)
    (hlow : low.IsLow) (hnot' : ¬low.IsHigh) (h : Paired items) :
    Paired (high :: low :: items) := by
  intro before item after heq
  match before with
  | [] =>
    obtain ⟨rfl, rfl⟩ := List.cons.inj heq
    exact ⟨fun _ => ⟨low, items, rfl, hlow⟩, fun hi => absurd hi hnot⟩
  | [first] =>
    simp only [List.cons_append, List.nil_append, List.cons.injEq] at heq
    obtain ⟨rfl, rfl, -⟩ := heq
    exact ⟨fun hi => absurd hi hnot', fun _ => ⟨[], high, rfl, hhigh⟩⟩
  | first :: second :: before =>
    simp only [List.cons_append, List.cons.injEq] at heq
    obtain ⟨rfl, rfl, rfl⟩ := heq
    obtain ⟨hafter, hbefore⟩ := h before item after rfl
    refine ⟨hafter, fun hi => ?_⟩
    obtain ⟨front, high', rfl, hh⟩ := hbefore hi
    exact ⟨high :: low :: front, high', rfl, hh⟩

theorem Decodes.paired (h : Decodes items value) : Paired items := by
  induction h with
  | nil => exact fun before item after heq => by simp at heq
  | chars _ ih => exact ih.cons id id
  | code _ ih => exact ih.cons (not_high_toNat _) (not_low_toNat _)
  | halves hc _ ih =>
    obtain ⟨hhigh, hlow, -⟩ := pairCode_halves hc
    exact ih.cons_pair hhigh (not_high_and_low hhigh) hlow fun h => not_high_and_low h hlow

/-- What is read has no half of a surrogate pair without the other half. -/
theorem paired_of_literalBody (hquote : IsQuote quote)
    (h : List.Forall₂ (Written Scanned quote) items texts)
    (hbody : literalBody quote (texts.flatten ++ quote :: rest) = .ok (value, n)) :
    Paired items := by
  obtain ⟨text, rest', ⟨items', texts', hall, rfl, hdecodes⟩, heq, -⟩ := spells_of_literalBody hbody
  obtain ⟨rfl, -⟩ := units_unique hquote.ne.1 h hall heq
  exact hdecodes.paired

end DebugGuard.Escape
