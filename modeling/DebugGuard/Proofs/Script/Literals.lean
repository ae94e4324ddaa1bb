import DebugGuard.Proofs.Script.Scan
import DebugGuard.Proofs.Text.Malformed
import DebugGuard.Proofs.Text.Quoted

/-!
# String literals in a source

What a literal is read as does not depend on how it was written: quoted text comes back as it was
(`Token.scan_quoted`), and so does every other choice of spellings (`Token.scan_spelled`).

A literal that cannot be read makes the scan fail where the literal starts, wherever in a source the
scanner comes to it (`Token.Comes`).  That holds of a surrogate without its other half, and of an
escape without its digits unless a plus sign stands for the first of them (`Token.scan_malformed`).
-/

namespace DebugGuard

open Text

namespace Scan

open Escape

variable {quote : Char} {cs : List Char}

theorem lexeme_quote (hquote : IsQuote quote) (cs : List Char) :
    lexeme quote cs =
      (literalBody quote cs).map fun x => ⟨.string, String.ofList x.1, x.2⟩ := by
  have h : quote = '"' ∨ quote = '\x27' := hquote
  rw [lexeme, if_pos h]

theorem lexeme_eq_ok (hquote : IsQuote quote) {l : Lexeme} : lexeme quote cs = .ok l ↔
    ∃ value n, literalBody quote cs = .ok (value, n) ∧ l = ⟨.string, String.ofList value, n⟩ := by
  rw [lexeme_quote hquote]
  cases literalBody quote cs with
  | error e => simp [Except.map]
  | ok x =>
    obtain ⟨value, n⟩ := x
    simp [Except.map, eq_comm]

theorem exists_fault (h : ∀ l, lexeme quote cs ≠ .ok l) :
    ∃ fault, lexeme quote cs = .error fault := by
  cases hl : lexeme quote cs with
  | error fault => exact ⟨fault, rfl⟩
  | ok l => exact absurd hl (h l)

theorem trivia_quote (hquote : IsQuote quote) (pos : Nat) (broken : Bool) (cs : List Char) :
    trivia pos broken (quote :: cs) = .ok (0, broken) := by
  refine trivia_eq_zero ?_ ?_ pos broken
  · rcases hquote with rfl | rfl <;> decide
  · rcases hquote with rfl | rfl <;> exact fun h => absurd h (by decide)

end Scan

namespace Token

open Escape

variable {quote : Char} {cs r body tail rest : List Char} {pos start : Nat}

/-! ### The start of a token -/

/-- The scanner, at the characters `cs` at offset `pos`, comes to a token that starts at `start`
with the characters `rest`, or to the end of the text there. -/
inductive Comes : Nat → List Char → Nat → List Char → Prop
  | here {pos cs n broken} (htrivia : Scan.trivia pos false cs = .ok (n, broken)) :
      Comes pos cs (pos + byteSize (cs.take n)) (cs.drop n)
  | token {pos cs n broken c r l start rest} (htrivia : Scan.trivia pos false cs = .ok (n, broken))
      (hcs : cs.drop n = c :: r) (hl : Scan.lexeme c r = .ok l)
      (h : Comes (pos + byteSize (cs.take n) + byteSize (c :: r.take l.more)) (r.drop l.more)
        start rest) :
      Comes pos cs start rest

/-- The scan fails at the first token that cannot be read. -/
theorem Comes.scanFrom_eq_error {c : Char} {fault : Fault} (h : Comes pos cs start (c :: r))
    (hl : Scan.lexeme c r = .error fault) : scanFrom pos cs = .error ⟨fault, start⟩ := by
  generalize hrest : c :: r = rest at h
  induction h with
  | here htrivia =>
    rw [scanFrom_eq_scanAfter, scanAfter, htrivia]
    simp only [Except.bind, ← hrest, cut, hl]
  | token htrivia hcs hl' _ ih =>
    rw [scanFrom_eq_scanAfter, scanAfter, htrivia]
    simp only [Except.bind, hcs, cut, hl', ih hrest]
    rfl

/-- A literal in front is cut off as a token. -/
theorem scanFrom_literal {value : String} (hquote : IsQuote quote)
    (hl : Scan.lexeme quote (body ++ quote :: rest) = .ok ⟨.string, value, body.length + 1⟩)
    (pos : Nat) : scanFrom pos (quote :: (body ++ quote :: rest)) =
      (scanFrom (pos + byteSize (quote :: (body ++ [quote]))) rest).map
        (⟨.string, value, pos, false⟩ :: ·) := by
  have hsplit : body ++ quote :: rest = (body ++ [quote]) ++ rest := by simp
  have hlength : body.length + 1 = (body ++ [quote]).length := by simp
  rw [scanFrom_eq_scanAfter, scanAfter, Scan.trivia_quote hquote]
  simp only [Except.bind, List.take_zero, byteSize_nil, Nat.add_zero, List.drop_zero, cut, hl]
  rw [hsplit, hlength, List.take_left, List.drop_left]

theorem scanFrom_nil (pos : Nat) : scanFrom pos [] = .ok [⟨.endOfFile, "", pos, false⟩] := by
  rw [scanFrom_eq_scanAfter, scanAfter, Scan.trivia_nil]
  rfl

/-! ### What literals are read as -/

/-- Quoting a text is undone by scanning it, whatever stands behind: the first token is a string
with that text for its value, and it ends with the closing quote.  Nothing that quoting writes
breaks a line or acts on a terminal. -/
theorem scan_quoted (value rest : String) :
    (∃ body, (quoted value).toList = '"' :: (body ++ ['"']) ∧
      Scan.lexeme '"' (body ++ '"' :: rest.toList) = .ok ⟨.string, value, body.length + 1⟩) ∧
    scan (quoted value ++ rest) = (scanFrom (byteSize (quoted value).toList) rest.toList).map
      (⟨.string, value, 0, false⟩ :: ·) ∧
    ∀ c ∈ (quoted value).toList, Printable c := by
  have hquoted : (quoted value).toList = '"' :: (value.toList.flatMap quotedChar ++ ['"']) := by
    rw [quoted, String.toList_ofList, List.cons_append]
  have hquote : IsQuote '"' := .inl rfl
  have hl : Scan.lexeme '"' (value.toList.flatMap quotedChar ++ '"' :: rest.toList) =
      .ok ⟨.string, value, (value.toList.flatMap quotedChar).length + 1⟩ := by
    rw [Scan.lexeme_quote hquote, literalBody_quoted]
    simp only [Except.map, String.ofList_toList]
  refine ⟨⟨_, hquoted, hl⟩, ?_, ?_⟩
  · have hscan := scanFrom_literal hquote hl 0
    rw [Nat.zero_add] at hscan
    rw [scan, String.toList_append, hquoted, List.cons_append, List.append_assoc,
      List.singleton_append, hscan]
  · intro c hc
    rw [hquoted] at hc
    simp only [List.mem_cons, List.mem_append, List.mem_flatMap, List.not_mem_nil, or_false] at hc
    rcases hc with rfl | ⟨d, -, hd⟩ | rfl
    · exact printable_of_ascii (by decide)
    · exact printable_quotedChar d c hd
    · exact printable_of_ascii (by decide)

/-- Whichever spelling is chosen for each character, the literal is read as these characters.  A
literal whose escapes have their digits, but in which half of a surrogate pair stands without the
other half, is refused where it starts. -/
theorem scan_spelled (hquote : IsQuote quote) :
    (∀ values texts, List.Forall₂ (Spelling quote) values texts →
      (∀ rest, Scan.lexeme quote (texts.flatten ++ quote :: rest) =
        .ok ⟨.string, String.ofList values, texts.flatten.length + 1⟩) ∧
      scan (String.ofList (quote :: (texts.flatten ++ [quote]))) =
        .ok [⟨.string, String.ofList values, 0, false⟩,
          ⟨.endOfFile, "", byteSize (quote :: (texts.flatten ++ [quote])), false⟩]) ∧
    ∀ items texts, List.Forall₂ (Written HexNumeral quote) items texts → ¬Paired items →
      ∀ source start rest,
        Comes 0 (String.toList source) start (quote :: (texts.flatten ++ quote :: rest)) →
        ∃ fault, scan source = .error ⟨fault, start⟩ := by
  refine ⟨fun values texts h => ?_, ?_⟩
  · have hl (rest : List Char) : Scan.lexeme quote (texts.flatten ++ quote :: rest) =
        .ok ⟨.string, String.ofList values, texts.flatten.length + 1⟩ := by
      rw [Scan.lexeme_quote hquote, literalBody_spellings hquote h]
      rfl
    refine ⟨hl, ?_⟩
    rw [scan, String.toList_ofList, scanFrom_literal hquote (hl []), scanFrom_nil, Nat.zero_add]
    rfl
  · intro items texts h hpaired source start rest hcomes
    have hscanned : List.Forall₂ (Written Scanned quote) items texts := h.imp fun _ _ => .scanned
    obtain ⟨fault, hfault⟩ : ∃ fault,
        Scan.lexeme quote (texts.flatten ++ quote :: rest) = .error fault := by
      refine Scan.exists_fault fun l hl => hpaired ?_
      obtain ⟨value, n, hbody, -⟩ := (Scan.lexeme_eq_ok hquote).1 hl
      exact paired_of_literalBody hquote hscanned hbody
    exact ⟨fault, hcomes.scanFrom_eq_error hfault⟩

/-- Two halves are read as one character, in either form and case; a half in between is refused. -/
theorem scan_halves :
    scan "\"\\uD83D\\u\x7bdE00\x7d\"" =
      .ok [⟨.string, "😀", 0, false⟩, ⟨.endOfFile, "", 16, false⟩] ∧
    ∃ fault, scan "\"\\uD83D\\uD83D\\uDE00\"" = .error ⟨fault, 0⟩ := by
  have hhigh : Coded HexNumeral 0xD83D "\\uD83D".toList :=
    .four (hexNumeral_iff.2 ⟨by decide, rfl⟩) rfl
  have hlow : Coded HexNumeral 0xDE00 "\\uDE00".toList :=
    .four (hexNumeral_iff.2 ⟨by decide, rfl⟩) rfl
  have hdigits : HexNumeral ['d', 'E', '0', '0'] 0xDE00 := hexNumeral_iff.2 ⟨by decide, rfl⟩
  have hlow' : Coded HexNumeral 0xDE00 "\\u\x7bdE00\x7d".toList := .braced hdigits
  have hhalves : highHalf '😀' = 0xD83D ∧ lowHalf '😀' = 0xDE00 := by
    unfold highHalf lowHalf
    decide
  have hspelling : Spelling '"' '😀' ("\\uD83D".toList ++ "\\u\x7bdE00\x7d".toList) :=
    .halves (by decide) (hhalves.1 ▸ hhigh) (hhalves.2 ▸ hlow')
  have hpaired : ¬Paired [.code 0xD83D, .code 0xD83D, .code 0xDE00] := by
    intro h
    obtain ⟨_, _, heq, hsecond⟩ := (h [] _ _ rfl).1 (by unfold Item.IsHigh; decide)
    obtain ⟨rfl, -⟩ := List.cons.inj heq
    exact absurd hsecond (by unfold Item.IsLow; decide)
  have hcomes : Comes 0 "\"\\uD83D\\uD83D\\uDE00\"".toList 0
      ('"' :: (["\\uD83D".toList, "\\uD83D".toList, "\\uDE00".toList].flatten ++ ['"'])) :=
    .here (Scan.trivia_quote (.inl rfl) 0 false _)
  refine ⟨((scan_spelled (.inl rfl)).1 _ _ (.cons hspelling .nil)).2, ?_⟩
  exact (scan_spelled (.inl rfl)).2 _ _
    (.cons (.code hhigh) (.cons (.code hhigh) (.cons (.code hlow) .nil))) hpaired _ _ _ hcomes

/-- An escape without its digits makes the scan fail where its literal starts, unless a plus sign
stands for the first digit.  With such a sign the literal is read exactly as it is with a zero
there. -/
theorem scan_malformed {source : String} (hquote : IsQuote quote) (hbody : Enclosed quote body)
    (hcomes : Comes 0 source.toList start (quote :: (body ++ '\\' :: tail)))
    (hmalformed : Malformed tail) :
    ((¬∃ w w' more, Signed w w' ∧ tail = w ++ more) →
      ∃ fault, scan source = .error ⟨fault, start⟩) ∧
    ∀ w w' more, Signed w w' → tail = w ++ more → ∀ l,
      Scan.lexeme quote (body ++ '\\' :: tail) = .ok l ↔
        Scan.lexeme quote (body ++ '\\' :: (w' ++ more)) = .ok l := by
  refine ⟨fun hunsigned => ?_, ?_⟩
  · obtain ⟨fault, hfault⟩ : ∃ fault,
        Scan.lexeme quote (body ++ '\\' :: tail) = .error fault := by
      refine Scan.exists_fault fun l hl => hunsigned ?_
      obtain ⟨value, n, hread, -⟩ := (Scan.lexeme_eq_ok hquote).1 hl
      exact signed_of_literalBody hquote hbody hmalformed hread
    exact ⟨fault, hcomes.scanFrom_eq_error hfault⟩
  · rintro w w' more hsigned rfl l
    obtain ⟨hlen, item, hw, hw'⟩ := hsigned.written quote
    rw [Scan.lexeme_eq_ok hquote, Scan.lexeme_eq_ok hquote]
    constructor
    · rintro ⟨value, n, hread, rfl⟩
      exact ⟨value, n, literalBody_exchange hquote hbody hw hw' hlen hread, rfl⟩
    · rintro ⟨value, n, hread, rfl⟩
      exact ⟨value, n, literalBody_exchange hquote hbody hw' hw hlen.symm hread, rfl⟩

/-- A plus sign passes for a digit, any other character does not. -/
theorem scan_plus_sign : (∃ fault, scan "\"\\xZ1\"" = .error ⟨fault, 0⟩) ∧
    scan "\"\\x+1\"" = .ok [⟨.string, "\x01", 0, false⟩, ⟨.endOfFile, "", 6, false⟩] := by
  have hquote : IsQuote '"' := .inl rfl
  have hone : HexNumeral ['0', '1'] 1 := hexNumeral_iff.2 ⟨by decide, rfl⟩
  have hlacks {c : Char} (hc : hexValue? c = none) (cs : List Char) :
      Malformed ('x' :: c :: cs) := by
    refine .two ?_
    rintro ⟨digits, more, heq, hlen, hdigits⟩
    obtain ⟨d, digits, rfl⟩ := List.exists_cons_of_length_eq_add_one hlen
    obtain ⟨rfl, -⟩ := List.cons.inj heq
    obtain ⟨v, hv⟩ := hdigits _ List.mem_cons_self
    rw [hexValue?_eq_some_iff.2 hv] at hc
    cases hc
  have hcomes {source : String} {cs : List Char} (hsource : source.toList = '"' :: cs) :
      Comes 0 source.toList 0 ('"' :: cs) := by
    rw [hsource]
    exact .here (Scan.trivia_quote hquote 0 false _)
  refine ⟨?_, ?_⟩
  · have hcomes : Comes 0 "\"\\xZ1\"".toList 0 ('"' :: ([] ++ '\\' :: ['x', 'Z', '1', '"'])) :=
      hcomes rfl
    refine (scan_malformed hquote .nil hcomes (hlacks rfl _)).1 ?_
    rintro ⟨w, w', more, hsigned, heq⟩
    cases hsigned <;> simp at heq
  · have hcomes : Comes 0 "\"\\x+1\"".toList 0 ('"' :: ([] ++ '\\' :: ['x', '+', '1', '"'])) :=
      hcomes rfl
    have hsigned : Signed ['x', '+', '1'] ['x', '0', '1'] :=
      .two (fun c hc => ⟨1, hexValue?_eq_some_iff.1 (by rw [List.mem_singleton.1 hc]; rfl)⟩) rfl
    have hspelling : List.Forall₂ (Spelling '"') ['\x01'] [['\\', 'x', '0', '1']] :=
      .cons (.two hone rfl) .nil
    have hzero : Scan.lexeme '"' ['\\', 'x', '0', '1', '"'] = .ok ⟨.string, "\x01", 5⟩ := by
      rw [Scan.lexeme_quote hquote]
      exact congrArg _ (literalBody_spellings hquote hspelling [])
    have hplus : Scan.lexeme '"' (['\\', 'x', '+', '1'] ++ ['"']) = .ok ⟨.string, "\x01", 5⟩ :=
      ((scan_malformed hquote .nil hcomes (hlacks rfl _)).2 _ _ ['"'] hsigned rfl _).2 hzero
    have hscan := scanFrom_literal hquote hplus 0
    rw [scanFrom_nil] at hscan
    exact hscan

end Token

end DebugGuard
