import DebugGuard.Proofs.Script.ByteString

/-!
# The scanner on bytes does not fail

Every cut of `Token.scanBytes` comes to lie between two characters of the text, and every turn of
its loops gets ahead.  So it always gives a result, and that is the result of `Token.scan`.

Main statement: `Token.scanBytes_eq`.
-/

namespace DebugGuard

open Text

namespace ByteScan

variable {source : String} {cs r : List Char} {c : Char} {p : Char → Bool} {pos start : Nat}
  {broken : Bool}

/-! ### Numerals -/

theorem isAscii_of_isDigit (c : Char) (h : c.isDigit = true) : IsAscii c := by
  simp only [Char.isDigit, Bool.and_eq_true, decide_eq_true_eq] at h
  exact Nat.lt_of_le_of_lt (UInt32.le_iff_toNat_le.1 h.2) (by decide)

theorem isAscii_of_isWholeDigit (c : Char) (h : (c.isDigit || c == '_') = true) : IsAscii c := by
  rcases Bool.or_eq_true_iff.1 h with h | h
  · exact isAscii_of_isDigit c h
  · rw [beq_iff_eq.1 h]
    decide

theorem isAscii_of_isBasedDigit (c : Char) (h : Scan.isBasedDigit c = true) : IsAscii c := by
  rcases Bool.or_eq_true_iff.1 h with h | h
  · obtain ⟨v, hv⟩ := Option.isSome_iff_exists.1 h
    exact isAscii_of_isHex ⟨v, Escape.hexDigit_of_hexValue? hv⟩
  · rw [beq_iff_eq.1 h]
    decide

theorem isAscii_of_beq_or {a b : Char} (ha : IsAscii a) (hb : IsAscii b) (c : Char)
    (h : (c == a || c == b) = true) : IsAscii c := by
  rcases Bool.or_eq_true_iff.1 h with h | h
  · exact beq_iff_eq.1 h ▸ ha
  · exact beq_iff_eq.1 h ▸ hb

theorem isAscii_of_base (c : Char) (h : ['x', 'X', 'b', 'B', 'o', 'O'].contains c = true) :
    IsAscii c := by
  simp only [List.contains_eq_mem, List.mem_cons, List.not_mem_nil, or_false,
    decide_eq_true_eq] at h
  rcases h with rfl | rfl | rfl | rfl | rfl | rfl <;> decide

theorem stands_skip (hp : ∀ c, p c = true → IsAscii c) (h : Stands source pos cs) :
    Stands source (skip source p pos) (cs.drop (cs.takeWhile p).length) := by
  have hdrop := h.drop (cs.takeWhile p).length
  have htake := List.prefix_iff_eq_take.1 (List.takeWhile_prefix (l := cs) p)
  rw [← htake, byteSize_of_isAscii fun c hc => hp c (List.mem_takeWhile_imp hc)] at hdrop
  rwa [skip_eq hp h]

theorem exponentStop_stands (h : Stands source pos cs) :
    Stands source (exponentStop source pos) (cs.drop (Scan.exponentLength cs)) := by
  unfold exponentStop
  rw [isAt_eq (isAscii_of_beq_or (by decide) (by decide)) h]
  cases cs with
  | nil => exact h
  | cons e r =>
    by_cases he : e = 'e' ∨ e = 'E'
    case neg =>
      rw [if_neg (by simpa using he), Scan.exponentLength.eq_def]
      dsimp only
      rw [if_neg he]
      exact h
    have hr : Stands source (pos + 1) r := by rcases he with rfl | rfl <;> exact h.cons
    rw [if_pos (by simpa using he), Scan.exponentLength_cons he,
      isAt_eq (isAscii_of_beq_or (by decide) (by decide)) hr]
    -- the digits stand behind the sign, if there is one
    have hsign : Stands source (if r.head?.any (fun c => c == '+' || c == '-') then pos + 2
        else pos + 1) (r.drop (Scan.signLength r)) := by
      cases r with
      | nil => exact hr
      | cons s r =>
        by_cases hs : s = '+' ∨ s = '-'
        · rw [if_pos (by simpa using hs), Scan.signLength, if_pos hs]
          rcases hs with rfl | rfl <;> exact hr.cons
        · rw [if_neg (by simpa using hs), Scan.signLength, if_neg hs]
          exact hr
    dsimp only
    -- without a digit there is no exponent, and the numeral ends in front of the mark
    generalize (if r.head?.any (fun c => c == '+' || c == '-') then pos + 2 else pos + 1) =
      digits at hsign ⊢
    have hskip := stands_skip isAscii_of_isDigit hsign
    rw [isAt_eq isAscii_of_isDigit hsign]
    cases hdigits : r.drop (Scan.signLength r) with
    | nil => exact h
    | cons d ds =>
      rw [hdigits] at hskip
      cases hd : d.isDigit with
      | false =>
        rw [List.head?_cons, Option.any_some, hd, if_neg Bool.false_ne_true, List.takeWhile_cons,
          hd, if_neg Bool.false_ne_true]
        exact h
      | true =>
        rw [List.head?_cons, Option.any_some, hd, if_pos rfl, List.takeWhile_cons, hd, if_pos rfl]
        rw [List.takeWhile_cons, hd, if_pos rfl, ← hdigits, List.drop_drop] at hskip
        have hdrop : 1 + Scan.signLength r + (d :: ds.takeWhile Char.isDigit).length =
            Scan.signLength r + (d :: ds.takeWhile Char.isDigit).length + 1 := by omega
        change Stands _ _ (List.drop (1 + Scan.signLength r +
          (d :: ds.takeWhile Char.isDigit).length) _)
        rwa [hdrop, List.drop_succ_cons]

theorem fraction_stands (h : Stands source pos cs) :
    Stands source (if isAt source (· == '.') pos then skip source Char.isDigit (pos + 1) else pos)
      (cs.drop (Scan.fractionLength cs)) := by
  rw [isAt_char (by decide) h]
  cases cs with
  | nil => exact h
  | cons c r =>
    by_cases hc : c = '.'
    · subst hc
      have hr : Stands source (pos + 1) r := h.cons
      change Stands _ _ (List.drop (1 + (r.takeWhile Char.isDigit).length) ('.' :: r))
      rw [List.head?_cons, if_pos (by decide), Nat.add_comm 1 (List.length _),
        List.drop_succ_cons]
      exact stands_skip isAscii_of_isDigit hr
    · have hzero : Scan.fractionLength (c :: r) = 0 := by simp [Scan.fractionLength, hc]
      rw [if_neg (by simpa using hc), hzero]
      exact h

/-- No mark of a base stands behind a zero. -/
theorem isAt_base (h : Stands source pos cs)
    (hdec : ∀ c r, cs = '0' :: c :: r → c ∉ ['x', 'X', 'b', 'B', 'o', 'O']) :
    (isAt source (· == '0') pos &&
      isAt source (['x', 'X', 'b', 'B', 'o', 'O'].contains ·) (pos + 1)) = false := by
  rw [isAt_char (by decide) h]
  cases cs with
  | nil => rfl
  | cons c r =>
    rw [Bool.and_eq_false_imp]
    intro hzero
    obtain rfl : c = '0' := by simpa using hzero
    rw [isAt_eq isAscii_of_base (show Stands source (pos + 1) r from h.cons)]
    cases r with
    | nil => rfl
    | cons d r => exact Bool.eq_false_iff.2 fun hd => hdec d r rfl (List.contains_iff_mem.1 hd)

theorem numeralStop_stands (h : Stands source pos cs) :
    Stands source (numeralStop source pos) (cs.drop (Scan.numeralLength cs)) := by
  unfold numeralStop
  rcases Scan.numeralLength_cases cs with ⟨c, r, rfl, hc⟩ | hdec
  · have hr : Stands source (pos + 1) (c :: r) := h.cons
    have hc' : ['x', 'X', 'b', 'B', 'o', 'O'].contains c = true := List.contains_iff_mem.2 hc
    have hascii : c.utf8Size = 1 := utf8Size_of_isAscii (isAscii_of_base c hc')
    have hrest := hr.cons
    rw [hascii] at hrest
    have hbase : (isAt source (· == '0') pos &&
        isAt source (['x', 'X', 'b', 'B', 'o', 'O'].contains ·) (pos + 1)) = true := by
      rw [isAt_char (by decide) h, isAt_eq isAscii_of_base hr]
      exact hc'
    rw [if_pos hbase, Scan.numeralLength_of_base hc, Nat.add_comm 2 (List.length _),
      List.drop_succ_cons, List.drop_succ_cons]
    exact stands_skip isAscii_of_isBasedDigit hrest
  · rw [isAt_base h hdec, if_neg Bool.false_ne_true, Scan.numeralLength_of_decimal hdec]
    have hfraction := fraction_stands (stands_skip isAscii_of_isWholeDigit h)
    rw [List.drop_drop] at hfraction
    have hexponent := exponentStop_stands hfraction
    rw [List.drop_drop] at hexponent
    exact hexponent

/-! ### Tokens -/

theorem isAt_quote (h : Stands source pos (c :: r)) :
    isAt source (fun c => c == '"' || c == '\x27') pos = decide (c = '"' ∨ c = '\x27') := by
  rw [isAt_eq (isAscii_of_beq_or (by decide) (by decide)) h, List.head?_cons, Option.any_some,
    Bool.decide_or]
  rfl

theorem isAt_startsNumeral (h : Stands source pos (c :: r)) :
    (isAt source Char.isDigit pos ||
      isAt source (· == '.') pos && isAt source Char.isDigit (pos + 1)) =
      Scan.startsNumeral c r := by
  rw [isAt_eq isAscii_of_isDigit h, isAt_char (by decide) h, List.head?_cons, Option.any_some,
    Option.any_some, Scan.startsNumeral]
  by_cases hc : c = '.'
  · subst hc
    rw [isAt_eq isAscii_of_isDigit (show Stands source (pos + 1) r from h.cons)]
  · rw [beq_eq_false_iff_ne.2 hc, Bool.false_and, Bool.false_and]

/-- The offset behind a numeral is told by its length. -/
theorem numeralStop_eq (h : Stands source pos cs) :
    numeralStop source pos = pos + byteSize (cs.take (Scan.numeralLength cs)) := by
  have hstop := (numeralStop_stands h).size_eq
  have hdrop := (h.drop (Scan.numeralLength cs)).size_eq
  omega

/-- A name ends in front of the first character that is not part of one. -/
theorem offsetOf?_name (cs : List Char) :
    (offsetOf? (!Scan.isNamePart ·) cs).getD (String.ofList cs).utf8ByteSize =
      byteSize (cs.takeWhile Scan.isNamePart) := by
  rw [offsetOf?_eq]
  simp only [Bool.not_not]
  split_ifs with hany
  · rfl
  · have hall : cs.takeWhile Scan.isNamePart = cs :=
      List.takeWhile_eq_self_iff.2 fun c hc => by_contra fun hc' =>
        hany (List.any_eq_true.2 ⟨c, hc, by simpa using hc'⟩)
    rw [hall, Option.getD_none, utf8ByteSize_eq, String.toList_ofList]

theorem isNamePart_of_isNameStart (h : Scan.isNameStart c = true) : Scan.isNamePart c = true := by
  rw [Scan.isNamePart, Bool.or_eq_true]
  exact .inl h

theorem token_nil (h : Stands source start []) :
    Runs (token source start broken) (.ok (⟨.endOfFile, "", start, broken⟩, start)) := by
  unfold token
  rw [isNone_byte? h]
  exact Runs.pure _

theorem token_runs (broken : Bool) (h : Stands source start (c :: r)) :
    Runs (token source start broken)
    ((located start (Scan.lexeme c r)).map fun l =>
      (⟨l.kind, l.text, start, broken⟩, start + byteSize (c :: r.take l.more))) := by
  unfold token Scan.lexeme
  rw [isNone_byte? h, isAt_quote h, isAt_startsNumeral h, List.isEmpty_cons,
    if_neg Bool.false_ne_true]
  by_cases hquote : c = '"' ∨ c = '\x27'
  · rw [decide_eq_true hquote, if_pos rfl, if_pos hquote, isAt_char (by decide) h]
    have hsize : c.utf8Size = 1 := by rcases hquote with rfl | rfl <;> rfl
    have hc : (if (c :: r).head?.any (· == '"') then '"' else '\x27') = c := by
      rcases hquote with rfl | rfl <;> rfl
    have hr := h.cons
    rw [hsize] at hr
    dsimp only
    rw [hc, located_map_map]
    refine (string_runs c start hr).map_map fun body => ?_
    obtain ⟨value, n⟩ := body
    change Runs _ (.ok (_, start + (c.utf8Size + byteSize (r.take n))))
    rw [hsize, ← Nat.add_assoc]
    exact Runs.pure _
  rw [decide_eq_false hquote, if_neg Bool.false_ne_true, if_neg hquote]
  by_cases hnumeral : Scan.startsNumeral c r = true
  · rw [if_pos hnumeral, if_pos hnumeral, numeralStop_eq h]
    obtain ⟨n, hn⟩ : ∃ n, Scan.numeralLength (c :: r) = n + 1 :=
      Nat.exists_eq_add_of_le' (Scan.lt_numeralLength hnumeral).1
    have hslice : Stands source start ((c :: r).take (n + 1) ++ (c :: r).drop (n + 1)) := by
      rwa [List.take_append_drop]
    dsimp only
    rw [hn]
    exact Runs.lift hslice.slice?_eq (Runs.pure _)
  rw [if_neg hnumeral, if_neg hnumeral]
  refine Runs.lift (textFrom?_eq h) ?_
  rw [String.toList_ofList, List.head?_cons, Option.any_some]
  by_cases hname : Scan.isNameStart c = true
  · rw [if_pos hname, if_pos hname]
    have hcut : String.toList (.ofList (c :: r)) =
        [] ++ (c :: r.takeWhile Scan.isNamePart) ++ r.dropWhile Scan.isNamePart := by
      simp
    have hslice := slice?_of_split hcut
    have htake : r.take (r.takeWhile Scan.isNamePart).length = r.takeWhile Scan.isNamePart :=
      (List.prefix_iff_eq_take.1 (List.takeWhile_prefix _)).symm
    rw [byteSize_nil, Nat.zero_add] at hslice
    rw [offsetOf?_name, List.takeWhile_cons, if_pos (isNamePart_of_isNameStart hname)]
    refine Runs.lift hslice ?_
    change Runs _ (.ok (_, start + byteSize (c :: r.take (r.takeWhile Scan.isNamePart).length)))
    rw [htake]
    exact Runs.pure _
  rw [if_neg hname, if_neg hname]
  cases hmark : Scan.mark? (c :: r) with
  | none => exact Runs.throw _
  | some m =>
    obtain ⟨⟨rest, hrest⟩, hne⟩ := Scan.mark?_eq_some hmark
    obtain ⟨d, tail, htail⟩ := List.exists_cons_of_ne_nil hne
    rw [htail] at hrest
    obtain ⟨rfl, rfl⟩ := List.cons.inj hrest
    have hmore : m.length - 1 = tail.length := by simp [← String.length_toList, htail]
    change Runs _ (.ok (_, start + byteSize (d :: List.take (m.length - 1) (tail ++ rest))))
    rw [hmore, List.take_left, ← htail, ← utf8ByteSize_eq]
    exact Runs.pure _

/-- No step fails, and the tokens are those of the characters. -/
theorem tokens_runs (h : Stands source pos cs) :
    Runs (tokens source pos) (Token.scanFrom pos cs) := by
  -- a token takes at least one character, so the induction is on how many are left
  induction hlen : cs.length using Nat.strongRecOn generalizing pos cs with
  | ind len ih =>
  rw [Token.scanFrom_eq_scanAfter, Token.scanAfter]
  unfold tokens
  refine (trivia_runs false h).bind_map fun skipped _ => ?_
  obtain ⟨n, broken⟩ := skipped
  have hstart := h.drop n
  dsimp only
  cases hcs : cs.drop n with
  | nil =>
    rw [hcs] at hstart
    exact (token_nil hstart).bind_ok (Runs.pure _)
  | cons c r =>
    rw [hcs] at hstart
    have htoken := token_runs broken hstart
    unfold Token.cut
    dsimp only
    cases hl : Scan.lexeme c r with
    | error fault =>
      rw [hl] at htoken
      exact htoken.bind_error
    | ok l =>
      rw [hl] at htoken
      refine htoken.bind_ok ?_
      have hend : l.kind ≠ .endOfFile := (Scan.valid_of_lexeme hl).kind_ne
      have hnext := hstart.drop (l.more + 1)
      rw [List.take_succ_cons, List.drop_succ_cons] at hnext
      have hahead : pos < pos + byteSize (cs.take n) + byteSize (c :: r.take l.more) := by
        have := byteSize_pos (List.cons_ne_nil c (r.take l.more))
        omega
      have hlt : (r.drop l.more).length < len := by
        have := congrArg List.length hcs
        simp only [List.length_drop, List.length_cons] at this ⊢
        omega
      dsimp only
      rw [Token.isEnd, decide_eq_false hend, if_neg Bool.false_ne_true,
        if_pos (getsAhead_of_stands hahead hnext)]
      exact (ih _ hlt hnext rfl).map fun _ => Runs.pure _

end ByteScan

/-- The scanner on bytes never fails, whatever the text.  It gives the tokens, or reports the fault,
that `Token.scan` finds among the characters. -/
theorem Token.scanBytes_eq (source : String) :
    (Token.scanBytes source).run = some (Token.scan source) :=
  ByteScan.tokens_runs (stands_zero source)

end DebugGuard
