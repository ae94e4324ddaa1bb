import DebugGuard.Proofs.Script.ByteTrivia
import DebugGuard.Proofs.Text.Hexadecimal

/-!
# String literals in bytes

The digits of an escape are cut out of the text by counting bytes, so a cut may come to lie within a
character.  Then it is no numeral, and neither are the characters that stand there: a numeral has
characters of one byte only (`isAscii_of_hexNumeral?`).

Main statement: `ByteScan.string_runs`.
-/

namespace DebugGuard.ByteScan

open Text

variable {source : String} {cs r : List Char} {c : Char} {pos next start count code : Nat}

/-! ### Digits -/

theorem isAscii_of_isHex (h : Escape.IsHex c) : IsAscii c := by
  obtain ⟨v, hv, rfl | rfl⟩ := h <;> interval_cases v <;> decide

theorem isAscii_of_hexNumeral? (h : Escape.hexNumeral? cs = some code) :
    ∀ c ∈ cs, IsAscii c := by
  intro c hc
  rcases (Escape.hexNumeral?_eq_some_iff.1 h).1.mem c hc with hc | rfl
  · exact isAscii_of_isHex hc
  · decide

theorem fixedHex_eq_ok : Escape.fixedHex count cs = .ok code ↔
    count ≤ cs.length ∧ Escape.hexNumeral? (cs.take count) = some code := by
  unfold Escape.fixedHex
  split
  · simp; omega
  · cases h : Escape.hexNumeral? (cs.take count) <;> simp; omega

theorem fixedHex_eq_error {e : Fault} (h : Escape.fixedHex count cs = .error e) :
    e = .hexDigits := by
  unfold Escape.fixedHex at h
  split_ifs at h
  · exact (Except.error.inj h).symm
  · split at h
    · cases h
    · exact (Except.error.inj h).symm

theorem byteSize_of_fixedHex (h : Escape.fixedHex count cs = .ok code) :
    byteSize (cs.take count) = count := by
  obtain ⟨hle, hcode⟩ := fixedHex_eq_ok.1 h
  rw [byteSize_of_isAscii (isAscii_of_hexNumeral? hcode), List.length_take_of_le hle]

/-- Bytes that spell a numeral are characters. -/
theorem fixedHex_runs (h : Stands source pos cs) :
    Runs (fixedHex source start count pos) (located start (Escape.fixedHex count cs)) := by
  unfold fixedHex
  cases hcode : (slice? source pos (pos + count)).bind fun digits =>
      Escape.hexNumeral? digits.toList with
  | some code =>
    -- the slice has whole characters, and those of a numeral are one byte each
    obtain ⟨digits, hdigits, hcode⟩ := Option.bind_eq_some_iff.1 hcode
    obtain ⟨rest, rfl, hsize⟩ := h.of_slice? hdigits
    rw [byteSize_of_isAscii (isAscii_of_hexNumeral? hcode)] at hsize
    have hfixed : Escape.fixedHex count (digits.toList ++ rest) = .ok code :=
      fixedHex_eq_ok.2 ⟨by simp [← hsize], by rwa [← hsize, List.take_left]⟩
    rw [hfixed]
    exact Runs.pure _
  | none =>
    cases hfixed : Escape.fixedHex count cs with
    | ok code =>
      -- the characters of the numeral are a slice
      have hsplit : cs.take count ++ cs.drop count = cs := List.take_append_drop ..
      rw [← hsplit] at h
      have hslice := h.slice?_eq
      rw [byteSize_of_fixedHex hfixed] at hslice
      rw [hslice, Option.bind_some, String.toList_ofList, (fixedHex_eq_ok.1 hfixed).2] at hcode
      cases hcode
    | error e =>
      rw [fixedHex_eq_error hfixed]
      exact Runs.throw _

/-- The characters in front of the first closing brace, if there is one. -/
theorem exists_closed (h : (r.takeWhile (· != '\x7d')).length ≠ r.length) :
    ∃ rest, r = r.takeWhile (· != '\x7d') ++ '\x7d' :: rest := by
  have hsplit : r.takeWhile (· != '\x7d') ++ r.dropWhile (· != '\x7d') = r :=
    List.takeWhile_append_dropWhile
  have hend := List.head?_dropWhile_not (· != '\x7d') r
  cases hrest : r.dropWhile (· != '\x7d') with
  | nil =>
    rw [hrest, List.append_nil] at hsplit
    exact absurd (congrArg List.length hsplit) h
  | cons c rest =>
    rw [hrest] at hsplit hend
    obtain rfl : c = '\x7d' := by simpa using hend
    exact ⟨rest, hsplit.symm⟩

theorem offsetOf?_brace (r : List Char) : offsetOf? (· == '\x7d') r =
    if (r.takeWhile (· != '\x7d')).length = r.length then none
    else some (byteSize (r.takeWhile (· != '\x7d'))) := by
  rw [offsetOf?_eq]
  split_ifs with hany hlen hlen
  · have hall := (List.takeWhile_prefix (· != '\x7d')).eq_of_length hlen
    rw [List.takeWhile_eq_self_iff] at hall
    obtain ⟨c, hc, hbrace⟩ := List.any_eq_true.1 hany
    exact absurd (beq_iff_eq.1 hbrace) (bne_iff_ne.1 (hall c hc))
  · rfl
  · rfl
  · obtain ⟨rest, heq⟩ := exists_closed hlen
    rw [heq] at hany
    simp at hany

/-- Digits between braces. -/
theorem codeUnit_braced (h : Stands source pos ('\x7b' :: r)) :
    Runs (codeUnit source start pos)
      ((located start (Escape.codeUnit ('\x7b' :: r))).map fun (code, n) =>
        (code, pos + byteSize (('\x7b' :: r).take n))) := by
  have hr : Stands source (pos + 1) r := h.cons
  unfold codeUnit
  refine Runs.lift (textFrom?_eq h) ?_
  rw [String.toList_ofList, List.head?_cons, if_pos rfl, Escape.codeUnit]
  refine Runs.lift (textFrom?_eq hr) ?_
  rw [String.toList_ofList, offsetOf?_brace]
  dsimp only
  by_cases hlen : (r.takeWhile (· != '\x7d')).length = r.length
  · rw [if_pos hlen, if_pos hlen]
    exact Runs.throw _
  rw [if_neg hlen, if_neg hlen]
  obtain ⟨rest, heq⟩ := exists_closed hlen
  generalize r.takeWhile (· != '\x7d') = digits at heq ⊢
  subst heq
  refine Runs.lift hr.slice?_eq ?_
  rw [String.toList_ofList]
  cases hcode : Escape.hexNumeral? digits with
  | none => exact Runs.throw _
  | some code =>
    dsimp only
    by_cases hrange : code > 0x10FFFF
    · rw [if_pos hrange, if_pos hrange]
      exact Runs.throw _
    · have htake : ('\x7b' :: (digits ++ '\x7d' :: rest)).take (digits.length + 2) =
          '\x7b' :: (digits ++ ['\x7d']) := by
        rw [List.take_succ_cons, List.take_length_add_append]
        rfl
      have hsize : byteSize ('\x7b' :: (digits ++ ['\x7d'])) = 1 + byteSize digits + 1 := by
        rw [byteSize_cons, byteSize_append, ← Nat.add_assoc]
        rfl
      rw [if_neg hrange, if_neg hrange]
      change Runs _ (.ok (code, pos + byteSize _))
      rw [htake, hsize, ← Nat.add_assoc, ← Nat.add_assoc]
      exact Runs.pure _

theorem codeUnit_runs (h : Stands source pos cs) : Runs (codeUnit source start pos)
    ((located start (Escape.codeUnit cs)).map fun (code, n) =>
      (code, pos + byteSize (cs.take n))) := by
  by_cases hbrace : cs.head? = some '\x7b'
  · obtain ⟨r, rfl⟩ := List.head?_eq_some_iff.1 hbrace
    exact codeUnit_braced h
  · have hunit : Escape.codeUnit cs = Escape.fixedHex 4 cs >>= fun code => .ok (code, 4) := by
      unfold Escape.codeUnit
      split
      · exact absurd rfl hbrace
      · rfl
    unfold codeUnit
    refine Runs.lift (textFrom?_eq h) ?_
    rw [String.toList_ofList, if_neg hbrace, hunit, located_bind_map]
    refine (fixedHex_runs h).bind fun code hcode => ?_
    change Runs _ (.ok (code, pos + byteSize (cs.take 4)))
    rw [byteSize_of_fixedHex (located_eq_ok.1 hcode)]
    exact Runs.pure _

/-! ### Escapes -/

theorem scalar_runs (start code : Nat) :
    Runs (scalar start code) (located start (Escape.scalar code)) := by
  unfold scalar Escape.scalar
  split <;> rfl

theorem scalar_of_isHighSurrogate (h : Escape.isHighSurrogate code = true) :
    Escape.scalar code = .error .loneSurrogate := by
  simp only [Escape.isHighSurrogate, Bool.and_eq_true, decide_eq_true_eq] at h
  exact if_neg fun hvalid => by
    rcases hvalid with hvalid | hvalid <;> omega

theorem byteSize_take_add (cs : List Char) (m n : Nat) :
    byteSize (cs.take (m + n)) = byteSize (cs.take m) + byteSize ((cs.drop m).take n) := by
  rw [List.take_add, byteSize_append]

/-- A character and the offset behind its escape, which is `m` characters long. -/
theorem scalar_pair {m : Nat} (hnext : next = pos + byteSize (cs.take m)) :
    Runs (do return (← scalar start code, next))
      ((located start (do return (← Escape.scalar code, m))).map fun (c, n) =>
        (c, pos + byteSize (cs.take n))) := by
  subst hnext
  rw [located_bind_map]
  exact (scalar_runs ..).bind fun c _ => Runs.pure _

theorem unicode_runs (h : Stands source pos cs) : Runs (unicode source start pos)
    ((located start (Escape.unicode cs)).map fun (c, n) => (c, pos + byteSize (cs.take n))) := by
  unfold unicode Escape.unicode
  rw [located_bind_map]
  refine (codeUnit_runs h).bind_map fun unit _ => ?_
  obtain ⟨code, used⟩ := unit
  dsimp only
  by_cases hhigh : Escape.isHighSurrogate code = true
  case neg =>
    rw [if_neg hhigh, if_neg hhigh]
    exact scalar_pair rfl
  rw [if_pos hhigh, if_pos hhigh]
  -- wherever the other half is missing, the same fault is reported
  have hlone {next : Nat} : Runs (do return (← scalar start code, next) : Steps (Char × Nat))
      (.error ⟨.loneSurrogate, start⟩) := by
    have hscalar := scalar_runs start code
    rw [scalar_of_isHighSurrogate hhigh] at hscalar
    exact hscalar.bind_error
  have hnext := h.drop used
  refine Runs.lift (textFrom?_eq hnext) ?_
  rw [String.toList_ofList]
  cases hescape : ['\\', 'u'].isPrefixOf (cs.drop used) with
  | false =>
    rw [if_neg Bool.false_ne_true]
    split
    next r hr =>
      rw [hr] at hescape
      cases hescape
    next => exact hlone
  | true =>
    obtain ⟨r, hr⟩ := List.isPrefixOf_iff_prefix.1 hescape
    have hr : cs.drop used = '\\' :: 'u' :: r := hr.symm
    rw [hr] at hnext ⊢
    have hlow : Stands source (pos + byteSize (cs.take used) + 2) r := hnext.cons.cons
    rw [if_pos rfl]
    change Runs _ ((located start (Escape.codeUnit r >>= _)).map _)
    rw [located_bind_map]
    refine (codeUnit_runs hlow).bind_map fun unit _ => ?_
    obtain ⟨low, more⟩ := unit
    dsimp only
    by_cases hpair : Escape.isLowSurrogate low = true
    · have hsize : byteSize (('\\' :: 'u' :: r).take (2 + more)) = 2 + byteSize (r.take more) := by
        rw [Nat.add_comm 2 more]
        exact (Nat.add_assoc 1 1 _).symm
      rw [if_pos hpair, if_pos hpair]
      refine scalar_pair ?_
      rw [Nat.add_assoc used, byteSize_take_add, hr, hsize]
      omega
    · rw [if_neg hpair, if_neg hpair]
      exact hlone

theorem escape_runs (h : Stands source pos cs) : Runs (escape source start pos)
    ((located start (Escape.spelled cs)).map fun (value, n) =>
      (value, pos + byteSize (cs.take n))) := by
  unfold escape
  refine Runs.lift (textFrom?_eq h) ?_
  rw [String.toList_ofList]
  cases cs with
  | nil => exact Runs.throw _
  | cons c r =>
    have hr := h.cons
    rw [Escape.spelled]
    dsimp only
    by_cases hfeed : c = '\n'
    · rw [if_pos hfeed, if_pos hfeed]
      exact Runs.pure _
    rw [if_neg hfeed, if_neg hfeed]
    by_cases hx : c = 'x'
    · rw [if_pos hx, if_pos hx, located_bind_map]
      refine (fixedHex_runs hr).bind fun code hcode => ?_
      rw [located_bind_map]
      refine (scalar_runs ..).bind fun d _ => ?_
      change Runs _ (.ok ([d], pos + (c.utf8Size + byteSize (r.take 2))))
      rw [byteSize_of_fixedHex (located_eq_ok.1 hcode), ← Nat.add_assoc]
      exact Runs.pure _
    rw [if_neg hx, if_neg hx]
    by_cases hu : c = 'u'
    · rw [if_pos hu, if_pos hu, located_bind_map]
      refine (unicode_runs hr).bind_map fun spelled _ => ?_
      obtain ⟨d, used⟩ := spelled
      change Runs _ (.ok ([d], pos + (c.utf8Size + byteSize (r.take used))))
      rw [← Nat.add_assoc]
      exact Runs.pure _
    · rw [if_neg hu, if_neg hu]
      exact Runs.pure _

/-! ### Literals -/

variable {quote : Char}

theorem stringTurn_nil (h : Stands source pos []) :
    Runs (stringTurn source quote start pos) (.error ⟨.openString, start⟩) := by
  unfold stringTurn
  refine Runs.lift (textFrom?_eq h) ?_
  rw [String.toList_ofList]
  exact Runs.throw _

theorem stringTurn_cons (quote : Char) (start : Nat) (h : Stands source pos (c :: r)) :
    Runs (stringTurn source quote start pos)
      (if c = '\n' then .error ⟨.openString, start⟩
      else if c = quote then .ok ([], pos + c.utf8Size, true)
      else if c = '\\' then
        (located start (Escape.spelled r)).map fun (value, n) =>
          (value, pos + c.utf8Size + byteSize (r.take n), false)
      else .ok ([c], pos + c.utf8Size, false)) := by
  unfold stringTurn
  refine Runs.lift (textFrom?_eq h) ?_
  rw [String.toList_ofList]
  dsimp only
  split_ifs
  · exact Runs.throw _
  · exact Runs.pure _
  · exact (escape_runs h.cons).map_map fun _ => Runs.pure _
  · exact Runs.pure _

theorem string_error {e : SourceError}
    (h : Runs (stringTurn source quote start pos) (.error e)) :
    Runs (string source quote start pos) (.error e) := by
  unfold string
  exact h.bind_error

/-- A turn spells `value` by the first `k` characters, and the turns behind it spell what is told
by `x`. -/
theorem string_turn {value : List Char} {x : Except Fault (List Char × Nat)} (k : Nat)
    (total : Nat → Nat)
    (hturn : Runs (stringTurn source quote start pos)
      (.ok (value, pos + byteSize (cs.take k), false)))
    (hne : cs.take k ≠ []) (h : Stands source pos cs) (htotal : ∀ m, total m = k + m)
    (hrest : Runs (string source quote start (pos + byteSize (cs.take k)))
      ((located start x).map fun (more, m) =>
        (more, pos + byteSize (cs.take k) + byteSize ((cs.drop k).take m)))) :
    Runs (string source quote start pos)
      ((located start (x >>= fun (more, m) => .ok (value ++ more, total m))).map
        fun (value, m) => (value, pos + byteSize (cs.take m))) := by
  unfold string
  refine hturn.bind_ok ?_
  dsimp only
  rw [if_pos (getsAhead_of_stands (Nat.lt_add_of_pos_right (byteSize_pos hne)) (h.drop k)),
    located_bind_map]
  refine hrest.bind_map fun tail _ => ?_
  obtain ⟨more, m⟩ := tail
  change Runs _ (.ok (value ++ more, pos + byteSize (cs.take (total m))))
  rw [htotal, byteSize_take_add, ← Nat.add_assoc]
  exact Runs.pure _

theorem string_runs (quote : Char) (start : Nat) (h : Stands source pos cs) :
    Runs (string source quote start pos)
      ((located start (Escape.literalBody quote cs)).map fun (value, n) =>
        (value, pos + byteSize (cs.take n))) := by
  fun_induction Escape.literalBody quote cs generalizing pos with
  | case1 => exact string_error (stringTurn_nil h)
  | case2 => exact string_error (stringTurn_cons _ _ h)
  | case3 r hquote =>
    have hturn := stringTurn_cons quote start h
    rw [if_neg hquote, if_pos rfl] at hturn
    unfold string
    exact hturn.bind_ok (Runs.pure _)
  | case4 r hfeed hquote ih =>
    have hturn := stringTurn_cons quote start h
    rw [if_neg hfeed, if_neg hquote, if_pos rfl] at hturn
    cases hspelled : Escape.spelled r with
    | error e =>
      rw [hspelled] at hturn
      exact string_error hturn
    | ok a =>
      obtain ⟨value, used⟩ := a
      rw [hspelled] at hturn
      have htake : ('\\' :: r).take (1 + used) = '\\' :: r.take used := by
        rw [Nat.add_comm, List.take_succ_cons]
      have hdrop : ('\\' :: r).drop (1 + used) = r.drop used := by
        rw [Nat.add_comm, List.drop_succ_cons]
      refine string_turn (1 + used) (1 + used + ·) ?_ (by simp [htake]) h (fun _ => rfl) ?_
      · rw [htake, byteSize_cons, ← Nat.add_assoc]
        exact hturn
      · have hnext := h.drop (1 + used)
        rw [hdrop] at hnext ⊢
        exact ih used hnext
  | case5 c r hfeed hquote hescape ih =>
    have hturn := stringTurn_cons quote start h
    rw [if_neg hfeed, if_neg hquote, if_neg hescape] at hturn
    exact string_turn 1 (· + 1) hturn (by simp) h (fun m => Nat.add_comm m 1) (ih (h.drop 1))

end DebugGuard.ByteScan
