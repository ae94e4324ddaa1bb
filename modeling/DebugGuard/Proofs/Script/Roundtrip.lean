import DebugGuard.Proofs.Script.Glue
import DebugGuard.Proofs.Script.Scanned

/-!
# Parsing a printed parse

Main statements:

* `parse_sound`: what is parsed consists of statements that fit, and its numerals are those of the
  source text, in their order;
* `parse_renderScript`: a parsed script is printed and parsed again without any change but that of
  positions, if it accesses no member of a plain number (`Tree.joins`);
* `bare_ne_of_joins`: if it does, it never comes back.
-/

namespace DebugGuard

open Cursor Grammar Piece Text

namespace Grammar

theorem script_sound {ts : List Token} {body : List Tree} (hts : Scanned ts)
    (h : script ts = .ok body) : (∀ t ∈ body, Tree.Fits .statement t) ∧
      ∃ r, Reads ts (body.flatMap Tree.numerals) r ∧ atEnd r = true := by
  induction body generalizing ts with
  | nil =>
    rcases script_eq_ok.1 h with ⟨hend, -⟩ | ⟨-, e, s, -, more, -, heq⟩
    · exact ⟨by simp, ts, .refl ts, hend⟩
    · cases heq
  | cons t body ih =>
    rcases script_eq_ok.1 h with ⟨-, heq⟩ | ⟨-, e, s, he, more, hmore, heq⟩
    · cases heq
    cases heq
    have hs := (soundBelow (ts.length + 1)).statement (Nat.lt_succ_self _) hts he
    obtain ⟨hfits, r, hr, hend⟩ := ih (hs.reads.scanned hts) hmore
    refine ⟨fun x hx => ?_, r, by simpa using hs.reads.trans hr, hend⟩
    rcases List.mem_cons.1 hx with rfl | hx
    · exact hs.fits
    · exact hfits x hx

end Grammar

namespace Tree

/-- What is parsed fits, and has the numerals of the text. -/
theorem parse_sound {source : String} {t : Tree} (h : parse source = .ok t) :
    ∃ body ts, t = .node 0 (.program body) ∧ (∀ s ∈ body, Fits .statement s) ∧
      Token.scan source = .ok ts ∧ Cursor.numbers ts = body.flatMap numerals := by
  rw [parse] at h
  cases hscan : Token.scan source with
  | error e => rw [hscan] at h; cases h
  | ok ts =>
    rw [hscan] at h
    simp only [bind, Except.bind] at h
    cases hbody : script ts with
    | error e => rw [hbody] at h; cases h
    | ok body =>
      rw [hbody] at h
      cases h
      obtain ⟨ws, e, rfl, he, hws⟩ := Token.scan_sound hscan
      have hts := scanned_of_scan hscan
      obtain ⟨hfits, r, hr, hend⟩ := script_sound hts hbody
      refine ⟨body, _, rfl, hfits, rfl, ?_⟩
      -- the script ends at the end of file, behind which nothing is left
      have hrest : Cursor.numbers r = [] := by
        cases r with
        | nil => rfl
        | cons u r =>
          have hk : u.kind = .endOfFile := by simpa [atEnd, current, Token.isEnd] using hend
          obtain ⟨front, heq⟩ := hr.suffix
          cases r with
          | nil => simp [Cursor.numbers, hk]
          | cons v r =>
            exfalso
            have hmem : u ∈ ws := by
              have hlen := congrArg List.dropLast heq
              rw [List.dropLast_concat, List.dropLast_append_cons] at hlen
              rw [← hlen]
              simp
            have := hws u hmem
            rw [Token.word, hk] at this
            exact this
      rw [hr.numbers_eq, hrest, List.append_nil]

theorem numbers_tokens (ps : List Piece) (pos : Nat) (b : Bool) :
    Cursor.numbers (tokens pos b ps) = Piece.numbers ps := by
  induction ps generalizing pos b with
  | nil => rfl
  | cons p ps ih =>
    cases p with
    | word w =>
      by_cases hk : w.kind = .number
      · simpa [tokens, Piece.numbers, Cursor.numbers, hk] using ih _ _
      · simpa [tokens, Piece.numbers, Cursor.numbers, hk] using ih _ _
    | blanks n => exact ih _ _
    | lineFeed => exact ih _ _

theorem numerals_bare (t : Tree) : t.bare.numerals = t.numerals := by
  induction t using Tree.induct with
  | absent => rfl
  | dangling => rfl
  | node pos top ih =>
    rw [bare_node]
    by_cases hl : ∃ v, top = .literal v
    · obtain ⟨v, rfl⟩ := hl
      rw [numerals, numerals, fold_node, fold_node]
      rfl
    by_cases hp : ∃ key quoted v shorthand, top = .property key quoted v shorthand
    · obtain ⟨key, quoted, v, shorthand, rfl⟩ := hp
      rw [Node.map, numerals_property, numerals_property, ih v (by simp [Node.children])]
    · rw [numerals_node, numerals_node (fun v hv => hl ⟨v, hv⟩)
        (fun key quoted v shorthand hv => hp ⟨key, quoted, v, shorthand, hv⟩), Node.children_map,
        List.flatMap_map]
      · exact List.flatMap_congr ih
      · intro v hv
        refine hl ?_
        cases top <;> simp_all [Node.map]
      · intro key quoted v shorthand hv
        refine hp ?_
        cases top <;> simp_all [Node.map]

/-- The tokens of a printed script in which no member of a plain number is accessed. -/
theorem scan_renderScript {body : List Tree} (hf : ∀ s ∈ body, Fits .statement s)
    (hj : body.any joins = false) :
    ∃ e, Token.scan (renderScript (.node 0 (.program body))) =
      .ok (tokens 0 false (Render.lines 0 body) ++ [e]) ∧ e.kind = .endOfFile := by
  have hp := printed_script 0 hf
  have hloose : Loose (Render.lines 0 body) := by
    simpa using hp.loose [] trivial trivial
  have happart := apart_of_loose hloose (hp.glued_eq.trans hj)
  exact ⟨_, scan_text hp.valid happart, rfl⟩

/-- Printing a parsed script and parsing it again changes positions only. -/
theorem parse_renderScript {source : String} {t : Tree} (h : parse source = .ok t)
    (hj : t.joins = false) : ∃ t', parse t.renderScript = .ok t' ∧ t'.bare = t.bare := by
  obtain ⟨body, -, rfl, hf, -⟩ := parse_sound h
  rw [joins_node] at hj
  obtain ⟨e, hscan, he⟩ := scan_renderScript hf (by simpa [Node.joins, Node.children] using hj)
  obtain ⟨es, hes, hmap⟩ := script_of_spells (r := [e]) hf
    (by simp [atEnd, current, Token.isEnd, he]) (spells_tokens (Render.lines 0 body) 0 false [e])
  refine ⟨.node 0 (.program es), ?_, by simp [Node.map, hmap]⟩
  rw [parse, hscan]
  simp only [bind, Except.bind, hes]
  rfl

/-! ### Glued numerals -/

/-- A point carries a numeral of digits alone on. -/
theorem numeralLength_point {cs : List Char} (rest : List Char) (hs : isWhole cs = true) :
    cs.length < Scan.numeralLength (cs ++ '.' :: rest) := by
  have hall : ∀ c ∈ cs, (c.isDigit || c == '_') = true := List.all_eq_true.1 hs
  rw [Scan.numeralLength_of_decimal]
  · have hwhole : (cs ++ '.' :: rest).takeWhile (fun c => c.isDigit || c == '_') = cs := by
      rw [Scan.takeWhile_append_of_stops (Scan.stops_cons.2 (by decide)),
        List.takeWhile_eq_self_iff.2 hall]
    have hfraction : 1 ≤ Scan.fractionLength ('.' :: rest) := Nat.le_add_right ..
    simp only [Scan.numeralLength.decimalLength, hwhole, List.drop_left]
    omega
  · rintro c r heq hmem
    have hpart : ['x', 'X', 'b', 'B', 'o', 'O'].all fun x => decide
        ((x.isDigit || x == '_') = false ∧ x ≠ '.') := by decide
    simp only [List.all_eq_true, decide_eq_true_eq] at hpart
    rcases cs with _ | ⟨_, _ | ⟨d, _⟩⟩
    · cases heq
    · obtain ⟨-, hc⟩ := List.cons.inj heq
      exact (hpart c hmem).2 (List.cons.inj hc).1.symm
    · obtain ⟨-, hc⟩ := List.cons.inj heq
      obtain rfl := (List.cons.inj hc).1
      have := hall d (by simp)
      rw [(hpart d hmem).1] at this
      cases this

/-- A point behind a plain number is read as part of it. -/
theorem scanAfter_glued {s : String} (hv : Word.Valid ⟨.number, s⟩) (hs : isWhole s.toList = true)
    {pos : Nat} {b : Bool} {rest : List Char} {ts : List Token}
    (h : Token.scanAfter pos b (s.toList ++ '.' :: rest) = .ok ts) :
    ∃ t r, ts = t :: r ∧ t.kind = .number ∧ t.text ≠ s := by
  obtain ⟨c, r, htext, hstart, -⟩ := hv
  have hdigit : c.isDigit = true := by
    have hc : (c.isDigit || c == '_') = true := List.all_eq_true.1 hs c (by simp [htext])
    rcases Bool.or_eq_true_iff.1 hc with hc | hc
    · exact hc
    · rw [beq_iff_eq] at hc
      subst hc
      simp [Scan.startsNumeral] at hstart
  have hquote : ¬(c = '"' ∨ c = '\x27') := by
    rintro (rfl | rfl) <;> exact absurd hdigit (by decide)
  have hslash : c ≠ '/' := by rintro rfl; exact absurd hdigit (by decide)
  have hlong := numeralLength_point rest hs
  rw [htext] at h hlong
  rw [List.cons_append, Token.scanAfter, Scan.trivia_eq_zero (Scan.isBlank_eq_false_of_isDigit hdigit)
    (fun hc => absurd hc hslash)] at h
  simp only [Except.bind, List.take_zero, List.drop_zero, Token.cut] at h
  rw [Scan.lexeme, if_neg hquote, if_pos (by simp [Scan.startsNumeral, hdigit])] at h
  dsimp only at h
  cases hrest : Token.scanFrom (pos + byteSize [] + byteSize (c :: (r ++ '.' :: rest).take
      (Scan.numeralLength (c :: (r ++ '.' :: rest)) - 1)))
      ((r ++ '.' :: rest).drop (Scan.numeralLength (c :: (r ++ '.' :: rest)) - 1)) with
  | error e => rw [hrest] at h; cases h
  | ok more =>
    rw [hrest] at h
    cases h
    refine ⟨_, _, rfl, rfl, fun heq => ?_⟩
    have hlen := congrArg (fun x => x.toList.length) heq
    rw [String.toList_ofList, htext, List.length_take,
      Nat.min_eq_left (Scan.numeralLength_le _)] at hlen
    exact absurd hlen (Nat.ne_of_gt hlong)

/-- A script that accesses a member of a plain number does not come back. -/
theorem bare_ne_of_joins {source : String} {t t' : Tree} (h : parse source = .ok t)
    (hj : t.joins = true) (h' : parse t.renderScript = .ok t') : t'.bare ≠ t.bare := by
  obtain ⟨body, -, rfl, hf, -⟩ := parse_sound h
  obtain ⟨body', ts, rfl, -, hscan, hnumbers⟩ := parse_sound h'
  rw [joins_node] at hj
  have hp := printed_script 0 hf
  have hloose : Loose (Render.lines 0 body) := by
    simpa using hp.loose [] trivial trivial
  have hglued : glued (Render.lines 0 body) = true := by
    rw [hp.glued_eq]
    simpa [Node.joins, Node.children] using hj
  obtain ⟨front, s, back, hps, hs, happart⟩ := exists_glued hloose hglued
  intro hbare
  have hnum : body'.flatMap numerals = body.flatMap numerals := by
    have := congrArg numerals hbare
    rw [numerals_bare, numerals_bare, numerals_node (by simp) (by simp),
      numerals_node (by simp) (by simp)] at this
    exact this
  rw [hnum, ← hp.numbers_eq, hps, Piece.numbers_append] at hnumbers
  have hvalid : Valid (front ++ number s :: Piece.mark "." :: back) := hps ▸ hp.valid
  have hfront : Valid front := fun w hw => hvalid w (List.mem_append_left _ hw)
  have hchars : chars (number s :: Piece.mark "." :: back) = s.toList ++ '.' :: chars back := by
    simp [number, Piece.mark, Piece.written, Word.written]
  have htokens := scanAfter_chars hfront happart 0 false
  rw [← chars_append, ← hps, hchars] at htokens
  have hscan : Token.scanAfter 0 false (chars (Render.lines 0 body)) = .ok ts := by
    rw [← Token.scanFrom_eq_scanAfter, ← hscan, Token.scan, renderScript]
    simp only [top?, Option.bind, Node.statements?, text, String.toList_ofList]
  rw [hscan] at htokens
  cases hrest : Token.scanAfter (0 + byteSize (chars front)) (breaks false front)
      (s.toList ++ '.' :: chars back) with
  | error e => rw [hrest] at htokens; cases htokens
  | ok us =>
    rw [hrest] at htokens
    cases htokens
    obtain ⟨u, us, rfl, hk, hne⟩ := scanAfter_glued (hvalid _ (by simp [number])) hs hrest
    rw [Cursor.numbers, List.filter_append, List.map_append, ← Cursor.numbers, numbers_tokens,
      List.append_cancel_left_eq] at hnumbers
    simp [hk, Piece.numbers, number] at hnumbers
    exact hne hnumbers.1

end Tree

end DebugGuard
