import DebugGuard.Proofs.Forest.Outline
import DebugGuard.Proofs.Script.Segment

/-!
# Signs next to one another

There is no mark `++` and no mark `--`.  Two equal signs that stand next to each other are therefore
two marks, and the script is read as if a blank stood between them (`parse_signs`): what an update
of a variable would be is the sign of a sign, or the sum of a signed summand.
-/

namespace DebugGuard

open Text

namespace Forest

/-- Two sources with the same tokens but for their places are read alike. -/
theorem outline_parse_of_unplaced {source source' : String} {ts us : List Token}
    (hts : Token.scan source = .ok ts) (hus : Token.scan source' = .ok us)
    (h : us.map Token.unplaced = ts.map Token.unplaced) :
    (Tree.parse source).toOption.map (outline ts) =
      (Tree.parse source').toOption.map (outline us) := by
  have hpairs : List.Forall₂ (fun t u => Token.unplaced t = Token.unplaced u) ts us := by
    rwa [eq_comm, ← List.forall₂_eq_eq_eq, List.forall₂_map_left_iff,
      List.forall₂_map_right_iff] at h
  have htext {t u : Token} (htu : t.unplaced = u.unplaced) : u.text = t.text :=
    (congrArg Token.text htu).symm
  refine outline_parse hts hus (hpairs.imp fun t u htu => ?_) fun p hp _ _ => ?_
  · have hkind : t.unplaced.kind = u.unplaced.kind := congrArg Token.kind htu
    have hbreak : t.unplaced.afterBreak = u.unplaced.afterBreak := congrArg Token.afterBreak htu
    exact ⟨hkind.symm, hbreak.symm, fun _ => htext htu⟩
  · have hmem : (p.2.1, p.2.2) ∈ ts.zip us := List.mem_of_mem_tail (List.of_mem_zip hp).2
    rw [Grammar.keyword?, Grammar.keyword?, htext ((List.forall₂_iff_zip.1 hpairs).2 hmem)]

end Forest

namespace Segment

variable {s : Segment} {before after : List Segment} {a b rest : List Char} {c : Char}

/-- In front of the same sign, a sign is a mark of its own. -/
theorem eq_sign (hc : c = '+' ∨ c = '-') (h : s.CutFrom rest) (hs : s.isCode = true)
    (hw : s.written = a ++ c :: b) (hnext : (b ++ rest).head? = some c) :
    s = .word ⟨.mark, c.toString⟩ [c] := by
  obtain ⟨q, hq⟩ := List.head?_eq_some_iff.1 hnext
  cases s with
  | blank d | line body | block body => cases hs
  | word w spelling =>
    obtain ⟨d, tail, rfl, -, -, hl⟩ := h
    have hkind : w.kind ≠ .string := by simpa [isCode] using hs
    have hquote := (Scan.kind_eq_string_iff hl).not.1 hkind
    have hw : d :: tail = a ++ c :: b := hw
    cases a with
    | cons d' a =>
      -- the word would end in front of the first sign
      obtain ⟨rfl, rfl⟩ := List.cons.inj hw
      have hsplit : a.append (c :: b) ++ rest = a ++ c :: c :: q := by
        rw [List.append_eq, List.append_assoc, List.cons_append, hq]
      rw [hsplit, Scan.lexeme_append hquote (Scan.halts_signs hc).1] at hl
      obtain ⟨tail, more, ha, hmore, -⟩ := Scan.spelledBy_of_lexeme hl
      have hlen := congrArg List.length ha
      simp only [List.append_eq, List.length_append, List.length_cons] at hlen hmore
      omega
    | nil =>
      -- it ends behind it
      obtain ⟨rfl, rfl⟩ := List.cons.inj hw
      have hsplit : tail ++ rest = [] ++ d :: q := hq
      have hhalts : Scan.Halts ([] ++ [d]) (d :: q) := (Scan.halts_signs hc).2
      rw [hsplit, Scan.lexeme_append hquote hhalts] at hl
      have hmark : Scan.lexeme d [] = .ok ⟨.mark, d.toString, 0⟩ := by
        rcases hc with rfl | rfl <;> decide +kernel
      rw [hmark] at hl
      obtain ⟨hk, ht, hlen⟩ : TokenKind.mark = w.kind ∧ d.toString = w.text ∧ 0 = tail.length := by
        simpa using hl
      obtain rfl : tail = [] := List.eq_nil_of_length_eq_zero hlen.symm
      rw [hk, ht]

end Segment

open Segment

variable {source spaced : String} {s : Segment} {front before after : List Segment}
  {a b : List Char} {c : Char}

/-- A blank may stand where no word goes on. -/
theorem Segmented.space (h : Segmented source (front ++ after))
    (hhalts : Scan.Halts (chars front) (chars after))
    (hline : ∀ body, front.getLast? ≠ some (.line body))
    (hspaced : spaced.toList = chars front ++ ' ' :: chars after) :
    ∃ ts us, Token.scan source = .ok ts ∧ Token.scan spaced = .ok us ∧
      us.map Token.unplaced = ts.map Token.unplaced := by
  obtain ⟨hfront, hafter⟩ := cut_append.1 h.1
  rw [List.append_nil] at hfront
  have hfront' : Cut front ([] ++ ' ' :: chars after) := by
    refine Cut.swap (p := []) hfront ?_ (Scan.halts_blank (by decide)) fun _ body hbody =>
      absurd hbody (hline body)
    rwa [List.append_nil]
  have h' : Segmented spaced (front ++ .blank ' ' :: after) := by
    refine ⟨cut_append.2 ⟨?_, rfl, hafter⟩, by rw [hspaced, chars_append]; rfl⟩
    simpa [written] using hfront'
  obtain ⟨ts, hts, hfaces⟩ := h.exists_scan
  obtain ⟨us, hus, hfaces'⟩ := h'.exists_scan
  refine ⟨ts, us, hts, hus, ?_⟩
  have hbreaks : (Segment.blank ' ').breaks (broken false front) = broken false front :=
    Bool.or_false _
  rw [hfaces, hfaces', faces_append, faces_append, faces_trivia rfl, hbreaks]

/-- Two equal signs next to each other in the code are read as if a blank stood between them: the
first is a mark of its own, the tokens are the same but for their places, and either both scripts
are read, with the same outline, or neither is. -/
theorem parse_signs (h : Segmented source (before ++ s :: after)) (hs : s.isCode = true)
    (hc : c = '+' ∨ c = '-') (hw : s.written = a ++ c :: b)
    (hnext : (b ++ chars after).head? = some c)
    (hspaced : spaced.toList = chars before ++ a ++ c :: ' ' :: (b ++ chars after)) :
    s = .word ⟨.mark, c.toString⟩ [c] ∧
      ∃ ts us, Token.scan source = .ok ts ∧ Token.scan spaced = .ok us ∧
        us.map Token.unplaced = ts.map Token.unplaced ∧
        (Tree.parse source).toOption.map (Forest.outline ts) =
          (Tree.parse spaced).toOption.map (Forest.outline us) := by
  obtain ⟨-, hsign, -⟩ := cut_append.1 h.1
  rw [List.append_nil] at hsign
  obtain rfl := eq_sign hc hsign hs hw hnext
  refine ⟨rfl, ?_⟩
  obtain ⟨rfl, rfl⟩ : a = [] ∧ b = [] := by
    have hlen := congrArg List.length hw
    simp only [written, List.length_append, List.length_cons, List.length_nil] at hlen
    exact ⟨List.eq_nil_of_length_eq_zero (by omega), List.eq_nil_of_length_eq_zero (by omega)⟩
  obtain ⟨q, hq⟩ := List.head?_eq_some_iff.1 hnext
  have hfront : chars (before ++ [.word ⟨.mark, c.toString⟩ [c]]) = chars before ++ [c] := by
    simp [written]
  have hhalts : Scan.Halts (chars (before ++ [.word ⟨.mark, c.toString⟩ [c]])) (chars after) := by
    rw [hfront, ← List.nil_append (chars after), hq]
    exact (Scan.halts_signs hc).2
  rw [List.append_cons] at h
  obtain ⟨ts, us, hts, hus, hsame⟩ :=
    h.space hhalts (by simp) (by rw [hspaced, hfront]; simp)
  exact ⟨ts, us, hts, hus, hsame, Forest.outline_parse_of_unplaced hts hus hsame⟩

/-- The sign of a sign, written without a blank. -/
theorem parse_update : (Tree.parse "++x;").isOk = true ∧
    ∃ ts us, Token.scan "++x;" = .ok ts ∧ Token.scan "+ +x;" = .ok us ∧
      us.map Token.unplaced = ts.map Token.unplaced ∧
      (Tree.parse "++x;").toOption.map (Forest.outline ts) =
        (Tree.parse "+ +x;").toOption.map (Forest.outline us) := by
  have h : Segmented "++x;" ([] ++ .word ⟨.mark, "+"⟩ ['+'] :: [.word ⟨.mark, "+"⟩ ['+'],
      .word ⟨.identifier, "x"⟩ ['x'], .word ⟨.mark, ";"⟩ [';']]) := by decide +kernel
  have hspaced : "+ +x;".toList = chars [] ++ [] ++ '+' :: ' ' :: ([] ++ chars
      [.word ⟨.mark, "+"⟩ ['+'], .word ⟨.identifier, "x"⟩ ['x'], .word ⟨.mark, ";"⟩ [';']]) := by
    decide +kernel
  exact ⟨by decide +kernel, (parse_signs h rfl (.inl rfl) rfl rfl hspaced).2⟩

end DebugGuard
