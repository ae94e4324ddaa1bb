import DebugGuard.Proofs.Script.Segment

/-!
# Which line breaks are the same

A line feed may be written with a carriage return in front of it, unless a string goes on in the
next line: there the backslash takes the carriage return and the line feed is left, so the string
has no end (`scan_crlf`).

A line separator or a paragraph separator may be written for a line feed, unless only a line feed
will do: it alone ends a comment, and it alone makes a block comment break the line
(`scan_separator`).
-/

namespace DebugGuard

open Text

/-- A text with a carriage return in front of every line feed. -/
def Text.crlf (cs : List Char) : List Char :=
  cs.flatMap fun c => if c = '\n' then ['\r', '\n'] else [c]

namespace Text

variable {c : Char} {cs ds : List Char}

@[simp] theorem crlf_nil : crlf [] = [] := rfl

@[simp] theorem crlf_append : crlf (cs ++ ds) = crlf cs ++ crlf ds :=
  List.flatMap_append

@[simp] theorem crlf_lineFeed : crlf ('\n' :: cs) = '\r' :: '\n' :: crlf cs := rfl

theorem crlf_cons_of_ne (h : c ≠ '\n') : crlf (c :: cs) = c :: crlf cs := by
  simp [crlf, h]

theorem crlf_of_notMem (h : '\n' ∉ cs) : crlf cs = cs := by
  induction cs with
  | nil => rfl
  | cons c cs ih =>
    obtain ⟨hc, hcs⟩ := not_or.1 (List.mem_cons.not.1 h)
    rw [crlf_cons_of_ne (Ne.symm hc), ih hcs]

theorem contains_crlf : (crlf cs).contains '\n' = cs.contains '\n' := by
  induction cs with
  | nil => rfl
  | cons c cs ih =>
    by_cases hc : c = '\n'
    · subst hc
      simp
    · rw [crlf_cons_of_ne hc, List.contains_cons, List.contains_cons, ih]

end Text

/-! ### Strings over two lines -/

namespace Escape

variable {quote : Char} {text value more : List Char} {item : Item}
  {items items₁ items₂ : List Item} {texts : List (List Char)}

/-- The only unit with a line feed in it is the one that continues the line. -/
theorem Written.eq_of_lineFeed (h : Written Scanned quote item text) (hmem : '\n' ∈ text) :
    item = .chars [] ∧ text = ['\\', '\n'] := by
  have hdigits {ds : List Char} {n : Nat} (hds : Scanned ds n) : '\n' ∉ ds := fun hd => by
    rcases hds.mem _ hd with hhex | heq
    · obtain ⟨v, hv⟩ := hhex
      cases (hexValue?_eq_some_iff.2 hv : none = some v)
    · cases heq
  cases h with
  | plain hbreak => exact absurd (List.mem_singleton.1 hmem).symm hbreak
  | @letter c hx hu =>
    obtain rfl : '\n' = c := by simpa using hmem
    exact ⟨rfl, rfl⟩
  | two hds => simp [hdigits hds] at hmem
  | code h =>
    cases h with
    | four hds => simp [hdigits hds] at hmem
    | braced hds => simp [hdigits hds] at hmem

/-- In front of the first line feed stand units. -/
theorem exists_lineFeed (h : List.Forall₂ (Written Scanned quote) items texts)
    (hmem : '\n' ∈ texts.flatten) : ∃ items₁ items₂ texts₁ texts₂,
      items = items₁ ++ .chars [] :: items₂ ∧ texts = texts₁ ++ ['\\', '\n'] :: texts₂ ∧
      List.Forall₂ (Written Scanned quote) items₁ texts₁ ∧ '\n' ∉ texts₁.flatten := by
  induction h with
  | nil => cases hmem
  | @cons item text items texts hw hall ih =>
    by_cases htext : '\n' ∈ text
    · obtain ⟨rfl, rfl⟩ := hw.eq_of_lineFeed htext
      exact ⟨[], items, [], texts, rfl, rfl, .nil, List.not_mem_nil⟩
    · rw [List.flatten_cons, List.mem_append] at hmem
      obtain ⟨items₁, items₂, texts₁, texts₂, rfl, rfl, hall₁, hnone⟩ :=
        ih (hmem.resolve_left htext)
      refine ⟨item :: items₁, items₂, text :: texts₁, texts₂, rfl, rfl, .cons hw hall₁, ?_⟩
      rw [List.flatten_cons, List.mem_append]
      exact not_or.2 ⟨htext, hnone⟩

/-- Characters are no half of a surrogate pair, so what stands in front of them has a value. -/
theorem Decodes.front (h : Decodes items value) (heq : items = items₁ ++ .chars more :: items₂) :
    ∃ value₁, Decodes items₁ value₁ := by
  induction h generalizing items₁ with
  | nil => simp at heq
  | chars _ ih =>
    cases items₁ with
    | nil => exact ⟨[], .nil⟩
    | cons item items₁ =>
      obtain ⟨rfl, htail⟩ := List.cons.inj heq
      obtain ⟨value₁, hvalue₁⟩ := ih htail
      exact ⟨_, .chars hvalue₁⟩
  | code _ ih =>
    cases items₁ with
    | nil => cases heq
    | cons item items₁ =>
      obtain ⟨rfl, htail⟩ := List.cons.inj heq
      obtain ⟨value₁, hvalue₁⟩ := ih htail
      exact ⟨_, .code hvalue₁⟩
  | halves hc _ ih =>
    rcases items₁ with _ | ⟨item, _ | ⟨item', items₁⟩⟩
    · cases heq
    · cases heq
    · simp only [List.cons_append, List.cons.injEq] at heq
      obtain ⟨rfl, rfl, heq⟩ := heq
      obtain ⟨value₁, hvalue₁⟩ := ih heq
      exact ⟨_, .halves hc hvalue₁⟩

/-- Behind a backslash a carriage return is taken, and the string goes on to the line feed. -/
theorem literalBody_return (hquote : quote ≠ '\\') :
    literalBody quote ('\\' :: '\r' :: '\n' :: more) = .error .openString := by
  have hreturn : spelled ('\r' :: '\n' :: more) = .ok (['\r'], 1) := rfl
  have hfeed : literalBody quote ('\n' :: more) = .error .openString := by
    rw [literalBody, if_pos rfl]
  rw [literalBody, if_neg (by decide), if_neg hquote.symm, if_pos rfl, hreturn]
  simp only [bind, Except.bind, List.drop_succ_cons, List.drop_zero, hfeed]

/-- With a carriage return in front of its line feed, a string has no end. -/
theorem literalBody_crlf (hquote : IsQuote quote) (h : Spells Scanned quote value text)
    (hmem : '\n' ∈ text) (rest : List Char) :
    literalBody quote (crlf (text ++ rest)) = .error .openString := by
  obtain ⟨items, texts, hall, rfl, hdecodes⟩ := h
  obtain ⟨items₁, items₂, texts₁, texts₂, rfl, rfl, hall₁, hnone⟩ := exists_lineFeed hall hmem
  obtain ⟨value₁, hvalue₁⟩ := hdecodes.front rfl
  have hsplit : crlf ((texts₁ ++ ['\\', '\n'] :: texts₂).flatten ++ rest) =
      texts₁.flatten ++ '\\' :: '\r' :: '\n' :: crlf (texts₂.flatten ++ rest) := by
    simp [crlf_of_notMem hnone, crlf_cons_of_ne]
  rw [hsplit, hvalue₁.reads hquote.ne.1 hall₁, literalBody_return hquote.ne.1]
  rfl

end Escape

/-! ### Carriage returns in front of line feeds -/

namespace Segment

variable {s : Segment} {ss : List Segment} {c : Char} {cs ds body rest : List Char}

/-- A string that goes on in the next line. -/
def spansLines (s : Segment) : Bool :=
  s.isString && s.written.contains '\n'

theorem breaks_of_breaksLine {b : Bool} (h : breaksLine c = true) :
    (Segment.blank c).breaks b = true := by
  rw [breaks, h, Bool.or_true]

theorem lineFeed_notMem_word {w : Word} {spelling : List Char}
    (h : CutFrom rest (.word w spelling)) (hs : spansLines (.word w spelling) = false) :
    '\n' ∉ spelling := by
  by_cases hstring : w.kind = .string
  · simpa [spansLines, isString, written, hstring] using hs
  · intro hmem
    have hcode : isCode (.word w spelling) = true := by simpa [isCode] using hstring
    exact absurd (isBlank_eq_false_of_isCode h hcode hmem) (by decide)

/-- A character that is in no end mark cuts a text in two that are looked through for one. -/
theorem infix_append_cons (hstar : c ≠ '*') (hslash : c ≠ '/') :
    ['*', '/'] <:+: ds ++ c :: cs ↔ ['*', '/'] <:+: ds ∨ ['*', '/'] <:+: cs := by
  induction ds with
  | nil => simp [List.infix_cons_iff, hstar.symm]
  | cons d ds ih =>
    rw [List.cons_append, List.infix_cons_iff, List.infix_cons_iff, ih, ← or_assoc]
    have hfront : ['*', '/'] <+: d :: (ds ++ c :: cs) ↔ ['*', '/'] <+: d :: ds := by
      cases ds <;> simp [hslash.symm]
    rw [hfront]

theorem infix_crlf : ['*', '/'] <:+: ds ++ crlf cs ↔ ['*', '/'] <:+: ds ++ cs := by
  induction cs generalizing ds with
  | nil => rfl
  | cons c cs ih =>
    by_cases hc : c = '\n'
    · subst hc
      have hcs : ['*', '/'] <:+: crlf cs ↔ ['*', '/'] <:+: cs := @ih []
      have hfeed : ['*', '/'] <:+: '\n' :: crlf cs ↔ ['*', '/'] <:+: crlf cs := by
        simp [List.infix_cons_iff]
      rw [crlf_lineFeed, infix_append_cons (by decide) (by decide), hfeed, hcs,
        infix_append_cons (by decide) (by decide)]
    · rw [crlf_cons_of_ne hc, List.append_cons, ih, ← List.append_cons]

/-- No word goes past a line break. -/
theorem CutFrom.word_crlf {w : Word} {spelling : List Char}
    (h : CutFrom rest (.word w spelling)) : CutFrom (crlf rest) (.word w spelling) := by
  have hsplit : rest.takeWhile (· != '\n') ++ rest.dropWhile (· != '\n') = rest :=
    List.takeWhile_append_dropWhile
  have hhead := head?_dropWhile_lineFeed rest
  rw [← hsplit] at h ⊢
  rw [crlf_append, crlf_of_notMem (lineFeed_notMem_takeWhile rest)]
  cases hrest : rest.dropWhile (· != '\n') with
  | nil =>
    rw [hrest] at h
    exact h
  | cons c r =>
    rw [hrest] at h hhead
    obtain rfl : c = '\n' := hhead c rfl
    exact h.swap (Scan.halts_blank (by decide)) (Scan.halts_blank (by decide)) fun _ _ heq => by
      cases heq

/-- A line comment takes the carriage return in front of the line feed that ends it. -/
theorem Cut.exists_crlf_line {ss' : List Segment} (h : CutFrom (chars ss ++ rest) (.line body))
    (hrest : rest.head? ≠ some '\n') (hcut : Cut ss' (crlf rest))
    (hchars : chars ss' = crlf (chars ss)) (hfaces : ∀ b, faces b ss' = faces b ss) :
    ∃ ss'', Cut ss'' (crlf rest) ∧ chars ss'' = crlf (chars (.line body :: ss)) ∧
      ∀ b, faces b ss'' = faces b (.line body :: ss) := by
  obtain ⟨hbody, hend⟩ := h
  cases hss : chars ss with
  | nil =>
    -- the comment stands at the end
    have hnil : rest = [] := by
      cases rest with
      | nil => rfl
      | cons d rest =>
        rw [hss] at hend
        exact absurd (congrArg some (hend d rfl)) hrest
    subst hnil
    rw [hss] at hchars
    refine ⟨.line body :: ss', ⟨⟨hbody, by simp [hchars]⟩, hcut⟩, ?_, fun b => ?_⟩
    · simp [written, hchars, hss, crlf_of_notMem hbody, crlf_cons_of_ne]
    · rw [faces_trivia rfl, faces_trivia rfl]
      exact hfaces b
  | cons d cs =>
    obtain rfl : d = '\n' := hend d (by rw [hss]; rfl)
    rw [hss, crlf_lineFeed] at hchars
    obtain ⟨ss'', rfl, hcut'', hchars''⟩ := hcut.exists_blank hchars (by decide)
    have hline : CutFrom (chars ss'' ++ crlf rest) (.line (body ++ ['\r'])) :=
      ⟨by simp [hbody], by simp [hchars'']⟩
    refine ⟨.line (body ++ ['\r']) :: ss'', ⟨hline, hcut''⟩, ?_, fun b => ?_⟩
    · simp [written, hchars'', hss, crlf_of_notMem hbody, crlf_cons_of_ne]
    · have hreturn : (Segment.blank '\r').breaks b = b := Bool.or_false b
      have hrest := hfaces b
      rw [faces_trivia rfl, hreturn] at hrest
      rw [faces_trivia rfl, faces_trivia rfl]
      exact hrest

/-- Segments with a carriage return in front of every line feed are segments again, and mean the
same, if no string spans lines. -/
theorem Cut.exists_crlf (h : Cut ss rest) (hs : ∀ s ∈ ss, s.spansLines = false)
    (hrest : rest.head? ≠ some '\n') :
    ∃ ss', Cut ss' (crlf rest) ∧ chars ss' = crlf (chars ss) ∧ ∀ b, faces b ss' = faces b ss := by
  induction ss with
  | nil => exact ⟨[], trivial, rfl, fun _ => rfl⟩
  | cons s ss ih =>
    obtain ⟨hcut, h⟩ := h
    obtain ⟨ss', hcut', hchars, hfaces⟩ := ih h fun t ht => hs t (List.mem_cons_of_mem _ ht)
    cases s with
    | blank c =>
      by_cases hc : c = '\n'
      · subst hc
        refine ⟨.blank '\r' :: .blank '\n' :: ss', ⟨rfl, rfl, hcut'⟩, by simp [written, hchars], ?_⟩
        intro b
        rw [faces_trivia rfl, faces_trivia rfl, faces_trivia rfl, hfaces,
          breaks_of_breaksLine rfl, breaks_of_breaksLine rfl]
      · refine ⟨.blank c :: ss', ⟨hcut, hcut'⟩, ?_, ?_⟩
        · simp [written, hchars, crlf_cons_of_ne hc]
        · intro b
          rw [faces_trivia rfl, faces_trivia rfl, hfaces]
    | line body => exact exists_crlf_line hcut hrest hcut' hchars hfaces
    | block body =>
      refine ⟨.block (crlf body) :: ss', ⟨?_, hcut'⟩, ?_, ?_⟩
      · exact (@infix_crlf body []).not.2 hcut
      · simp [written, hchars, crlf_cons_of_ne]
      · intro b
        rw [faces_trivia rfl, faces_trivia rfl, hfaces, breaks, breaks, contains_crlf]
    | word w spelling =>
      have hnone := lineFeed_notMem_word hcut (hs _ List.mem_cons_self)
      refine ⟨.word w spelling :: ss', ⟨?_, hcut'⟩, ?_, ?_⟩
      · rw [hchars, ← crlf_append]
        exact hcut.word_crlf
      · simp [written, hchars, crlf_of_notMem hnone]
      · intro b
        rw [faces_word, faces_word, hfaces]

end Segment

open Segment

section Crlf

variable {source windows : String} {s : Segment} {ss before after : List Segment}

theorem Segmented.sameFaces_crlf (h : Segmented source ss)
    (hwindows : windows.toList = crlf source.toList) (hs : ∀ s ∈ ss, s.spansLines = false) :
    SameFaces source windows := by
  obtain ⟨ss', hcut', hchars, hfaces⟩ := h.1.exists_crlf hs (by simp)
  have h' : Segmented windows ss' := ⟨hcut', by rw [hwindows, h.2, hchars]⟩
  exact (h.sameFaces_iff h').2 (hfaces false)

/-- The first string that spans lines is refused. -/
theorem Segmented.scan_crlf_eq_error (h : Segmented source (before ++ s :: after))
    (hwindows : windows.toList = crlf source.toList)
    (hbefore : ∀ t ∈ before, t.spansLines = false) (hs : s.spansLines = true) :
    Token.scan windows = .error ⟨.openString, byteSize (crlf (chars before))⟩ := by
  obtain ⟨hcut, hsource⟩ := h
  obtain ⟨hfront, hscut, -⟩ := cut_append.1 hcut
  cases s with
  | blank c | line body | block body => cases hs
  | word w spelling =>
    obtain ⟨quote, tail, rfl, hblank, -, hl⟩ := hscut
    obtain ⟨hstring, hmem⟩ : w.kind = .string ∧ '\n' ∈ quote :: tail := by
      simpa [spansLines, isString, written] using hs
    have hquote := (Scan.kind_eq_string_iff hl).1 hstring
    obtain ⟨value, text, hspells, rfl, -⟩ := Scan.exists_spells_of_lexeme hquote hl
    have hlf : '\n' ≠ quote := hquote.ne.2.symm
    have htext : '\n' ∈ text := by simpa [hlf] using hmem
    -- the text in front is scanned as before, and the string is where the scanner stops
    have hrest : chars (.word w (quote :: (text ++ [quote])) :: after) ++ [] =
        quote :: (text ++ quote :: chars after) := by simp [written]
    rw [hrest] at hfront
    obtain ⟨ss', hcut', hchars', -⟩ := hfront.exists_crlf hbefore (by simp [hlf.symm])
    have hsplit : windows.toList =
        chars ss' ++ quote :: crlf (text ++ quote :: chars after) := by
      rw [hwindows, hsource, chars_append, ← List.append_nil (chars (_ :: after)), hrest,
        crlf_append, crlf_cons_of_ne hlf.symm, hchars']
    have hlexeme :
        Scan.lexeme quote (crlf (text ++ quote :: chars after)) = .error .openString := by
      have hquote' : quote = '"' ∨ quote = '\x27' := hquote
      rw [Scan.lexeme, if_pos hquote', Escape.literalBody_crlf hquote hspells htext]
      rfl
    have hslash : quote ≠ '/' := by rcases hquote with rfl | rfl <;> decide
    rw [crlf_cons_of_ne hlf.symm] at hcut'
    rw [Token.scan, Token.scanFrom_eq_scanAfter, hsplit, scanAfter_chars hcut', Token.scanAfter,
      Scan.trivia_eq_zero hblank fun heq => absurd heq hslash]
    simp only [Except.bind, List.take_zero, List.drop_zero, Token.cut, hlexeme, Except.map,
      byteSize_nil, Nat.add_zero, Nat.zero_add, hchars']

/-- With a carriage return in front of every line feed, a text is scanned into the same tokens,
places apart, unless a string spans lines; the first one that does is where the scanner stops. -/
theorem scan_crlf (h : Segmented source ss) (hwindows : windows.toList = crlf source.toList) :
    (SameFaces source windows ↔ ∀ s ∈ ss, s.spansLines = false) ∧
      ∀ before s after, ss = before ++ s :: after → (∀ t ∈ before, t.spansLines = false) →
        s.spansLines = true →
        Token.scan windows = .error ⟨.openString, byteSize (crlf (chars before))⟩ := by
  have herror (before : List Segment) (s : Segment) (after : List Segment)
      (hss : ss = before ++ s :: after) (hbefore : ∀ t ∈ before, t.spansLines = false)
      (hs : s.spansLines = true) :
      Token.scan windows = .error ⟨.openString, byteSize (crlf (chars before))⟩ :=
    (hss ▸ h).scan_crlf_eq_error hwindows hbefore hs
  refine ⟨⟨fun hsame => ?_, h.sameFaces_crlf hwindows⟩, herror⟩
  cases hfind : ss.find? spansLines with
  | none => simpa using hfind
  | some s =>
    obtain ⟨hs, before, after, hss, hbefore⟩ := List.find?_eq_some_iff_append.1 hfind
    obtain ⟨ts, us, -, hus, -⟩ := hsame
    have hbefore : ∀ t ∈ before, t.spansLines = false := fun t ht => by simpa using hbefore t ht
    rw [herror before s after hss hbefore hs] at hus
    cases hus

/-- A string that is continued behind a line feed, but not behind a carriage return and a line
feed. -/
theorem scan_crlf_continued : ¬SameFaces "a\n\"b\\\nc\"" "a\r\n\"b\\\r\nc\"" ∧
    Token.scan "a\r\n\"b\\\r\nc\"" = .error ⟨.openString, 3⟩ := by
  have h : Segmented "a\n\"b\\\nc\"" [.word ⟨.identifier, "a"⟩ ['a'], .blank '\n',
      .word ⟨.string, "bc"⟩ ['"', 'b', '\\', '\n', 'c', '"']] := by decide +kernel
  have hwindows : "a\r\n\"b\\\r\nc\"".toList = crlf "a\n\"b\\\nc\"".toList := by decide +kernel
  have hscan := scan_crlf h hwindows
  constructor
  · intro hsame
    exact absurd (hscan.1.1 hsame _ (List.getLast_mem (List.cons_ne_nil _ _))) (by decide)
  · exact hscan.2 [_, _] _ [] rfl (by decide) (by decide)

end Crlf

/-! ### Line separators for line feeds -/

namespace Segment

variable {s : Segment} {ss before after : List Segment} {b : Bool} {c ls : Char}
  {p q cs ds body rest : List Char}

/-- Whether a line separator would do for the line feed in the segment `s`, which is written
`front ++ '\n' :: back`.

A block comment needs a line feed if nothing else in the trivia breaks the line.  A blank needs to
be a line feed if a comment ends in front of it: otherwise the comment goes on, so the text behind
it has to be the same without the rest of the line. -/
def Separable (before : List Segment) (s : Segment) (after : List Segment)
    (front back : List Char) : Prop :=
  match s with
  | .block _ => gap (broken false before || (front ++ back).contains '\n') after = true
  | _ => ∀ body, before.getLast? = some (.line body) →
      ∃ ss, Cut ss [] ∧ chars ss = (chars after).dropWhile (· != '\n') ∧
        faces (broken false before) ss = faces true after

/-- Segments in front of a blank are cut off in front of any other one, but a comment to the end of
the line needs a line feed behind it. -/
theorem Cut.swap_blank {d : Char} {rest' : List Char} (h : Cut ss (p ++ c :: rest))
    (hc : isBlank c = true) (hd : isBlank d = true)
    (hline : p = [] → ∀ body, ss.getLast? ≠ some (.line body)) : Cut ss (p ++ d :: rest') :=
  h.swap (Scan.halts_blank hc) (Scan.halts_blank hd) fun hp body hbody =>
    absurd hbody (hline hp body)

/-- A line feed in a block comment stands in its body. -/
theorem exists_body {front back : List Char}
    (h : written (.block body) = front ++ '\n' :: back) :
    ∃ cs ds, body = cs ++ '\n' :: ds ∧ front = '/' :: '*' :: cs ∧ back = ds ++ ['*', '/'] := by
  rcases front with _ | ⟨c, _ | ⟨d, cs⟩⟩
  · cases h
  · cases h
  · simp only [written, List.cons_append, List.cons.injEq] at h
    obtain ⟨rfl, rfl, h⟩ := h
    rcases List.append_eq_append_iff.1 h with ⟨more, rfl, hmore⟩ | ⟨more, rfl, hmore⟩
    · rcases more with _ | ⟨e, _ | ⟨e', more⟩⟩ <;> simp at hmore
    · cases more with
      | nil => simp at hmore
      | cons e ds =>
        obtain ⟨rfl, rfl⟩ := List.cons.inj hmore
        exact ⟨cs, ds, rfl, rfl, rfl⟩

end Segment

section Separator

variable {source separated : String} {s : Segment} {before after : List Segment} {ls : Char}
  {front back : List Char}

/-- What one piece of trivia does for another. -/
theorem Segmented.sameFaces_exchange {s' : Segment} (h : Segmented source (before ++ s :: after))
    (h' : Segmented separated (before ++ s' :: after)) (hs : s.isWord = false)
    (hs' : s'.isWord = false) : SameFaces source separated ↔
      gap (s'.breaks (broken false before)) after = gap (s.breaks (broken false before)) after := by
  rw [h.sameFaces_iff h', faces_append, faces_append, List.append_right_inj, faces_trivia hs,
    faces_trivia hs', faces_eq_iff]

theorem Segmented.separate_block {body : List Char}
    (h : Segmented source (before ++ .block body :: after))
    (hw : written (.block body) = front ++ '\n' :: back) (hls : breaksLine ls = true)
    (hne : ls ≠ '\n')
    (hseparated : separated.toList = chars before ++ front ++ ls :: (back ++ chars after)) :
    SameFaces source separated ↔ Separable before (.block body) after front back := by
  obtain ⟨cs, ds, rfl, rfl, rfl⟩ := exists_body hw
  obtain ⟨hbefore, hmark, hafter⟩ := cut_append.1 h.1
  have hbefore' : Cut before (chars (.block (cs ++ ls :: ds) :: after)) := by
    have hfront : Cut before (('/' :: '*' :: cs) ++ '\n' :: (ds ++ '*' :: '/' :: chars after)) := by
      simpa [written] using hbefore
    have hback : Cut before (('/' :: '*' :: cs) ++ ls :: (ds ++ '*' :: '/' :: chars after)) :=
      hfront.swap_blank (by decide) (isBlank_of_breaksLine hls) fun hnil => by cases hnil
    simpa [written] using hback
  have hmark' : ¬['*', '/'] <:+: cs ++ ls :: ds := by
    have hstar : ls ≠ '*' := by rintro rfl; exact absurd hls (by decide)
    have hslash : ls ≠ '/' := by rintro rfl; exact absurd hls (by decide)
    rw [infix_append_cons hstar hslash]
    exact (infix_append_cons (by decide) (by decide)).not.1 hmark
  have h' : Segmented separated (before ++ .block (cs ++ ls :: ds) :: after) :=
    ⟨cut_append.2 ⟨by rwa [List.append_nil], hmark', hafter⟩, by simp [hseparated, written]⟩
  have hsame := h.sameFaces_exchange h' rfl rfl
  have hbroken : (Segment.block (cs ++ '\n' :: ds)).breaks (broken false before) = true := by
    simp [breaks]
  have hbroken' : (Segment.block (cs ++ ls :: ds)).breaks (broken false before) =
      (broken false before || ('/' :: '*' :: cs ++ (ds ++ ['*', '/'])).contains '\n') := by
    simp [breaks, hne.symm]
  rwa [hbroken, hbroken', gap_true] at hsame

/-- Behind a comment to the end of the line, the rest of the next line becomes part of the
comment. -/
theorem Segmented.separate_line {body : List Char}
    (h : Segmented source (before ++ .line body :: .blank '\n' :: after))
    (hls : breaksLine ls = true) (hne : ls ≠ '\n')
    (hseparated : separated.toList = chars before ++ '/' :: '/' :: (body ++ ls :: chars after)) :
    SameFaces source separated ↔
      ∃ ss, Cut ss [] ∧ chars ss = (chars after).dropWhile (· != '\n') ∧
        faces (broken false before) ss = faces true after := by
  obtain ⟨hbefore, ⟨hbody, -⟩, -, hafter⟩ := cut_append.1 h.1
  set line := (chars after).takeWhile (· != '\n')
  set rest := (chars after).dropWhile (· != '\n')
  have hsplit : line ++ rest = chars after := List.takeWhile_append_dropWhile
  have hline : '\n' ∉ body ++ ls :: line := by
    have hmem : '\n' ∉ line := lineFeed_notMem_takeWhile (chars after)
    simp [hbody, hne.symm, hmem]
  have hend : ∀ d ∈ rest.head?, d = '\n' := head?_dropWhile_lineFeed (chars after)
  have hfront : Cut (before ++ [.line (body ++ ls :: line)]) rest := by
    have hopen : Cut before (('/' :: '/' :: body) ++ '\n' :: chars after) := by
      simpa [written] using hbefore
    have hopen' : Cut before (('/' :: '/' :: body) ++ ls :: chars after) :=
      hopen.swap_blank (by decide) (isBlank_of_breaksLine hls) fun hnil => by cases hnil
    refine cut_append.2 ⟨?_, ⟨hline, hend⟩, trivial⟩
    simpa [written, hsplit] using hopen'
  have hchars : separated.toList = chars (before ++ [.line (body ++ ls :: line)]) ++ rest := by
    simp [hseparated, written, hsplit]
  have hfaces : faces false (before ++ .line body :: .blank '\n' :: after) =
      (tokens 0 false before).map Token.unplaced ++ faces true after := by
    rw [faces_append, faces_trivia rfl, faces_trivia rfl, breaks_of_breaksLine rfl]
  have hsegmented {ss : List Segment} (hcut : Cut ss []) (hss : chars ss = rest) :
      SameFaces source separated ↔ faces (broken false before) ss = faces true after := by
    have h' : Segmented separated (before ++ .line (body ++ ls :: line) :: ss) := by
      refine ⟨?_, by rw [hchars, ← hss]; simp⟩
      rw [List.append_cons]
      exact cut_append.2 ⟨by rwa [List.append_nil, hss], hcut⟩
    rw [h.sameFaces_iff h', hfaces, faces_append, List.append_right_inj, faces_trivia rfl]
    rfl
  constructor
  · intro hsame
    obtain ⟨ts, us, -, hus, -⟩ := id hsame
    rw [Token.scan, Token.scanFrom_eq_scanAfter, hchars, scanAfter_chars hfront] at hus
    obtain ⟨vs, hvs, -⟩ := map_eq_ok.1 hus
    obtain ⟨ss, hcut, hss⟩ := exists_cut_of_scanAfter hvs
    exact ⟨ss, hcut, hss.symm, (hsegmented hcut hss.symm).1 hsame⟩
  · rintro ⟨ss, hcut, hss, hsame⟩
    exact (hsegmented hcut hss).2 hsame

theorem Segmented.separate_blank (h : Segmented source (before ++ .blank '\n' :: after))
    (hbefore : ∀ body, before.getLast? ≠ some (.line body)) (hls : breaksLine ls = true)
    (hseparated : separated.toList = chars before ++ ls :: chars after) :
    SameFaces source separated := by
  obtain ⟨hcut, -, hafter⟩ := cut_append.1 h.1
  have hblank := isBlank_of_breaksLine hls
  have hcut' : Cut before ([] ++ ls :: chars after) := by
    rw [List.append_nil] at hcut
    exact Cut.swap_blank (p := []) hcut (by decide) hblank fun _ => hbefore
  have h' : Segmented separated (before ++ .blank ls :: after) := by
    refine ⟨cut_append.2 ⟨?_, hblank, hafter⟩, by simp [hseparated, written]⟩
    simpa [written] using hcut'
  rw [h.sameFaces_exchange h' rfl rfl, breaks_of_breaksLine hls, breaks_of_breaksLine rfl]

/-- A line separator does for a line feed that is in no string unless a comment needs the line feed:
the texts are scanned into the same tokens, places apart, just in that case. -/
theorem scan_separator (h : Segmented source (before ++ s :: after)) (hs : s.isString = false)
    (hw : s.written = front ++ '\n' :: back) (hls : ls = '\u2028' ∨ ls = '\u2029')
    (hseparated : separated.toList = chars before ++ front ++ ls :: (back ++ chars after)) :
    SameFaces source separated ↔ Separable before s after front back := by
  have hbreaks : breaksLine ls = true := by rcases hls with rfl | rfl <;> rfl
  have hne : ls ≠ '\n' := by rcases hls with rfl | rfl <;> decide
  obtain ⟨-, hscut, -⟩ := cut_append.1 h.1
  cases s with
  | blank c =>
    obtain ⟨rfl, rfl, rfl⟩ : front = [] ∧ '\n' = c ∧ back = [] := by
      simpa [written, List.cons_eq_append_iff, and_comm, and_assoc] using hw
    by_cases hline : ∃ body, before.getLast? = some (.line body)
    · obtain ⟨body, hbody⟩ := hline
      obtain ⟨init, rfl⟩ := List.getLast?_eq_some_iff.1 hbody
      rw [List.append_assoc, List.singleton_append] at h
      have hsame := h.separate_line hbreaks hne (by simpa [written] using hseparated)
      have hbroken : broken false (init ++ [.line body]) = broken false init := broken_append
      simpa [Separable, hbroken] using hsame
    · have hline' : ∀ body, before.getLast? ≠ some (.line body) := fun body hbody =>
        hline ⟨body, hbody⟩
      have hsame := h.separate_blank hline' hbreaks (by simpa using hseparated)
      exact iff_of_true hsame fun body hbody => absurd hbody (hline' body)
  | line body =>
    have hmem : '\n' ∈ written (.line body) := by simp [hw]
    exact absurd hmem (by simpa [written] using hscut.1)
  | block body => exact h.separate_block hw hbreaks hne hseparated
  | word w spelling =>
    have hcode : isCode (.word w spelling) = true := by simpa [isCode, isString] using hs
    have hmem : '\n' ∈ written (.word w spelling) := by simp [hw]
    exact absurd (isBlank_eq_false_of_isCode hscut hcode hmem) (by decide)

/-- Behind a comment that a line separator does not end, the code is lost. -/
theorem scan_separator_comment : ¬SameFaces "a // c\nb" "a // c\u2028b" := by
  have h : Segmented "a // c\nb" ([.word ⟨.identifier, "a"⟩ ['a'], .blank ' ', .line [' ', 'c']] ++
      .blank '\n' :: [.word ⟨.identifier, "b"⟩ ['b']]) := ⟨by decide +kernel, rfl⟩
  have hblank : written (.blank '\n') = [] ++ '\n' :: [] := rfl
  have hseparated : "a // c\u2028b".toList = chars
      [.word ⟨.identifier, "a"⟩ ['a'], .blank ' ', .line [' ', 'c']] ++ [] ++
        '\u2028' :: ([] ++ chars [.word ⟨.identifier, "b"⟩ ['b']]) := rfl
  rw [scan_separator h rfl hblank (.inl rfl) hseparated]
  intro hseparable
  obtain ⟨ss, hcut, hchars, hfaces⟩ := hseparable _ rfl
  -- nothing is left behind the comment
  obtain rfl : ss = [] := by
    by_contra hne
    exact hcut.chars_ne_nil hne hchars
  exact absurd hfaces (by decide)

end Separator

end DebugGuard
