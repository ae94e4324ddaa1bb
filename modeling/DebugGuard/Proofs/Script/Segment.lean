import DebugGuard.Proofs.Script.Boundary
import DebugGuard.Proofs.Script.Partition

/-!
# A source text in segments

A source text that is scanned consists of blanks, comments and words (`Segmented`), each of which
the scanner cuts off in front of the text behind it.  The tokens are the words, and a token stands
behind a line break if the trivia in front of it breaks the line (`Segment.tokens`).

What the scanner makes of a text can be read off its segments, wherever the text stands
(`Segment.scanAfter_chars`), so two texts are compared by comparing their segments.

Main statements:

* `Segmented.scan` and `exists_segmented`: exactly the texts that are scanned have segments;
* `Segment.Cut.swap`: segments stay what they are if the text behind them changes at a place that no
  word goes past.
-/

namespace DebugGuard

open Text

theorem map_eq_ok {ε α β : Type} {x : Except ε α} {f : α → β} {b : β} :
    x.map f = .ok b ↔ ∃ a, x = .ok a ∧ f a = b := by
  cases x with
  | error e => simp [Except.map]
  | ok a => simp [Except.map]

theorem lineFeed_notMem_takeWhile (cs : List Char) : '\n' ∉ cs.takeWhile (· != '\n') := fun hmem =>
  absurd (List.mem_takeWhile_imp hmem) (by decide)

theorem head?_dropWhile_lineFeed (cs : List Char) :
    ∀ d ∈ (cs.dropWhile (· != '\n')).head?, d = '\n' := by
  intro d hd
  have hhead := List.head?_dropWhile_not (· != '\n') cs
  rw [hd] at hhead
  simpa using hhead

deriving instance DecidableEq for Scan.Lexeme

/-- A token without its place in the text. -/
def Token.unplaced (t : Token) : Token :=
  { t with start := 0 }

/-- A piece of a source text: a blank, a comment, or a word as it is spelled there. -/
inductive Segment where
  | blank (c : Char)
  /-- A comment to the end of the line. -/
  | line (body : List Char)
  | block (body : List Char)
  | word (w : Word) (spelling : List Char)
  deriving DecidableEq

namespace Segment

/-- The characters of a segment. -/
def written : Segment → List Char
  | .blank c => [c]
  | .line body => '/' :: '/' :: body
  | .block body => '/' :: '*' :: (body ++ ['*', '/'])
  | .word _ spelling => spelling

/-- The characters of several segments. -/
def chars (ss : List Segment) : List Char :=
  ss.flatMap written

/-- The scanner cuts the segment off in front of `rest`. -/
def CutFrom (rest : List Char) : Segment → Prop
  | .blank c => isBlank c = true
  | .line body => '\n' ∉ body ∧ ∀ d ∈ rest.head?, d = '\n'
  | .block body => ¬['*', '/'] <:+: body
  | .word w spelling => ∃ c tail, spelling = c :: tail ∧ isBlank c = false ∧
      (c = '/' → ∀ d ∈ (tail ++ rest).head?, d ≠ '/' ∧ d ≠ '*') ∧
      Scan.lexeme c (tail ++ rest) = .ok ⟨w.kind, w.text, tail.length⟩

/-- The scanner cuts the segments off one after the other in front of `rest`. -/
def Cut : List Segment → List Char → Prop
  | [], _ => True
  | s :: ss, rest => s.CutFrom (chars ss ++ rest) ∧ Cut ss rest

/-- The instance for all characters would look at each character there is. -/
def decidableForallMem (o : Option Char) (p : Char → Prop) [DecidablePred p] :
    Decidable (∀ d ∈ o, p d) :=
  match o with
  | none => isTrue nofun
  | some d => decidable_of_iff (p d) ⟨fun h _ hd => Option.some.inj hd ▸ h, fun h => h d rfl⟩

instance (rest : List Char) (s : Segment) : Decidable (s.CutFrom rest) :=
  match s with
  | .blank c => inferInstanceAs (Decidable (isBlank c = true))
  | .line body =>
    have := decidableForallMem rest.head? (· = '\n')
    inferInstanceAs (Decidable ('\n' ∉ body ∧ ∀ d ∈ rest.head?, d = '\n'))
  | .block body => inferInstanceAs (Decidable ¬['*', '/'] <:+: body)
  | .word w spelling =>
    match spelling with
    | [] => isFalse nofun
    | c :: tail =>
      have := decidableForallMem (tail ++ rest).head? fun d => d ≠ '/' ∧ d ≠ '*'
      decidable_of_iff (isBlank c = false ∧
        (c = '/' → ∀ d ∈ (tail ++ rest).head?, d ≠ '/' ∧ d ≠ '*') ∧
        Scan.lexeme c (tail ++ rest) = .ok ⟨w.kind, w.text, tail.length⟩)
      ⟨fun h => ⟨c, tail, rfl, h⟩, fun ⟨_, _, heq, h⟩ => by
        obtain ⟨rfl, rfl⟩ := List.cons.inj heq
        exact h⟩

instance decidableCut (rest : List Char) : (ss : List Segment) → Decidable (Cut ss rest)
  | [] => isTrue trivial
  | s :: ss =>
    have := decidableCut rest ss
    inferInstanceAs (Decidable (s.CutFrom (chars ss ++ rest) ∧ Cut ss rest))

/-- Whether the trivia up to the end of the segment breaks the line, if `broken` says so of the
trivia in front of it. -/
def breaks (broken : Bool) : Segment → Bool
  | .blank c => broken || breaksLine c
  | .line _ => broken
  | .block body => broken || body.contains '\n'
  | .word .. => false

/-- Whether the trivia behind the last word breaks the line. -/
def broken (b : Bool) : List Segment → Bool
  | [] => b
  | s :: ss => broken (s.breaks b) ss

/-- The tokens of the words, the first segment standing at offset `pos`. -/
def tokens (pos : Nat) (b : Bool) : List Segment → List Token
  | [] => []
  | .word w spelling :: ss => ⟨w.kind, w.text, pos, b⟩ :: tokens (pos + byteSize spelling) false ss
  | s :: ss => tokens (pos + byteSize s.written) (s.breaks b) ss

/-- What the scanner makes of the segments, places left out. -/
def faces (b : Bool) (ss : List Segment) : List Token :=
  (tokens 0 b ss).map Token.unplaced ++ [⟨.endOfFile, "", 0, broken b ss⟩]

/-- A segment that becomes a token. -/
def isWord : Segment → Bool
  | .word .. => true
  | _ => false

/-- A string literal, the only word whose spelling is not its text. -/
def isString : Segment → Bool
  | .word w _ => w.kind = .string
  | _ => false

/-- A word that is no string. -/
def isCode : Segment → Bool
  | .word w _ => w.kind ≠ .string
  | _ => false

variable {s : Segment} {ss ss' : List Segment} {b b' : Bool} {c : Char} {pos : Nat} {w : Word}
  {rest rest' body spelling p cs : List Char}

@[simp] theorem chars_nil : chars [] = [] := rfl

@[simp] theorem chars_cons : chars (s :: ss) = s.written ++ chars ss := rfl

@[simp] theorem chars_append : chars (ss ++ ss') = chars ss ++ chars ss' :=
  List.flatMap_append

theorem cut_append : Cut (ss ++ ss') rest ↔ Cut ss (chars ss' ++ rest) ∧ Cut ss' rest := by
  induction ss with
  | nil => simp [Cut]
  | cons s ss ih => simp [Cut, ih, and_assoc]

theorem broken_append : broken b (ss ++ ss') = broken (broken b ss) ss' := by
  induction ss generalizing b with
  | nil => rfl
  | cons s ss ih => exact ih

theorem written_ne_nil (h : s.CutFrom rest) : s.written ≠ [] := by
  cases s with
  | word w spelling =>
    obtain ⟨c, tail, rfl, -⟩ := h
    exact List.cons_ne_nil _ _
  | blank c => exact List.cons_ne_nil _ _
  | line body => exact List.cons_ne_nil _ _
  | block body => exact List.cons_ne_nil _ _

theorem Cut.chars_ne_nil (h : Cut ss rest) (hne : ss ≠ []) : chars ss ≠ [] := by
  cases ss with
  | nil => exact absurd rfl hne
  | cons s ss => exact List.append_ne_nil_of_left_ne_nil (written_ne_nil h.1) _

/-! ### Scanning segments -/

theorem scanAfter_of_trivia (h : Scan.trivia pos b (cs ++ rest) =
      (Scan.trivia (pos + byteSize cs) b' rest).map fun x => (x.1 + cs.length, x.2)) :
    Token.scanAfter pos b (cs ++ rest) = Token.scanAfter (pos + byteSize cs) b' rest := by
  rw [Token.scanAfter, Token.scanAfter, h]
  cases Scan.trivia (pos + byteSize cs) b' rest with
  | error e => rfl
  | ok x =>
    simp only [Except.map, Except.bind, Nat.add_comm x.1, List.take_length_add_append,
      List.drop_length_add_append, byteSize_append, Nat.add_assoc]

theorem commentBody?_append (h : ¬['*', '/'] <:+: body) (rest : List Char) :
    Scan.commentBody? (body ++ '*' :: '/' :: rest) = some body := by
  induction body with
  | nil => rfl
  | cons c body ih =>
    have hbody : ¬['*', '/'] <:+: body := fun hmark => h (List.infix_cons hmark)
    rw [List.cons_append, Scan.commentBody?, ih hbody, Option.map_some]
    -- the end mark does not start in the body
    intro r hc hr
    subst hc
    cases body with
    | nil => cases hr
    | cons d body =>
      obtain ⟨rfl, -⟩ := List.cons.inj hr
      exact h ⟨[], body, rfl⟩

/-- Trivia in front only moves the offset, and may break the line. -/
theorem scanAfter_trivia (h : s.CutFrom rest) (hs : s.isWord = false) :
    Token.scanAfter pos b (s.written ++ rest) =
      Token.scanAfter (pos + byteSize s.written) (s.breaks b) rest := by
  cases s with
  | word w spelling => cases hs
  | blank c => exact Token.scanAfter_blank h pos b rest
  | line body =>
    obtain ⟨hbody, hend⟩ := h
    have htake : (body ++ rest).takeWhile (· != '\n') = body := by
      have hstop : Scan.Stops (· != '\n') rest := fun d hd => by simp [hend d hd]
      rw [Scan.takeWhile_append_of_stops hstop, List.takeWhile_eq_self_iff]
      intro c hc
      have hne : c ≠ '\n' := fun heq => hbody (heq ▸ hc)
      simpa using hne
    have hslash : '/'.utf8Size = 1 := rfl
    refine scanAfter_of_trivia ?_
    show Scan.trivia pos b ('/' :: '/' :: (body ++ rest)) = _
    conv_lhs => unfold Scan.trivia
    simp only [htake, List.drop_left, written, breaks, byteSize_cons, hslash, List.length_cons]
    have hpos : pos + (1 + (1 + byteSize body)) = pos + 2 + byteSize body := by omega
    rw [hpos]
    cases Scan.trivia (pos + 2 + byteSize body) b rest <;> rfl
  | block body =>
    have hslash : '/'.utf8Size = 1 := rfl
    have hstar : '*'.utf8Size = 1 := rfl
    have hdrop : (body ++ '*' :: '/' :: rest).drop (body.length + 2) = rest := by
      rw [← List.drop_drop, List.drop_left]
      rfl
    have hsplit : written (.block body) ++ rest = '/' :: '*' :: (body ++ '*' :: '/' :: rest) := by
      simp [written]
    refine scanAfter_of_trivia ?_
    rw [hsplit]
    conv_lhs => unfold Scan.trivia
    simp only [commentBody?_append h, hdrop, written, breaks, byteSize_cons, byteSize_append, hslash,
      hstar, byteSize_nil, List.length_cons, List.length_append, List.length_nil]
    have hpos : pos + (1 + (1 + (byteSize body + (1 + (1 + 0))))) = pos + 4 + byteSize body := by
      omega
    rw [hpos]
    cases Scan.trivia (pos + 4 + byteSize body) (b || body.contains '\n') rest <;> rfl

/-- A word in front is cut off as a token. -/
theorem scanAfter_word (h : CutFrom rest (.word w spelling)) :
    Token.scanAfter pos b (spelling ++ rest) =
      (Token.scanAfter (pos + byteSize spelling) false rest).map
        (⟨w.kind, w.text, pos, b⟩ :: ·) := by
  obtain ⟨c, tail, rfl, hblank, hslash, hl⟩ := h
  rw [List.cons_append, Token.scanAfter, Scan.trivia_eq_zero hblank hslash]
  simp only [Except.bind, List.take_zero, byteSize_nil, Nat.add_zero, List.drop_zero, Token.cut, hl,
    List.take_left, List.drop_left, Token.scanFrom_eq_scanAfter]

/-- The tokens of the first segment. -/
theorem scanAfter_segment (h : s.CutFrom rest) :
    Token.scanAfter pos b (s.written ++ rest) =
      (Token.scanAfter (pos + byteSize s.written) (s.breaks b) rest).map
        (tokens pos b [s] ++ ·) := by
  cases s with
  | word w spelling => exact scanAfter_word h
  | blank c | line body | block body =>
    rw [scanAfter_trivia h rfl]
    cases Token.scanAfter _ _ rest <;> rfl

theorem tokens_cons (s : Segment) (ss : List Segment) : tokens pos b (s :: ss) =
    tokens pos b [s] ++ tokens (pos + byteSize s.written) (s.breaks b) ss := by
  cases s <;> rfl

/-- What the scanner makes of segments and of a text behind them. -/
theorem scanAfter_chars (h : Cut ss rest) : Token.scanAfter pos b (chars ss ++ rest) =
    (Token.scanAfter (pos + byteSize (chars ss)) (broken b ss) rest).map
      (tokens pos b ss ++ ·) := by
  induction ss generalizing pos b with
  | nil =>
    simp only [chars_nil, List.nil_append, byteSize_nil, Nat.add_zero, broken, tokens]
    cases Token.scanAfter pos b rest <;> rfl
  | cons s ss ih =>
    rw [chars_cons, List.append_assoc, scanAfter_segment h.1, ih h.2, tokens_cons s ss,
      byteSize_append, ← Nat.add_assoc, broken]
    cases Token.scanAfter (pos + byteSize s.written + byteSize (chars ss))
      (broken (s.breaks b) ss) rest with
    | error e => rfl
    | ok ts => simp only [Except.map, List.append_assoc]

/-! ### The segments of a text -/

/-- What is passed as trivia consists of segments, and neither a blank nor a comment follows. -/
theorem exists_cut_of_trivia {n : Nat} (h : Scan.trivia pos b cs = .ok (n, b')) :
    ∃ ss rest, Cut ss rest ∧ cs = chars ss ++ rest ∧ n = (chars ss).length ∧
      ∀ c r, rest = c :: r → isBlank c = false ∧ (c = '/' → ∀ d ∈ r.head?, d ≠ '/' ∧ d ≠ '*') := by
  fun_induction Scan.trivia pos b cs generalizing n b' with
  | case1 =>
    cases h
    exact ⟨[], [], trivial, rfl, rfl, fun c r heq => by cases heq⟩
  | case2 pos broken r line =>
    rename_i ih
    obtain ⟨⟨k, b''⟩, hk, h⟩ := bind_eq_ok.1 h
    cases h
    obtain ⟨ss, rest, hcut, hsplit, rfl, hstart⟩ := ih hk
    rw [Scan.drop_length_takeWhile] at hsplit
    refine ⟨.line line :: ss, rest, ⟨⟨lineFeed_notMem_takeWhile r, ?_⟩, hcut⟩, ?_,
      by simp [written]; omega, hstart⟩
    · rw [← hsplit]
      exact head?_dropWhile_lineFeed r
    · have hr : line ++ r.dropWhile (· != '\n') = r := List.takeWhile_append_dropWhile
      rw [← hr, hsplit]
      simp [written]
  | case3 => cases h
  | case4 pos broken r body hbody ih =>
    obtain ⟨⟨k, b''⟩, hk, h⟩ := bind_eq_ok.1 h
    cases h
    obtain ⟨ss, rest, hcut, hsplit, rfl, hstart⟩ := ih hk
    obtain ⟨tail, rfl, hmark⟩ := Scan.commentBody?_eq_some hbody
    have htail : tail = chars ss ++ rest := by
      rw [← hsplit]
      simp
    exact ⟨.block body :: ss, rest, ⟨hmark, hcut⟩, by simp [htail, written],
      by simp [written]; omega, hstart⟩
  | case5 pos broken c r _ _ hc ih =>
    obtain ⟨⟨k, b''⟩, hk, h⟩ := bind_eq_ok.1 h
    cases h
    obtain ⟨ss, rest, hcut, rfl, rfl, hstart⟩ := ih hk
    exact ⟨.blank c :: ss, rest, ⟨hc, hcut⟩, rfl, by simp [written, Nat.add_comm], hstart⟩
  | case6 pos broken c r hline hblock hc =>
    cases h
    refine ⟨[], c :: r, trivial, rfl, rfl, fun c' r' heq => ?_⟩
    obtain ⟨rfl, rfl⟩ := List.cons.inj heq
    refine ⟨by simpa using hc, ?_⟩
    rintro rfl d hd
    obtain ⟨r, rfl⟩ : ∃ r', r = d :: r' := List.head?_eq_some_iff.1 hd
    constructor
    · rintro rfl
      exact hline r rfl rfl
    · rintro rfl
      exact hblock r rfl rfl

/-- A text that is scanned has segments. -/
theorem exists_cut_of_scanAfter {ts : List Token} (h : Token.scanAfter pos b cs = .ok ts) :
    ∃ ss, Cut ss [] ∧ cs = chars ss := by
  induction hlen : cs.length using Nat.strongRecOn generalizing pos b cs ts with
  | ind len ih =>
  obtain ⟨⟨n, b'⟩, htrivia, h⟩ := bind_eq_ok.1 h
  obtain ⟨ss, rest, hcut, rfl, rfl, hstart⟩ := exists_cut_of_trivia htrivia
  dsimp only at h
  rw [List.drop_left] at h
  cases rest with
  | nil => exact ⟨ss, hcut, List.append_nil _⟩
  | cons c r =>
    rw [Token.cut] at h
    cases hl : Scan.lexeme c r with
    | error fault =>
      rw [hl] at h
      cases h
    | ok l =>
      obtain ⟨hblank, hslash⟩ := hstart c r rfl
      obtain ⟨tail, rest, rfl, hmore, -⟩ := Scan.spelledBy_of_lexeme hl
      simp only [hl, hmore, List.drop_left, Token.scanFrom_eq_scanAfter] at h
      obtain ⟨us, hus, -⟩ := map_eq_ok.1 h
      have hlt : rest.length < len := by
        rw [← hlen]
        simp only [List.length_append, List.length_cons]
        omega
      obtain ⟨ss', hcut', rfl⟩ := ih _ hlt hus rfl
      have hl' : l = ⟨l.kind, l.text, tail.length⟩ := by rw [← hmore]
      refine ⟨ss ++ .word ⟨l.kind, l.text⟩ (c :: tail) :: ss', ?_, by simp [written]⟩
      refine cut_append.2 ⟨?_, ⟨c, tail, rfl, hblank, ?_, ?_⟩, hcut'⟩
      · simpa [written] using hcut
      · simpa using hslash
      · rw [List.append_nil, hl, ← hl']

end Segment

/-- The text consists of these segments. -/
def Segmented (source : String) (ss : List Segment) : Prop :=
  Segment.Cut ss [] ∧ source.toList = Segment.chars ss

instance (source : String) (ss : List Segment) : Decidable (Segmented source ss) :=
  inferInstanceAs (Decidable (Segment.Cut ss [] ∧ source.toList = Segment.chars ss))

variable {source source' : String} {ss ss' : List Segment} {ts : List Token}

/-- A text in segments is scanned into its words. -/
theorem Segmented.scan (h : Segmented source ss) : Token.scan source =
    .ok (Segment.tokens 0 false ss ++
      [⟨.endOfFile, "", byteSize (Segment.chars ss), Segment.broken false ss⟩]) := by
  have hscan := @Segment.scanAfter_chars ss false 0 [] h.1
  have hend (pos : Nat) (b : Bool) :
      Token.scanAfter pos b [] = .ok [⟨.endOfFile, "", pos, b⟩] := by
    rw [Token.scanAfter, Scan.trivia_nil]
    simp [Except.bind, Token.cut]
  rw [List.append_nil, hend, Nat.zero_add] at hscan
  rw [Token.scan, h.2, Token.scanFrom_eq_scanAfter, hscan]
  rfl

theorem exists_segmented (h : Token.scan source = .ok ts) : ∃ ss, Segmented source ss := by
  rw [Token.scan, Token.scanFrom_eq_scanAfter] at h
  exact Segment.exists_cut_of_scanAfter h

/-! ### Comparing texts -/

namespace Segment

variable {s : Segment} {b b' : Bool} {pos : Nat} {w : Word} {rest rest' p cs spelling : List Char}
  {c : Char}

@[simp] theorem faces_nil : faces b [] = [⟨.endOfFile, "", 0, b⟩] := rfl

theorem map_unplaced_tokens (pos : Nat) (b : Bool) (ss : List Segment) :
    (tokens pos b ss).map Token.unplaced = (tokens 0 b ss).map Token.unplaced := by
  induction ss generalizing pos b with
  | nil => rfl
  | cons s ss ih =>
    cases s with
    | word w spelling =>
      rw [tokens, tokens, List.map_cons, List.map_cons, ih, ih (0 + _)]
      rfl
    | blank c | line body | block body =>
      rw [tokens, tokens, ih, ih (0 + _)]
      all_goals nofun

@[simp] theorem faces_word : faces b (.word w spelling :: ss) =
    ⟨w.kind, w.text, 0, b⟩ :: faces false ss := by
  rw [faces, tokens, List.map_cons, map_unplaced_tokens]
  rfl

theorem faces_trivia (hs : s.isWord = false) :
    faces b (s :: ss) = faces (s.breaks b) ss := by
  rw [faces, tokens_cons s, List.map_append, map_unplaced_tokens (0 + _)]
  cases s with
  | word w spelling => cases hs
  | blank c | line body | block body => rfl

theorem faces_append : faces b (ss ++ ss') =
    (tokens 0 b ss).map Token.unplaced ++ faces (broken b ss) ss' := by
  induction ss generalizing b with
  | nil => rfl
  | cons s ss ih =>
    cases s with
    | word w spelling =>
      rw [List.cons_append, faces_word, ih, tokens, List.map_cons, map_unplaced_tokens (0 + _)]
      rfl
    | blank c | line body | block body =>
      rw [List.cons_append, faces_trivia rfl, ih, tokens_cons, List.map_append,
        map_unplaced_tokens (0 + _)]
      rfl

/-- Whether the first token stands behind a line break. -/
def gap (b : Bool) : List Segment → Bool
  | [] => b
  | .word .. :: _ => b
  | s :: ss => gap (s.breaks b) ss

/-- The trivia in front of a text counts only for its first token. -/
theorem faces_eq_iff : faces b ss = faces b' ss ↔ gap b ss = gap b' ss := by
  induction ss generalizing b b' with
  | nil => simp [gap]
  | cons s ss ih =>
    cases s with
    | word w spelling => simp [gap]
    | blank c | line body | block body =>
      rw [faces_trivia rfl, faces_trivia rfl]
      exact ih

theorem gap_true : gap true ss = true := by
  induction ss with
  | nil => rfl
  | cons s ss ih =>
    cases s with
    | word w spelling => rfl
    | blank c => exact ih
    | line body => exact ih
    | block body => exact ih

/-- A segment in front of a place that no word goes past is cut off there whatever follows.  If it
is a comment to the end of the line, what follows has to be a line feed. -/
theorem CutFrom.swap (h : s.CutFrom (p ++ rest)) (hr : Scan.Halts (s.written ++ p) rest)
    (hr' : Scan.Halts (s.written ++ p) rest')
    (hline : p = [] → ∀ body, s = .line body → ∀ d ∈ rest'.head?, d = '\n') :
    s.CutFrom (p ++ rest') := by
  cases s with
  | blank c => exact h
  | block body => exact h
  | line body =>
    refine ⟨h.1, ?_⟩
    cases p with
    | nil => exact hline rfl body rfl
    | cons d p => exact h.2
  | word w spelling =>
    obtain ⟨c, tail, rfl, hblank, hslash, hl⟩ := h
    refine ⟨c, tail, rfl, hblank, fun hc => ?_, ?_⟩
    · cases htail : tail ++ p with
      | cons d cs =>
        rw [← List.append_assoc, htail] at hslash ⊢
        exact hslash hc
      | nil =>
        rw [← List.append_assoc, htail]
        intro d hd
        have hmark := hr'.mark d hd
        constructor <;> rintro rfl <;> exact absurd hmark (by decide)
    · rw [← List.append_assoc] at hl ⊢
      by_cases hquote : Escape.IsQuote c
      · rw [List.append_assoc] at hl ⊢
        exact Scan.lexeme_string_append hquote hl _
      · have hl' := (Scan.lexeme_append hquote hr).symm.trans hl
        exact (Scan.lexeme_append hquote hr').trans hl'

/-- Segments in front of a place that no word goes past are cut off there whatever follows. -/
theorem Cut.swap (h : Cut ss (p ++ rest)) (hr : Scan.Halts (chars ss ++ p) rest)
    (hr' : Scan.Halts (chars ss ++ p) rest')
    (hline : p = [] → ∀ body, ss.getLast? = some (.line body) → ∀ d ∈ rest'.head?, d = '\n') :
    Cut ss (p ++ rest') := by
  induction ss with
  | nil => trivial
  | cons s ss ih =>
    have hsplit : chars (s :: ss) ++ p = s.written ++ (chars ss ++ p) := by simp
    rw [hsplit] at hr hr'
    obtain ⟨hs, hss⟩ := h
    constructor
    · rw [← List.append_assoc] at hs ⊢
      refine hs.swap hr hr' fun hp body hbody => ?_
      obtain ⟨hchars, rfl⟩ := List.append_eq_nil_iff.1 hp
      have hnil : ss = [] := by
        by_contra hne
        exact hss.chars_ne_nil hne hchars
      subst hnil
      exact hline rfl body (by rw [hbody]; rfl)
    · cases ss with
      | nil => trivial
      | cons t ss =>
        have hne : chars (t :: ss) ++ p ≠ [] :=
          List.append_ne_nil_of_left_ne_nil (hss.chars_ne_nil (List.cons_ne_nil _ _)) _
        exact ih hss (hr.suffix hne) (hr'.suffix hne) fun hp body hbody =>
          hline hp body (by rwa [List.getLast?_cons_cons])

/-- A blank is a segment of its own. -/
theorem Cut.exists_blank (h : Cut ss rest) (hss : chars ss = c :: cs) (hc : isBlank c = true) :
    ∃ ss', ss = .blank c :: ss' ∧ Cut ss' rest ∧ chars ss' = cs := by
  cases ss with
  | nil => cases hss
  | cons s ss =>
    cases s with
    | blank d =>
      obtain ⟨rfl, rfl⟩ := List.cons.inj hss
      exact ⟨ss, rfl, h.2, rfl⟩
    | line body =>
      obtain ⟨rfl, -⟩ := List.cons.inj hss
      exact absurd hc (by decide)
    | block body =>
      obtain ⟨rfl, -⟩ := List.cons.inj hss
      exact absurd hc (by decide)
    | word w spelling =>
      obtain ⟨d, tail, rfl, hblank, -⟩ := h.1
      obtain ⟨rfl, -⟩ := List.cons.inj hss
      exact absurd (hblank.symm.trans hc) Bool.false_ne_true

/-- No word but a string has a blank in it. -/
theorem isBlank_eq_false_of_isCode (h : s.CutFrom rest) (hs : s.isCode = true)
    (hc : c ∈ s.written) : isBlank c = false := by
  cases s with
  | blank d | line body | block body => cases hs
  | word w spelling =>
    obtain ⟨d, tail, rfl, hblank, -, hl⟩ := h
    have hkind : w.kind ≠ .string := by simpa [isCode] using hs
    rw [← Bool.not_eq_true]
    intro hcblank
    rcases List.mem_cons.1 hc with rfl | hmem
    · rw [hcblank] at hblank
      cases hblank
    obtain ⟨p, q, rfl⟩ := List.append_of_mem hmem
    -- the word would end in front of the blank
    have hquote := (Scan.kind_eq_string_iff hl).not.1 hkind
    rw [List.append_assoc, List.cons_append,
      Scan.lexeme_append hquote (Scan.halts_blank hcblank)] at hl
    obtain ⟨tail, more, hp, hmore, -⟩ := Scan.spelledBy_of_lexeme hl
    have hlen := congrArg List.length hp
    simp only [List.length_append, List.length_cons] at hlen hmore
    omega

end Segment

/-- Both texts are scanned, and into the same tokens but for their places. -/
def SameFaces (source source' : String) : Prop :=
  ∃ ts us, Token.scan source = .ok ts ∧ Token.scan source' = .ok us ∧
    us.map Token.unplaced = ts.map Token.unplaced

theorem Segmented.exists_scan (h : Segmented source ss) :
    ∃ ts, Token.scan source = .ok ts ∧ ts.map Token.unplaced = Segment.faces false ss :=
  ⟨_, h.scan, by rw [List.map_append]; rfl⟩

theorem Segmented.sameFaces_iff (h : Segmented source ss) (h' : Segmented source' ss') :
    SameFaces source source' ↔ Segment.faces false ss' = Segment.faces false ss := by
  obtain ⟨ts, hts, hfaces⟩ := h.exists_scan
  obtain ⟨us, hus, hfaces'⟩ := h'.exists_scan
  rw [← hfaces, ← hfaces']
  constructor
  · rintro ⟨ts', us', hts', hus', hsame⟩
    rw [hts] at hts'
    rw [hus] at hus'
    cases hts'
    cases hus'
    exact hsame
  · exact fun hsame => ⟨ts, us, hts, hus, hsame⟩

end DebugGuard
