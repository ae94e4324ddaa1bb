import DebugGuard.Proofs.Script.Word

/-!
# Printed pieces are scanned into their words

`Piece.tokens` places the words of a list of pieces.  The scanner reads exactly these tokens off the
printed text (`Piece.scanFrom_chars`, `Piece.scan_text`), whatever text follows, as long as it does
not carry the last word on.

For texts that are not printed, `Token.Scans` says what the scanner passes and cuts off, one token
after the other.
-/

namespace DebugGuard

open Text

theorem Scan.cuts_of_valid {w : Word} (hv : w.Valid) {rest : List Char} (hr : w.Before rest) :
    Scan.Cuts w rest := by
  obtain ⟨kind, text⟩ := w
  cases kind with
  | identifier => exact cuts_identifier hv hr
  | string => exact cuts_string text rest
  | number => exact cuts_number hv hr
  | mark => exact cuts_mark hv hr
  | endOfFile => exact hv.elim

namespace Scan

theorem commentBody?_eq_some {cs body : List Char} (h : commentBody? cs = some body) :
    ∃ rest, cs = body ++ '*' :: '/' :: rest ∧ ¬['*', '/'] <:+: body := by
  fun_induction commentBody? cs generalizing body with
  | case1 => cases h
  | case2 rest =>
    cases h
    exact ⟨rest, rfl, by decide⟩
  | case3 c cs hne ih =>
    obtain ⟨body', h', rfl⟩ := Option.map_eq_some_iff.1 h
    obtain ⟨rest, rfl, hbody⟩ := ih h'
    refine ⟨rest, rfl, fun hinfix => ?_⟩
    rcases List.infix_cons_iff.1 hinfix with hprefix | hinfix
    · obtain ⟨rfl, tail, rfl⟩ := List.cons_prefix_cons.1 hprefix
      exact hne (tail ++ '*' :: '/' :: rest) rfl rfl
    · exact hbody hinfix

theorem drop_length_takeWhile (p : Char → Bool) (cs : List Char) :
    cs.drop (cs.takeWhile p).length = cs.dropWhile p := by
  have h : (cs.takeWhile p ++ cs.dropWhile p).drop (cs.takeWhile p).length = cs.dropWhile p :=
    List.drop_left
  rwa [List.takeWhile_append_dropWhile] at h

end Scan

theorem Scan.trivia_nil (pos : Nat) (broken : Bool) :
    Scan.trivia pos broken [] = .ok (0, broken) := by
  unfold Scan.trivia
  rfl

namespace Token

/-- The tokens of a text that begins with a lexeme, or is empty, at offset `start`. -/
def cut (start : Nat) (broken : Bool) (cs : List Char) : Except SourceError (List Token) :=
  match cs with
  | [] => .ok [⟨.endOfFile, "", start, broken⟩]
  | c :: r =>
    match Scan.lexeme c r with
    | .error fault => .error ⟨fault, start⟩
    | .ok l => (scanFrom (start + byteSize (c :: r.take l.more)) (r.drop l.more)).map
        (⟨l.kind, l.text, start, broken⟩ :: ·)

/-- The tokens of a text at offset `pos`, where `broken` says whether a line break stands right in
front of it. -/
def scanAfter (pos : Nat) (broken : Bool) (cs : List Char) : Except SourceError (List Token) :=
  (Scan.trivia pos broken cs).bind fun (n, b) => cut (pos + byteSize (cs.take n)) b (cs.drop n)

theorem scanFrom_eq_scanAfter (pos : Nat) (cs : List Char) :
    scanFrom pos cs = scanAfter pos false cs := by
  rw [scanFrom, scanAfter]
  cases Scan.trivia pos false cs with
  | error e => rfl
  | ok x =>
    obtain ⟨n, b⟩ := x
    simp only [bind, Except.bind]
    generalize hcs : cs.drop n = r
    split
    · rfl
    · next c r' =>
      simp only [cut]
      cases Scan.lexeme c r' with
      | error fault => rfl
      | ok l =>
        dsimp only
        cases scanFrom (pos + byteSize (cs.take n) + byteSize (c :: r'.take l.more))
          (r'.drop l.more) <;> rfl

/-- The scanner reads the tokens off the characters at offset `pos`: trivia and a lexeme in turn. -/
inductive Scans : Nat → List Char → List Token → Prop
  | last {pos cs n broken} (htrivia : Scan.trivia pos false cs = .ok (n, broken))
      (hcs : cs.drop n = []) :
      Scans pos cs [⟨.endOfFile, "", pos + byteSize (cs.take n), broken⟩]
  | token {pos cs n broken c r l ts} (htrivia : Scan.trivia pos false cs = .ok (n, broken))
      (hcs : cs.drop n = c :: r) (hl : Scan.lexeme c r = .ok l)
      (hts : Scans (pos + byteSize (cs.take n) + byteSize (c :: r.take l.more)) (r.drop l.more) ts) :
      Scans pos cs (⟨l.kind, l.text, pos + byteSize (cs.take n), broken⟩ :: ts)

theorem scans_of_scanFrom {pos : Nat} {cs : List Char} {ts : List Token}
    (h : scanFrom pos cs = .ok ts) : Scans pos cs ts := by
  induction hlen : cs.length using Nat.strongRecOn generalizing pos cs ts with
  | ind len ih =>
  rw [scanFrom] at h
  cases htrivia : Scan.trivia pos false cs with
  | error e => rw [htrivia] at h; cases h
  | ok x =>
    obtain ⟨n, broken⟩ := x
    rw [htrivia] at h
    simp only [bind, Except.bind] at h
    split at h
    · next hcs =>
      cases h
      exact .last htrivia hcs
    · next c r hcs =>
      cases hl : Scan.lexeme c r with
      | error fault => rw [hl] at h; cases h
      | ok l =>
        rw [hl] at h
        dsimp only at h
        cases hrest : scanFrom (pos + byteSize (cs.take n) + byteSize (c :: r.take l.more))
            (r.drop l.more) with
        | error e => rw [hrest] at h; cases h
        | ok rest =>
          rw [hrest] at h
          cases h
          have hlt : (r.drop l.more).length < len := by
            have := congrArg List.length hcs
            simp only [List.length_drop, List.length_cons] at this ⊢
            omega
          exact .token htrivia hcs hl (ih _ hlt hrest rfl)

/-- A blank in front only moves the offset, and may break the line. -/
theorem scanAfter_blank {c : Char} (hb : isBlank c = true) (pos : Nat) (broken : Bool)
    (cs : List Char) :
    scanAfter pos broken (c :: cs) = scanAfter (pos + c.utf8Size) (broken || breaksLine c) cs := by
  have hslash : c ≠ '/' := by rintro rfl; exact absurd hb (by decide)
  have htrivia : Scan.trivia pos broken (c :: cs) =
      (Scan.trivia (pos + c.utf8Size) (broken || breaksLine c) cs).map fun x => (x.1 + 1, x.2) := by
    conv_lhs => unfold Scan.trivia
    split
    · next heq => cases heq
    · next heq => exact absurd (List.cons.inj heq).1 hslash
    · next heq => exact absurd (List.cons.inj heq).1 hslash
    · next heq =>
      obtain ⟨rfl, rfl⟩ := List.cons.inj heq
      rw [if_pos hb]
      cases Scan.trivia (pos + c.utf8Size) (broken || breaksLine c) cs <;> rfl
  rw [scanAfter, scanAfter, htrivia]
  cases Scan.trivia (pos + c.utf8Size) (broken || breaksLine c) cs with
  | error e => rfl
  | ok x =>
    simp only [Except.map, Except.bind, List.take_succ_cons, byteSize_cons, List.drop_succ_cons,
      Nat.add_assoc]

/-- A word in front is cut off as a token. -/
theorem scanAfter_word {w : Word} {rest : List Char} (h : Scan.Cuts w rest) (pos : Nat)
    (broken : Bool) :
    scanAfter pos broken (w.written ++ rest) =
      (scanAfter (pos + byteSize w.written) false rest).map
        (⟨w.kind, w.text, pos, broken⟩ :: ·) := by
  obtain ⟨c, r, hw, hblank, hslash, l, hl, hkind, htext, hmore⟩ := h
  rw [hw, List.cons_append, scanAfter, Scan.trivia_eq_zero hblank hslash]
  simp only [Except.bind, List.take_zero, byteSize_nil, Nat.add_zero, List.drop_zero, cut, hl,
    hkind, htext, hmore, List.take_left, List.drop_left, scanFrom_eq_scanAfter]

end Token

namespace Piece

/-- The tokens of the words of `ps`, which stand at offset `pos`. -/
def tokens (pos : Nat) (broken : Bool) : List Piece → List Token
  | [] => []
  | .word w :: ps => ⟨w.kind, w.text, pos, broken⟩ :: tokens (pos + byteSize w.written) false ps
  | .blanks count :: ps => tokens (pos + count) broken ps
  | .lineFeed :: ps => tokens (pos + 1) true ps

/-- Whether a line break stands behind the last word of `ps`. -/
def breaks (broken : Bool) : List Piece → Bool
  | [] => broken
  | .word _ :: ps => breaks false ps
  | .blanks _ :: ps => breaks broken ps
  | .lineFeed :: ps => breaks true ps

/-- No word of `ps` is carried on by what follows it in front of `rest`. -/
def Apart : List Piece → List Char → Prop
  | [], _ => True
  | .word w :: ps, rest => w.Before (chars ps ++ rest) ∧ Apart ps rest
  | .blanks _ :: ps, rest => Apart ps rest
  | .lineFeed :: ps, rest => Apart ps rest

/-- All words are such that the scanner knows. -/
def Valid (ps : List Piece) : Prop :=
  ∀ w, word w ∈ ps → w.Valid

@[simp] theorem chars_nil : chars [] = [] := rfl

@[simp] theorem chars_cons (p : Piece) (ps : List Piece) :
    chars (p :: ps) = p.written ++ chars ps := rfl

@[simp] theorem chars_append (ps qs : List Piece) : chars (ps ++ qs) = chars ps ++ chars qs :=
  List.flatMap_append

theorem byteSize_replicate_space (n : Nat) : byteSize (List.replicate n ' ') = n := by
  induction n with
  | zero => rfl
  | succ n ih => rw [List.replicate_succ, byteSize_cons, ih, Nat.add_comm]; rfl

theorem scanAfter_blanks (n pos : Nat) (broken : Bool) (cs : List Char) :
    Token.scanAfter pos broken (List.replicate n ' ' ++ cs) =
      Token.scanAfter (pos + n) broken cs := by
  induction n generalizing pos with
  | zero => rfl
  | succ n ih =>
    have hb : breaksLine ' ' = false := by decide
    have hs : ' '.utf8Size = 1 := rfl
    rw [List.replicate_succ, List.cons_append, Token.scanAfter_blank (by decide), hb, hs,
      Bool.or_false, ih, Nat.add_assoc, Nat.add_comm 1]

/-- Scanning printed pieces and a text behind them. -/
theorem scanAfter_chars {ps : List Piece} {rest : List Char} (hv : Valid ps)
    (ha : Apart ps rest) (pos : Nat) (broken : Bool) :
    Token.scanAfter pos broken (chars ps ++ rest) =
      (Token.scanAfter (pos + byteSize (chars ps)) (breaks broken ps) rest).map
        (tokens pos broken ps ++ ·) := by
  induction ps generalizing pos broken with
  | nil =>
    simp only [chars_nil, List.nil_append, byteSize_nil, Nat.add_zero, breaks, tokens]
    cases Token.scanAfter pos broken rest <;> rfl
  | cons p ps ih =>
    have hv' : Valid ps := fun w hw => hv w (List.mem_cons_of_mem _ hw)
    rw [chars_cons, List.append_assoc]
    cases p with
    | word w =>
      have hw : w.Valid := hv w List.mem_cons_self
      rw [written, Token.scanAfter_word (Scan.cuts_of_valid hw ha.1), ih hv' ha.2]
      simp only [byteSize_append, breaks, tokens, Nat.add_assoc]
      cases Token.scanAfter (pos + (byteSize w.written + byteSize (chars ps))) (breaks false ps)
        rest <;> rfl
    | blanks n =>
      rw [written, scanAfter_blanks, ih hv' ha]
      simp only [byteSize_append, byteSize_replicate_space, breaks, tokens, Nat.add_assoc]
    | lineFeed =>
      have hb : (broken || breaksLine '\n') = true := by rw [Bool.or_eq_true]; exact .inr rfl
      have hs : '\n'.utf8Size = 1 := rfl
      rw [written, List.singleton_append, Token.scanAfter_blank (by decide), hb, hs, ih hv' ha]
      simp only [List.singleton_append, byteSize_cons, hs, breaks, tokens, Nat.add_assoc]

/-- A printed text is scanned into the words it was printed from. -/
theorem scan_text {ps : List Piece} (hv : Valid ps) (ha : Apart ps []) :
    Token.scan (text ps) = .ok (tokens 0 false ps ++
      [⟨.endOfFile, "", byteSize (chars ps), breaks false ps⟩]) := by
  have hend : Token.scanAfter (0 + byteSize (chars ps)) (breaks false ps) [] =
      .ok [⟨.endOfFile, "", byteSize (chars ps), breaks false ps⟩] := by
    rw [Token.scanAfter, Scan.trivia_nil]
    simp [Except.bind, Token.cut]
  have := scanAfter_chars hv ha 0 false
  rw [List.append_nil, hend] at this
  rw [Token.scan, text, String.toList_ofList, Token.scanFrom_eq_scanAfter, this]
  rfl

end Piece

end DebugGuard
