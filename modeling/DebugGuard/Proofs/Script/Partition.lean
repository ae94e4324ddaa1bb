import DebugGuard.Proofs.Script.Bytes
import DebugGuard.Proofs.Text.Literal

/-!
# How the tokens cut a text

A source text consists of trivia and tokens in turn (`Token.Tile`): blanks and complete comments,
then the characters of a token, and so on up to the end of file.  No character is left out and none
is read twice.  Positions count bytes, but the pieces are whole characters, so each piece starts and
ends between two characters.  The scanner that goes through the bytes cuts the text into the same
pieces and never fails.

Main statement: `scan_partition`.
-/

namespace DebugGuard

open Text

/-! ### Words in a source text -/

/-- The characters may stand for the word in a source text.  A string is written between quotes of
one kind, every other word as it is. -/
def Word.SpelledBy (w : Word) (cs : List Char) : Prop :=
  match w.kind with
  | .string => ∃ quote body, Escape.IsQuote quote ∧ Escape.Enclosed quote body ∧
      cs = quote :: (body ++ [quote])
  | .endOfFile => cs = []
  | _ => cs = w.text.toList ∧ cs ≠ []

theorem Word.SpelledBy.ne_nil {w : Word} {cs : List Char} (h : w.SpelledBy cs)
    (hw : w.kind ≠ .endOfFile) : cs ≠ [] := by
  obtain ⟨kind, text⟩ := w
  cases kind with
  | endOfFile => exact absurd rfl hw
  | string =>
    obtain ⟨quote, body, -, -, rfl⟩ := h
    exact List.cons_ne_nil _ _
  | identifier | number | mark => exact h.2

namespace Scan

/-! ### Trivia -/

/-- Blanks and complete comments in front of `rest`.  A comment to the end of the line is complete
in front of a line feed and at the end of the text, a block comment with its first end mark. -/
inductive IsTrivia (rest : List Char) : List Char → Prop
  | nil : IsTrivia rest []
  | blank {c cs} (hc : isBlank c = true) (hcs : IsTrivia rest cs) : IsTrivia rest (c :: cs)
  | line {body cs} (hbody : '\n' ∉ body) (hend : ∀ c ∈ (cs ++ rest).head?, c = '\n')
      (hcs : IsTrivia rest cs) : IsTrivia rest ('/' :: '/' :: (body ++ cs))
  | block {body cs} (hbody : ¬['*', '/'] <:+: body) (hcs : IsTrivia rest cs) :
      IsTrivia rest ('/' :: '*' :: (body ++ '*' :: '/' :: cs))

variable {pos n : Nat} {broken b : Bool} {cs : List Char}

/-- What is passed as trivia is trivia. -/
theorem isTrivia_of_trivia (h : trivia pos broken cs = .ok (n, b)) :
    ∃ gap rest, cs = gap ++ rest ∧ n = gap.length ∧ IsTrivia rest gap := by
  fun_induction trivia pos broken cs generalizing n b with
  | case1 =>
    cases h
    exact ⟨[], [], rfl, rfl, .nil⟩
  | case2 pos broken r line =>
    rename_i ih
    obtain ⟨⟨k, b'⟩, hk, h⟩ := bind_eq_ok.1 h
    cases h
    obtain ⟨gap, rest, hgap, rfl, htrivia⟩ := ih hk
    rw [drop_length_takeWhile] at hgap
    refine ⟨'/' :: '/' :: (line ++ gap), rest, ?_, by simp; omega, .line ?_ ?_ htrivia⟩
    · have hr : line ++ r.dropWhile (· != '\n') = r := List.takeWhile_append_dropWhile
      rw [← hr, hgap]
      simp
    · exact fun hmem => absurd (List.mem_takeWhile_imp hmem) (by decide)
    · intro c hc
      have hend := List.head?_dropWhile_not (· != '\n') r
      rw [hgap, hc] at hend
      simpa using hend
  | case3 => cases h
  | case4 pos broken r body hbody ih =>
    obtain ⟨⟨k, b'⟩, hk, h⟩ := bind_eq_ok.1 h
    cases h
    obtain ⟨gap, rest, hgap, rfl, htrivia⟩ := ih hk
    obtain ⟨tail, rfl, hinfix⟩ := commentBody?_eq_some hbody
    have htail : tail = gap ++ rest := by
      rw [← hgap]
      simp
    exact ⟨'/' :: '*' :: (body ++ '*' :: '/' :: gap), rest, by simp [htail], by simp; omega,
      .block hinfix htrivia⟩
  | case5 pos broken c r _ _ hc ih =>
    obtain ⟨⟨k, b'⟩, hk, h⟩ := bind_eq_ok.1 h
    cases h
    obtain ⟨gap, rest, rfl, rfl, htrivia⟩ := ih hk
    exact ⟨c :: gap, rest, rfl, rfl, .blank hc htrivia⟩
  | case6 pos broken c r =>
    cases h
    exact ⟨[], c :: r, rfl, rfl, .nil⟩

/-- A comment without its end is reported where it starts. -/
theorem exists_of_trivia_error {e : SourceError} (h : trivia pos broken cs = .error e) :
    ∃ gap rest, cs = gap ++ rest ∧ rest ≠ [] ∧ e.start = pos + byteSize gap := by
  fun_induction trivia pos broken cs with
  | case1 => cases h
  | case2 pos broken r line ih =>
    obtain h | ⟨a, -, h⟩ := bind_eq_error.1 h
    · obtain ⟨gap, rest, hgap, hrest, hpos⟩ := ih h
      have hr : line ++ r.drop line.length = r := by
        rw [drop_length_takeWhile]
        exact List.takeWhile_append_dropWhile
      have hslash : '/'.utf8Size = 1 := rfl
      refine ⟨'/' :: '/' :: (line ++ gap), rest, ?_, hrest, ?_⟩
      · rw [← hr, hgap]
        simp
      · rw [hpos, byteSize_cons, byteSize_cons, byteSize_append, hslash]
        omega
    · cases h
  | case3 pos broken r =>
    cases h
    exact ⟨[], _, rfl, List.cons_ne_nil _ _, rfl⟩
  | case4 pos broken r body hbody ih =>
    obtain h | ⟨a, -, h⟩ := bind_eq_error.1 h
    · obtain ⟨gap, rest, hgap, hrest, hpos⟩ := ih h
      obtain ⟨tail, rfl, -⟩ := commentBody?_eq_some hbody
      have htail : tail = gap ++ rest := by
        rw [← hgap]
        simp
      have hslash : '/'.utf8Size = 1 := rfl
      have hstar : '*'.utf8Size = 1 := rfl
      refine ⟨'/' :: '*' :: (body ++ '*' :: '/' :: gap), rest, by simp [htail], hrest, ?_⟩
      simp only [hpos, byteSize_cons, byteSize_append, hslash, hstar]
      omega
    · cases h
  | case5 pos broken c r _ _ hc ih =>
    obtain h | ⟨a, -, h⟩ := bind_eq_error.1 h
    · obtain ⟨gap, rest, rfl, hrest, hpos⟩ := ih h
      exact ⟨c :: gap, rest, rfl, hrest, by rw [hpos, byteSize_cons, Nat.add_assoc]⟩
    · cases h
  | case6 => cases h

/-! ### Lexemes -/

/-- A lexeme is its word, spelled. -/
theorem spelledBy_of_lexeme {c : Char} {r : List Char} {l : Lexeme} (h : lexeme c r = .ok l) :
    ∃ tail rest, r = tail ++ rest ∧ l.more = tail.length ∧
      Word.SpelledBy ⟨l.kind, l.text⟩ (c :: tail) := by
  unfold lexeme at h
  split at h
  · next hquote =>
    cases hbody : Escape.literalBody c r with
    | error e => rw [hbody] at h; cases h
    | ok x =>
      obtain ⟨value, n⟩ := x
      rw [hbody] at h
      cases h
      obtain ⟨body, rest, rfl, rfl, henclosed⟩ := Escape.enclosed_of_literalBody hquote hbody
      exact ⟨body ++ [c], rest, by simp, by simp, c, body, hquote, henclosed, rfl⟩
  split at h
  · next hstart =>
    cases h
    obtain ⟨hone, -⟩ := lt_numeralLength hstart
    have hle := numeralLength_le (c :: r)
    obtain ⟨n, hn⟩ : ∃ n, numeralLength (c :: r) = n + 1 := ⟨numeralLength (c :: r) - 1, by omega⟩
    rw [hn, List.length_cons] at hle
    exact ⟨r.take n, r.drop n, (List.take_append_drop n r).symm, by simp [hn]; omega,
      by rw [hn, List.take_succ_cons, String.toList_ofList], List.cons_ne_nil _ _⟩
  split at h
  · next hname =>
    cases h
    exact ⟨r.takeWhile isNamePart, _, List.takeWhile_append_dropWhile.symm, rfl,
      String.toList_ofList.symm, List.cons_ne_nil _ _⟩
  · split at h
    · next m hm =>
      cases h
      obtain ⟨⟨rest, hrest⟩, hne⟩ := mark?_eq_some hm
      obtain ⟨d, tail, htail⟩ := List.exists_cons_of_ne_nil hne
      rw [htail] at hrest
      obtain ⟨rfl, rfl⟩ := List.cons.inj hrest
      exact ⟨tail, rest, rfl, by simp [← String.length_toList, htail], htail.symm,
        List.cons_ne_nil _ _⟩
    · cases h

end Scan

/-! ### Tokens over a text -/

namespace Token

/-- The tokens lie over the characters at offset `pos`, one behind the other: first the trivia in
front of a token, then the characters of the token.  The end of file stands behind the last
character. -/
inductive Tile : Nat → List Char → List Token → Prop
  | last {pos gap broken} (hgap : Scan.IsTrivia [] gap) :
      Tile pos gap [⟨.endOfFile, "", pos + byteSize gap, broken⟩]
  | token {pos gap word rest t ts} (hgap : Scan.IsTrivia (word ++ rest) gap)
      (hpos : t.start = pos + byteSize gap) (hkind : t.kind ≠ .endOfFile)
      (hword : t.word.SpelledBy word) (hts : Tile (t.start + byteSize word) rest ts) :
      Tile pos (gap ++ (word ++ rest)) (t :: ts)

variable {pos : Nat} {cs : List Char} {ts : List Token}

theorem Scans.tile (h : Scans pos cs ts) : Tile pos cs ts := by
  induction h with
  | last htrivia hcs =>
    obtain ⟨gap, rest, rfl, rfl, hgap⟩ := Scan.isTrivia_of_trivia htrivia
    rw [List.drop_left] at hcs
    subst hcs
    rw [List.take_left, List.append_nil]
    exact .last hgap
  | token htrivia hcs hl _ ih =>
    obtain ⟨gap, rest, rfl, rfl, hgap⟩ := Scan.isTrivia_of_trivia htrivia
    rw [List.drop_left] at hcs
    subst hcs
    have hkind := (Scan.valid_of_lexeme hl).kind_ne
    obtain ⟨tail, rest, rfl, hmore, hword⟩ := Scan.spelledBy_of_lexeme hl
    simp only [hmore, List.take_left, List.drop_left] at ih ⊢
    rw [← List.cons_append] at hgap ⊢
    exact .token hgap rfl hkind hword ih

/-- Nothing is refused behind the last character. -/
theorem exists_of_scanFrom_error {e : SourceError} (h : scanFrom pos cs = .error e) :
    ∃ before rest, cs = before ++ rest ∧ rest ≠ [] ∧ e.start = pos + byteSize before := by
  induction hlen : cs.length using Nat.strongRecOn generalizing pos cs with
  | ind len ih =>
  rw [scanFrom_eq_scanAfter] at h
  obtain htrivia | ⟨⟨n, broken⟩, htrivia, h⟩ := bind_eq_error.1 h
  · exact Scan.exists_of_trivia_error htrivia
  obtain ⟨gap, rest, rfl, rfl, -⟩ := Scan.isTrivia_of_trivia htrivia
  simp only [List.take_left, List.drop_left] at h
  cases rest with
  | nil => cases h
  | cons c r =>
    simp only [cut] at h
    cases hl : Scan.lexeme c r with
    | error fault =>
      rw [hl] at h
      cases h
      exact ⟨gap, c :: r, rfl, List.cons_ne_nil _ _, rfl⟩
    | ok l =>
      obtain ⟨tail, rest, rfl, hmore, -⟩ := Scan.spelledBy_of_lexeme hl
      simp only [hl, hmore, List.take_left, List.drop_left] at h
      cases hrest : scanFrom (pos + byteSize gap + byteSize (c :: tail)) rest with
      | ok us => rw [hrest] at h; cases h
      | error e' =>
        rw [hrest] at h
        cases h
        have hlt : rest.length < len := by
          simp only [List.length_append, List.length_cons] at hlen
          omega
        obtain ⟨before, rest, rfl, hne, hpos⟩ := ih _ hlt hrest rfl
        exact ⟨gap ++ (c :: tail ++ before), rest, by simp, hne, by simp [hpos]; omega⟩

/-- A token stands at the characters that spell it. -/
theorem Tile.spelled (h : Tile pos cs ts) {t : Token} (ht : t ∈ ts) :
    ∃ before word rest, cs = before ++ word ++ rest ∧ t.start = pos + byteSize before ∧
      t.word.SpelledBy word := by
  induction h with
  | @last pos gap broken hgap =>
    rw [List.mem_singleton] at ht
    exact ⟨gap, [], [], by simp, by rw [ht], by rw [ht]; rfl⟩
  | @token pos gap word rest u us _ hpos _ hword _ ih =>
    rcases List.mem_cons.1 ht with rfl | ht
    · exact ⟨gap, word, rest, (List.append_assoc ..).symm, hpos, hword⟩
    · obtain ⟨before, word', rest', rfl, hpos', hword'⟩ := ih ht
      exact ⟨gap ++ (word ++ before), word', rest', by simp, by simp [hpos', hpos]; omega, hword'⟩

theorem Tile.le_pos (h : Tile pos cs ts) {t : Token} (ht : t ∈ ts) : pos ≤ t.start := by
  obtain ⟨before, -, -, -, hpos, -⟩ := h.spelled ht
  omega

theorem Tile.pairwise (h : Tile pos cs ts) : ts.Pairwise (·.start < ·.start) := by
  induction h with
  | last => exact List.pairwise_singleton ..
  | token _ _ hkind hword hts ih =>
    refine List.pairwise_cons.2 ⟨fun u hu => ?_, ih⟩
    have hsize := byteSize_pos (hword.ne_nil hkind)
    have := hts.le_pos hu
    omega

/-- The end of file stands behind the last character, and nowhere else. -/
theorem Tile.ends (h : Tile pos cs ts) : ∃ ws e, ts = ws ++ [e] ∧ e.kind = .endOfFile ∧
    e.start = pos + byteSize cs ∧ ∀ w ∈ ws, w.kind ≠ .endOfFile := by
  induction h with
  | last => exact ⟨[], _, rfl, rfl, rfl, by simp⟩
  | @token pos gap word rest t ts _ hpos hkind _ _ ih =>
    obtain ⟨ws, e, rfl, he, hepos, hws⟩ := ih
    refine ⟨t :: ws, e, rfl, he, by simp [hepos, hpos]; omega, fun w hw => ?_⟩
    rcases List.mem_cons.1 hw with rfl | hw
    · exact hkind
    · exact hws w hw

/-! ### The partition -/

/-- The tokens cut the text into pieces. -/
structure Partition (source : String) (ts : List Token) : Prop where
  /-- Trivia and tokens in turn make up the text. -/
  tile : Tile 0 source.toList ts
  rising : ts.Pairwise (·.start < ·.start)
  /-- The end of file stands behind the last byte, and nowhere else. -/
  ends : ∃ ws e, ts = ws ++ [e] ∧ e.kind = .endOfFile ∧ e.start = source.utf8ByteSize ∧
    ∀ w ∈ ws, w.kind ≠ .endOfFile
  /-- A token is spelled by the slice of the text at its position. -/
  slices : ∀ t ∈ ts, ∃ word, t.word.SpelledBy word ∧
    Slice source t.start (t.start + byteSize word) (.ofList word)
  /-- Thirty-two bits are enough for the positions of a text that is short enough. -/
  kept : source.utf8ByteSize < UInt32.size → ∀ t ∈ ts, t.pos = t.start

theorem pairwise_of_scan {source : String} {ts : List Token} (h : scan source = .ok ts) :
    ts.Pairwise (·.start < ·.start) :=
  (scans_of_scanFrom h).tile.pairwise

theorem Tile.partition {source : String} (h : Tile 0 source.toList ts) : Partition source ts where
  tile := h
  rising := h.pairwise
  ends := by
    rw [utf8ByteSize_eq, ← Nat.zero_add (byteSize _)]
    exact h.ends
  slices t ht := by
    obtain ⟨before, word, rest, hsplit, hpos, hword⟩ := h.spelled ht
    rw [hpos, Nat.zero_add]
    exact ⟨word, hword, slice_of_split hsplit⟩
  kept hsize t ht := by
    obtain ⟨before, word, rest, hsplit, hpos, -⟩ := h.spelled ht
    rw [utf8ByteSize_eq, hsplit, byteSize_append, byteSize_append] at hsize
    exact position_of_lt (by omega)

/-- The scanner partitions every text, or reports a fault between two characters, in front of at
least one of them.  Going through the bytes of the text it does the same, and neither cuts within a
character nor goes on forever. -/
theorem scan_partition (source : String) :
    (scanBytes source).run = some (scan source) ∧
    match scan source with
    | .ok ts => Partition source ts
    | .error e => String.Pos.Raw.IsValid source ⟨e.start⟩ ∧ e.start < source.utf8ByteSize ∧
        (source.utf8ByteSize < UInt32.size → e.pos = e.start) := by
  refine ⟨scanBytes_eq source, ?_⟩
  cases h : scan source with
  | ok ts => exact (scans_of_scanFrom h).tile.partition
  | error e =>
    obtain ⟨before, rest, hsplit, hne, hpos⟩ := exists_of_scanFrom_error h
    have hlt : e.start < source.utf8ByteSize := by
      rw [hpos, Nat.zero_add, utf8ByteSize_eq, hsplit, byteSize_append]
      exact Nat.lt_add_of_pos_right (byteSize_pos hne)
    refine ⟨?_, hlt, fun hsize => position_of_lt (Nat.lt_trans hlt hsize)⟩
    rw [hpos, Nat.zero_add]
    exact isValid_of_split hsplit

end Token

end DebugGuard
