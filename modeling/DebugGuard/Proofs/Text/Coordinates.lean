import DebugGuard.Proofs.Text.Bytes
import DebugGuard.Proofs.Text.Lines
import Mathlib

/-!
# Places as coordinates

A place is a line and a column, an offset a number of bytes, and in between characters are counted.
The places of a text stand for the byte offsets between its characters: they come in the same order
(`Place.after_lt_append`), and lead back to the offsets (`Place.offset?_eq_some_iff`).  All other
offsets take part by the nearest of these in front of them.

`Place.locate?` finds the place by steps that may fail: a search for the nearest offset at which the
text can be cut, a slice up to it, and a slice from the last line feed on.  None of them does
(`Place.locate?_eq`).

Main statement: `Place.ofOffset_coordinates`.
-/

namespace DebugGuard.Text

variable {source : String} {before line rest cs : List Char} {c : Char} {n p : Nat}

/-! ### The order of places -/

/-- Lines first, and columns within a line. -/
instance : PartialOrder Place :=
  PartialOrder.lift (fun place => toLex (place.line, place.column)) fun a b h => by
    cases a
    cases b
    simpa using h

namespace Place

theorem lt_iff {a b : Place} : a < b ↔ a.line < b.line ∨ a.line = b.line ∧ a.column < b.column :=
  Prod.Lex.toLex_lt_toLex

theorem after_lt_concat (cs : List Char) (c : Char) : after cs < after (cs ++ [c]) := by
  rw [after_concat, lt_iff]
  split_ifs
  · exact .inl (Nat.lt_succ_self _)
  · exact .inr ⟨rfl, Nat.lt_succ_self _⟩

theorem after_lt_append {more : List Char} (h : more ≠ []) : after cs < after (cs ++ more) := by
  induction more using List.reverseRecOn with
  | nil => exact absurd rfl h
  | append_singleton more c ih =>
    rw [← List.append_assoc]
    have hlast := after_lt_concat (cs ++ more) c
    by_cases hmore : more = []
    · simpa [hmore] using hlast
    · exact (ih hmore).trans hlast

theorem ofOffset_lt {q : Nat} (hp : String.Pos.Raw.IsValid source ⟨p⟩)
    (hq : String.Pos.Raw.IsValid source ⟨q⟩) (hlt : p < q) :
    ofOffset source p < ofOffset source q := by
  obtain ⟨before, rest, hsplit, rfl⟩ := isValid_iff_split.1 hp
  obtain ⟨before', rest', hsplit', rfl⟩ := isValid_iff_split.1 hq
  obtain ⟨more, hmore, rfl⟩ := exists_append_of_lt (hsplit.symm.trans hsplit') hlt
  rw [ofOffset_byteSize hsplit, ofOffset_byteSize hsplit']
  exact after_lt_append hmore

end Place

/-! ### Line feeds among the bytes -/

theorem notMem_utf8EncodeChar (hc : c ≠ '\n') : 10 ∉ String.utf8EncodeChar c := by
  by_cases h : IsAscii c
  · rw [utf8EncodeChar_of_isAscii h, List.mem_singleton]
    exact fun heq => hc ((ofNat_inj_of_isAscii h (show '\n'.toNat < 128 by decide)).1 heq.symm)
  · exact fun hm => absurd (le_of_mem_utf8EncodeChar h hm) (by decide)

/-- Each line feed is one byte, and no other character has such a byte, so it does not matter where
the bytes are cut. -/
theorem count_take_utf8EncodeChar (n : Nat) (cs : List Char) :
    ((utf8 cs).take n).count 10 = (fitting n cs).count '\n' := by
  induction cs generalizing n with
  | nil => simp [fitting]
  | cons c cs ih =>
    rw [utf8_cons, List.take_append, List.count_append, ih, String.length_utf8EncodeChar,
      fitting]
    split_ifs with hfit
    · rw [List.take_of_length_le (by rwa [String.length_utf8EncodeChar]), List.count_cons]
      by_cases hc : c = '\n'
      · subst hc
        exact Nat.add_comm ..
      · rw [List.count_eq_zero_of_not_mem (notMem_utf8EncodeChar hc), Nat.zero_add,
          if_neg (by simpa using hc), Nat.add_zero]
    · have htake : 10 ∉ (String.utf8EncodeChar c).take n := by
        by_cases hc : c = '\n'
        · subst hc
          rw [Nat.lt_one_iff.1 (Nat.lt_of_not_le hfit), List.take_zero]
          exact List.not_mem_nil
        · exact fun h => notMem_utf8EncodeChar hc (List.mem_of_mem_take h)
      rw [Nat.sub_eq_zero_of_le (Nat.le_of_not_le hfit), fitting_zero,
        List.count_eq_zero_of_not_mem htake, List.count_nil]

/-! ### The search for a place -/

/-- The nearest offset at or in front of the given one at which the text can be cut; none if the
search passes the start of the text. -/
def boundary? (source : String) : Nat → Option Nat
  | 0 => if String.Pos.Raw.isValid source ⟨0⟩ then some 0 else none
  | n + 1 => if String.Pos.Raw.isValid source ⟨n + 1⟩ then some (n + 1) else boundary? source n

/-- The byte offset of the last line feed. -/
def lastLineFeed? : List Char → Option Nat
  | [] => none
  | c :: cs =>
    match lastLineFeed? cs with
    | some p => some (c.utf8Size + p)
    | none => if c = '\n' then some 0 else none

/-- The byte offset at which the last line starts. -/
def lastLineStart (cs : List Char) : Nat :=
  (lastLineFeed? cs).elim 0 (· + 1)

/-- The place of a byte offset, by steps that may fail. -/
def Place.locate? (source : String) (offset : Nat) : Option Place := do
  let stop ← boundary? source (min offset source.utf8ByteSize)
  let before ← slice? source 0 stop
  let line ← slice? before (lastLineStart before.toList) before.utf8ByteSize
  return ⟨before.toList.count '\n' + 1, line.toList.length + 1⟩

theorem boundary?_eq (hvalid : String.Pos.Raw.IsValid source ⟨p⟩) (hle : p ≤ n)
    (hmax : ∀ q, String.Pos.Raw.IsValid source ⟨q⟩ → q ≤ n → q ≤ p) :
    boundary? source n = some p := by
  induction n with
  | zero =>
    obtain rfl := Nat.le_zero.1 hle
    rw [boundary?, if_pos (String.Pos.Raw.isValid_eq_true_iff.2 hvalid)]
  | succ n ih =>
    rw [boundary?]
    split_ifs with hn
    · rw [Nat.le_antisymm hle (hmax (n + 1) (String.Pos.Raw.isValid_eq_true_iff.1 hn) le_rfl)]
    · have hne : p ≠ n + 1 := by
        rintro rfl
        exact hn (String.Pos.Raw.isValid_eq_true_iff.2 hvalid)
      exact ih (by omega) fun q hq hqn => hmax q hq (Nat.le_succ_of_le hqn)

theorem boundary?_min (source : String) (offset : Nat) :
    boundary? source (min offset source.utf8ByteSize) =
      some (byteSize (fitting offset source.toList)) := by
  obtain ⟨rest, hsplit, hfit, hnext⟩ := exists_fitting offset source.toList
  generalize fitting offset source.toList = before at hsplit hfit hnext ⊢
  refine boundary?_eq (isValid_of_split hsplit) (le_min hfit ?_) fun q hq hle => ?_
  · rw [utf8ByteSize_eq, hsplit, byteSize_append]
    exact Nat.le_add_right ..
  · -- a later cut would have the next character in front of it, which does not fit
    obtain ⟨before', rest', hsplit', rfl⟩ := isValid_iff_split.1 hq
    by_contra hlt
    obtain ⟨more, hmore, rfl⟩ := exists_append_of_lt (hsplit.symm.trans hsplit') (Nat.lt_of_not_le hlt)
    obtain ⟨c, more, rfl⟩ := List.exists_cons_of_ne_nil hmore
    rw [hsplit, List.append_assoc, List.append_cancel_left_eq] at hsplit'
    have := hnext c (by rw [hsplit']; rfl)
    rw [byteSize_append, byteSize_cons] at hle
    omega

theorem lastLineFeed?_of_notMem (h : '\n' ∉ line) : lastLineFeed? line = none := by
  induction line with
  | nil => rfl
  | cons c line ih =>
    rw [List.mem_cons, not_or] at h
    rw [lastLineFeed?, ih h.2]
    exact if_neg (Ne.symm h.1)

theorem lastLineFeed?_append (earlier : List Char) (h : '\n' ∉ line) :
    lastLineFeed? (earlier ++ '\n' :: line) = some (byteSize earlier) := by
  induction earlier with
  | nil =>
    rw [List.nil_append, lastLineFeed?, lastLineFeed?_of_notMem h]
    rfl
  | cons c earlier ih =>
    rw [List.cons_append, lastLineFeed?, ih]
    rfl

/-- The last line starts behind the last line feed, and its length gives the column. -/
theorem exists_lastLine (cs : List Char) : ∃ earlier line, cs = earlier ++ line ∧
    lastLineStart cs = byteSize earlier ∧ (Place.after cs).column = line.length + 1 := by
  rcases lastLine_cases cs with hcs | ⟨earlier, line, hline, rfl⟩
  · refine ⟨[], cs, rfl, ?_, ?_⟩
    · rw [lastLineStart, lastLineFeed?_of_notMem hcs]
      rfl
    · rw [Place.after_line hcs]
  · refine ⟨earlier ++ ['\n'], line, by simp, ?_, ?_⟩
    · rw [lastLineStart, lastLineFeed?_append earlier hline, byteSize_append]
      rfl
    · rw [Place.after_append_lineFeed, Place.after_line hline]

/-- No step fails, and what they find is the place. -/
theorem Place.locate?_eq (source : String) (offset : Nat) :
    locate? source offset = some (ofOffset source offset) := by
  obtain ⟨rest, hsplit, -⟩ := exists_fitting offset source.toList
  rw [locate?, boundary?_min, ofOffset]
  generalize fitting offset source.toList = before at hsplit ⊢
  obtain ⟨earlier, line, hlast, hstart, hcolumn⟩ := exists_lastLine before
  have hbefore : slice? source 0 (byteSize before) = some (.ofList before) := by
    have hsplit' : source.toList = [] ++ before ++ rest := hsplit
    simpa using slice?_of_split hsplit'
  have hline : slice? (.ofList before) (lastLineStart before) (byteSize before) =
      some (.ofList line) := by
    have hsplit' : (String.ofList before).toList = earlier ++ line ++ [] := by simpa using hlast
    have hsize : byteSize before = byteSize earlier + byteSize line := by
      rw [hlast, byteSize_append]
    rw [hstart, hsize]
    exact slice?_of_split hsplit'
  rw [Option.bind_eq_bind, Option.bind_some, hbefore, Option.bind_eq_bind, Option.bind_some,
    String.toList_ofList, utf8ByteSize_ofList, hline, Option.bind_some,
    String.toList_ofList, ← hcolumn]
  rfl

/-! ### Coordinates -/

/-- The places of a text are coordinates of its byte offsets. -/
structure Coordinates (source : String) : Prop where
  /-- The later of two offsets between characters has the later place. -/
  rising {p q : Nat} (hp : String.Pos.Raw.IsValid source ⟨p⟩)
    (hq : String.Pos.Raw.IsValid source ⟨q⟩) (hlt : p < q) :
    Place.ofOffset source p < Place.ofOffset source q
  /-- The line counts, from one, the line feeds among the bytes in front of the offset. -/
  line (offset : Nat) :
    (Place.ofOffset source offset).line = ((bytes source).take offset).count 10 + 1
  /-- Line and column lead back to the offset between characters that they were found for, and
  nowhere else. -/
  offset {place : Place} {p : Nat} : place.offset? source = some p ↔
    String.Pos.Raw.IsValid source ⟨p⟩ ∧ Place.ofOffset source p = place
  /-- An offset within a character has the place of the character. -/
  within {before rest : List Char} {c : Char} {offset : Nat}
    (h : source.toList = before ++ c :: rest) (hle : byteSize before ≤ offset)
    (hlt : offset < byteSize before + c.utf8Size) :
    Place.ofOffset source offset = Place.ofOffset source (byteSize before)
  /-- An offset past the end has the place of the end. -/
  beyond {offset : Nat} (h : source.utf8ByteSize ≤ offset) :
    Place.ofOffset source offset = Place.ofOffset source source.utf8ByteSize
  /-- The place is found without a failing step. -/
  located (offset : Nat) : Place.locate? source offset = some (Place.ofOffset source offset)

/-- Whatever the text, its places are coordinates. -/
theorem Place.ofOffset_coordinates (source : String) : Coordinates source where
  rising := ofOffset_lt
  line offset := by
    rw [bytes_eq, count_take_utf8EncodeChar]
    rfl
  offset := offset?_eq_some_iff
  within h hle hlt := by
    rw [ofOffset_byteSize h]
    exact ofOffset_eq h hle fun d hd => by rwa [← Option.mem_some_iff.1 hd]
  beyond h := by
    rw [utf8ByteSize_eq] at h ⊢
    rw [ofOffset_byteSize (List.append_nil _).symm]
    exact ofOffset_eq (List.append_nil _).symm h nofun
  located := locate?_eq source

theorem Place.ofOffset_emoji :
    String.Pos.Raw.IsValid "é\n😀b" ⟨2⟩ ∧ String.Pos.Raw.IsValid "é\n😀b" ⟨7⟩ ∧
      ofOffset "é\n😀b" 2 < ofOffset "é\n😀b" 7 ∧
      (ofOffset "é\n😀b" 7).line = 2 ∧ (ofOffset "é\n😀b" 7).offset? "é\n😀b" = some 7 ∧
      ofOffset "é\n😀b" 5 = ofOffset "é\n😀b" 3 ∧ ofOffset "é\n😀b" 99 = ofOffset "é\n😀b" 8 ∧
      locate? "é\n😀b" 5 = some ⟨2, 1⟩ := by
  have h := ofOffset_coordinates "é\n😀b"
  have hp : String.Pos.Raw.IsValid "é\n😀b" ⟨2⟩ := by decide
  have hq : String.Pos.Raw.IsValid "é\n😀b" ⟨7⟩ := by decide
  have hemoji : "é\n😀b".toList = ['é', '\n'] ++ '😀' :: ['b'] := by decide
  exact ⟨hp, hq, h.rising hp hq (by decide), h.line 7, h.offset.2 ⟨hq, rfl⟩,
    h.within hemoji (by decide) (by decide), h.beyond (by decide), h.located 5⟩

end DebugGuard.Text
