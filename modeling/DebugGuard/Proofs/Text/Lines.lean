import DebugGuard.Proofs.Text.Offset
import Mathlib

/-!
# Lines

A text is cut into lines by its line feeds (`lines`), so it can be taken line by line from the front
(`lines_induction`) or at its last line (`lastLine_cases`).  The place behind some characters is
found either way (`Place.after_line_append`, `Place.after_append_lineFeed`).

Line and column lead back to the byte offset (`Place.offset?`): over whole lines, and then over
characters of the last one.

Main statement: `Place.offset?_eq_some_iff`.  A place leads to an offset between two characters, and
is the place of that offset.
-/

namespace DebugGuard.Text

variable {source : String} {before line rest cs : List Char} {n k p : Nat}

/-! ### Lines -/

/-- The lines of a text, without the line feeds between them. -/
def lines (cs : List Char) : List (List Char) :=
  cs.splitOn '\n'

theorem lines_of_notMem (h : '\n' ∉ line) : lines line = [line] :=
  List.splitOn_eq_singleton h

theorem lines_append_lineFeed (h : '\n' ∉ line) (cs : List Char) :
    lines (line ++ '\n' :: cs) = line :: lines cs := by
  have happend : lines (line ++ '\n' :: cs) = lines line ++ lines cs :=
    List.splitOnP_append_cons line cs (beq_self_eq_true _)
  rw [happend, lines_of_notMem h, List.singleton_append]

/-- A text is its last line, or a line with a line feed in front of a text. -/
@[elab_as_elim]
theorem lines_induction {motive : List Char → Prop} (last : ∀ line, '\n' ∉ line → motive line)
    (next : ∀ line cs, '\n' ∉ line → motive cs → motive (line ++ '\n' :: cs)) (cs : List Char) :
    motive cs := by
  induction hn : cs.count '\n' generalizing cs with
  | zero => exact last cs (List.count_eq_zero.1 hn)
  | succ n ih =>
    have hmem : '\n' ∈ cs := List.count_pos_iff.1 (hn ▸ Nat.succ_pos n)
    obtain ⟨line, rest, rfl, hline⟩ := List.eq_append_cons_of_mem hmem
    refine next line rest hline (ih rest ?_)
    rw [List.count_append, List.count_cons_self, List.count_eq_zero.2 hline] at hn
    omega

/-- A text is its last line, or has a line feed in front of that. -/
theorem lastLine_cases (cs : List Char) :
    '\n' ∉ cs ∨ ∃ earlier line, '\n' ∉ line ∧ cs = earlier ++ '\n' :: line := by
  induction cs using lines_induction with
  | last line hline => exact .inl hline
  | next line cs hline ih =>
    rcases ih with hcs | ⟨earlier, last, hlast, rfl⟩
    · exact .inr ⟨line, cs, hcs, rfl⟩
    · exact .inr ⟨line ++ '\n' :: earlier, last, hlast, by simp⟩

/-- A text that starts with a line is cut within the line or behind its line feed. -/
theorem append_eq_line_iff : before ++ rest = line ++ '\n' :: cs ↔
    (∃ tail, line = before ++ tail ∧ rest = tail ++ '\n' :: cs) ∨
      ∃ ds, before = line ++ '\n' :: ds ∧ cs = ds ++ rest := by
  constructor
  · intro h
    obtain ⟨tail, hline, hrest⟩ | ⟨more, rfl, hmore⟩ := List.append_eq_append_iff.1 h
    · exact .inl ⟨tail, hline, hrest⟩
    · obtain ⟨rfl, rfl⟩ | ⟨ds, rfl, rfl⟩ := List.cons_eq_append_iff.1 hmore
      · exact .inl ⟨[], by simp, rfl⟩
      · exact .inr ⟨ds, rfl, rfl⟩
  · rintro (⟨tail, rfl, rfl⟩ | ⟨ds, rfl, rfl⟩) <;> simp

/-! ### The place behind some characters -/

namespace Place

/-- A line feed starts the next line, and any other character the next column. -/
theorem after_concat (cs : List Char) (c : Char) : after (cs ++ [c]) =
    if c = '\n' then ⟨(after cs).line + 1, 1⟩ else ⟨(after cs).line, (after cs).column + 1⟩ := by
  by_cases hc : c = '\n' <;> simp [after, hc]

theorem after_line (h : '\n' ∉ line) : after line = ⟨1, line.length + 1⟩ := by
  have hall : ∀ c ∈ line.reverse, (c != '\n') = true := fun c hc =>
    bne_iff_ne.2 fun heq => h (heq ▸ List.mem_reverse.1 hc)
  rw [after, List.count_eq_zero_of_not_mem h, List.takeWhile_eq_self_iff.2 hall,
    List.length_reverse]

/-- A cut through a line leaves a line. -/
theorem after_of_append (h : '\n' ∉ before ++ rest) :
    after before = ⟨1, before.length + 1⟩ :=
  after_line fun hmem => h (List.mem_append_left _ hmem)

/-- What stands in front of a line feed has no influence on the column. -/
theorem after_append_lineFeed (cs ds : List Char) : after (cs ++ '\n' :: ds) =
    ⟨cs.count '\n' + 1 + (after ds).line, (after ds).column⟩ := by
  induction ds using List.reverseRecOn with
  | nil =>
    rw [after_concat, if_pos rfl]
    rfl
  | append_singleton ds c ih =>
    rw [← List.cons_append, ← List.append_assoc, after_concat, after_concat, ih]
    split_ifs <;> rfl

/-- A further line in front adds one to the number of the line. -/
theorem after_line_append (h : '\n' ∉ line) (cs : List Char) :
    after (line ++ '\n' :: cs) = ⟨(after cs).line + 1, (after cs).column⟩ := by
  rw [after_append_lineFeed, List.count_eq_zero_of_not_mem h, Nat.zero_add, Nat.add_comm]

/-! ### Places of offsets -/

/-- The place of an offset between two characters, within the second one or past the end. -/
theorem ofOffset_eq {offset : Nat} (h : source.toList = before ++ rest)
    (hfit : byteSize before ≤ offset)
    (hnext : ∀ c ∈ rest.head?, offset < byteSize before + c.utf8Size) :
    ofOffset source offset = after before := by
  rw [ofOffset, h, fitting_append hfit hnext]

theorem ofOffset_byteSize (h : source.toList = before ++ rest) :
    ofOffset source (byteSize before) = after before := by
  rw [ofOffset, h, fitting_byteSize]

end Place

/-! ### Back to the offset -/

/-- The number of bytes in front of a character, by its line and its number in the line, both
counted from zero.  Each line in front takes a line feed, too. -/
def offsetIn? : List (List Char) → Nat → Nat → Option Nat
  | [], _, _ => none
  | line :: _, 0, k => if k ≤ line.length then some (byteSize (line.take k)) else none
  | line :: ls, n + 1, k => (offsetIn? ls n k).map (byteSize line + 1 + ·)

/-- The byte offset of a place: from the start of its line over as many characters as stand in front
of its column.  There is none if the text has no such line or the line is shorter. -/
def Place.offset? (source : String) : Place → Option Nat
  | ⟨n + 1, k + 1⟩ => offsetIn? (lines source.toList) n k
  | _ => none

/-- The offset lies between two characters and has this place. -/
def Place.IsAt (place : Place) (cs : List Char) (p : Nat) : Prop :=
  ∃ before rest, cs = before ++ rest ∧ byteSize before = p ∧ after before = place

namespace Place

theorem isAt_iff {place : Place} : place.IsAt source.toList p ↔
    String.Pos.Raw.IsValid source ⟨p⟩ ∧ ofOffset source p = place := by
  constructor
  · rintro ⟨before, rest, hsplit, rfl, rfl⟩
    exact ⟨isValid_of_split hsplit, ofOffset_byteSize hsplit⟩
  · rintro ⟨hp, rfl⟩
    obtain ⟨before, rest, hsplit, rfl⟩ := isValid_iff_split.1 hp
    exact ⟨before, rest, hsplit, rfl, (ofOffset_byteSize hsplit).symm⟩

theorem IsAt.pos {place : Place} (h : place.IsAt cs p) : 0 < place.line ∧ 0 < place.column := by
  obtain ⟨before, rest, -, -, rfl⟩ := h
  exact ⟨Nat.succ_pos _, Nat.succ_pos _⟩

theorem isAt_line (h : '\n' ∉ line) : (mk 1 (k + 1)).IsAt line p ↔
    k ≤ line.length ∧ byteSize (line.take k) = p := by
  constructor
  · rintro ⟨before, tail, rfl, rfl, hafter⟩
    rw [after_of_append h] at hafter
    cases hafter
    exact ⟨by simp, by rw [List.take_left]⟩
  · rintro ⟨hk, rfl⟩
    have hcut := List.take_append_drop k line
    refine ⟨line.take k, line.drop k, hcut.symm, rfl, ?_⟩
    rw [← hcut] at h
    rw [after_of_append h, List.length_take_of_le hk]

theorem not_isAt_line (h : '\n' ∉ line) : ¬(mk (n + 2) (k + 1)).IsAt line p := by
  rintro ⟨before, tail, rfl, -, hafter⟩
  rw [after_of_append h] at hafter
  cases hafter

/-- The first line is the same with other lines behind it. -/
theorem isAt_append_first (h : '\n' ∉ line) :
    (mk 1 (k + 1)).IsAt (line ++ '\n' :: cs) p ↔ (mk 1 (k + 1)).IsAt line p := by
  constructor
  · rintro ⟨before, rest, hcs, hp, hafter⟩
    obtain ⟨tail, hline, -⟩ | ⟨ds, rfl, -⟩ := append_eq_line_iff.1 hcs.symm
    · exact ⟨before, tail, hline, hp, hafter⟩
    · rw [after_line_append h, mk.injEq] at hafter
      exact absurd (Nat.succ.inj hafter.1) (Nat.succ_ne_zero _)
  · rintro ⟨before, tail, rfl, hp, hafter⟩
    exact ⟨before, tail ++ '\n' :: cs, List.append_assoc .., hp, hafter⟩

/-- The other lines come behind the bytes of the first one and its line feed. -/
theorem isAt_append_next (h : '\n' ∉ line) : (mk (n + 2) (k + 1)).IsAt (line ++ '\n' :: cs) p ↔
    ∃ q, (mk (n + 1) (k + 1)).IsAt cs q ∧ byteSize line + 1 + q = p := by
  have hsize (ds : List Char) :
      byteSize line + 1 + byteSize ds = byteSize (line ++ '\n' :: ds) := by
    rw [byteSize_append, byteSize_cons, Nat.add_assoc]
    rfl
  constructor
  · rintro ⟨before, rest, hcs, rfl, hafter⟩
    obtain ⟨tail, rfl, -⟩ | ⟨ds, rfl, rfl⟩ := append_eq_line_iff.1 hcs.symm
    · rw [after_of_append h] at hafter
      cases hafter
    · rw [after_line_append h, mk.injEq] at hafter
      refine ⟨byteSize ds, ⟨ds, rest, rfl, rfl, ?_⟩, hsize ds⟩
      rw [mk.injEq]
      exact ⟨Nat.succ.inj hafter.1, hafter.2⟩
  · rintro ⟨q, ⟨ds, rest, rfl, rfl, hafter⟩, rfl⟩
    refine ⟨line ++ '\n' :: ds, rest, by simp, (hsize ds).symm, ?_⟩
    rw [after_line_append h, hafter]

end Place

theorem offsetIn?_zero {ls : List (List Char)} (h : '\n' ∉ line) :
    offsetIn? (line :: ls) 0 k = some p ↔ (Place.mk 1 (k + 1)).IsAt line p := by
  rw [offsetIn?, Place.isAt_line h]
  split_ifs with hk
  · rw [Option.some.injEq, and_iff_right hk]
  · exact ⟨nofun, fun hp => absurd hp.1 hk⟩

/-- Line and column lead to the offset between two characters that they are the place of. -/
theorem offsetIn?_lines :
    offsetIn? (lines cs) n k = some p ↔ (Place.mk (n + 1) (k + 1)).IsAt cs p := by
  induction cs using lines_induction generalizing n p with
  | last line hline =>
    rw [lines_of_notMem hline]
    cases n with
    | zero => exact offsetIn?_zero hline
    | succ n => exact ⟨nofun, fun h => absurd h (Place.not_isAt_line hline)⟩
  | next line cs hline ih =>
    rw [lines_append_lineFeed hline]
    cases n with
    | zero => rw [offsetIn?_zero hline, Place.isAt_append_first hline]
    | succ n =>
      rw [offsetIn?, Option.map_eq_some_iff, Place.isAt_append_next hline]
      exact exists_congr fun q => and_congr_left' ih

theorem Place.offset?_eq_some_iff {place : Place} : place.offset? source = some p ↔
    String.Pos.Raw.IsValid source ⟨p⟩ ∧ ofOffset source p = place := by
  rw [← isAt_iff]
  obtain ⟨_ | n, _ | k⟩ := place
  · exact ⟨nofun, fun h => absurd h.pos.1 (Nat.lt_irrefl 0)⟩
  · exact ⟨nofun, fun h => absurd h.pos.1 (Nat.lt_irrefl 0)⟩
  · exact ⟨nofun, fun h => absurd h.pos.2 (Nat.lt_irrefl 0)⟩
  · exact offsetIn?_lines

end DebugGuard.Text
