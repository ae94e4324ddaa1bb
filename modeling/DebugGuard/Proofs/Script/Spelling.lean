import DebugGuard.Proofs.Script.Scan
import DebugGuard.Proofs.Script.Sound

/-!
# Tokens that spell pieces

`Piece.Spells` relates printed pieces to tokens, whatever the offsets of these are.  A printed text
is scanned into tokens that spell its pieces (`Piece.spells_tokens`).
-/

namespace DebugGuard.Piece

open Cursor

variable {b : Bool} {ps qs : List Piece} {ts s r : List Token}

/-- The tokens `ts` in front of `r` are the words of the pieces; `broken` says whether a line break
stands in front of them. -/
def Spells : Bool → List Piece → List Token → List Token → Prop
  | _, [], ts, r => ts = r
  | broken, .word w :: ps, ts, r =>
    ∃ t s, ts = t :: s ∧ t.word = w ∧ t.afterBreak = broken ∧ Spells false ps s r
  | broken, .blanks _ :: ps, ts, r => Spells broken ps ts r
  | _, .lineFeed :: ps, ts, r => Spells true ps ts r

theorem spells_append : Spells b (ps ++ qs) ts r ↔
    ∃ s, Spells b ps ts s ∧ Spells (breaks b ps) qs s r := by
  induction ps generalizing b ts with
  | nil => simp [Spells, breaks]
  | cons p ps ih =>
    cases p with
    | word w =>
      simp only [List.cons_append, Spells, breaks, ih]
      constructor
      · rintro ⟨t, s, rfl, rfl, rfl, s', hs, hs'⟩
        exact ⟨s', ⟨t, s, rfl, rfl, rfl, hs⟩, hs'⟩
      · rintro ⟨s', ⟨t, s, rfl, rfl, rfl, hs⟩, hs'⟩
        exact ⟨t, s, rfl, rfl, rfl, s', hs, hs'⟩
    | blanks n => exact ih
    | lineFeed => exact ih

theorem spells_tokens (ps : List Piece) (pos : Nat) (b : Bool) (r : List Token) :
    Spells b ps (tokens pos b ps ++ r) r := by
  induction ps generalizing pos b with
  | nil => rfl
  | cons p ps ih =>
    cases p with
    | word w => exact ⟨_, _, rfl, rfl, rfl, ih _ _⟩
    | blanks n => exact ih _ _
    | lineFeed => exact ih _ _

@[simp] theorem spells_nil : Spells b [] ts r ↔ ts = r := Iff.rfl

@[simp] theorem spells_space : Spells b (space :: ps) ts r ↔ Spells b ps ts r := Iff.rfl

@[simp] theorem spells_indent {depth : Nat} :
    Spells b (indent depth :: ps) ts r ↔ Spells b ps ts r := Iff.rfl

@[simp] theorem spells_lineFeed : Spells b (lineFeed :: ps) ts r ↔ Spells true ps ts r := Iff.rfl

/-- A mark in front is read. -/
theorem spells_mark {m : String} (h : Spells b (mark m :: ps) ts r) :
    ∃ t s, Front (·.isMark m) ts t s ∧ Spells false ps s r := by
  obtain ⟨t, s, rfl, hw, -, hs⟩ := h
  rw [Token.word, Word.mk.injEq] at hw
  exact ⟨t, s, ⟨rfl, by simp [Token.isMark, hw]⟩, hs⟩

/-- A keyword in front is read. -/
theorem spells_name {x : String} (h : Spells b (name x :: ps) ts r) :
    ∃ t s, Front (·.isWord x) ts t s ∧ Spells false ps s r := by
  obtain ⟨t, s, rfl, hw, -, hs⟩ := h
  rw [Token.word, Word.mk.injEq] at hw
  exact ⟨t, s, ⟨rfl, by simp [Token.isWord, hw]⟩, hs⟩

/-- A name that can be bound is read. -/
theorem spells_bindable {x : String} (hx : IsBindable x) (h : Spells b (name x :: ps) ts r) :
    ∃ t s, Front Token.isName ts t s ∧ t.text = x ∧ Spells false ps s r := by
  obtain ⟨t, s, rfl, hw, -, hs⟩ := h
  rw [Token.word, Word.mk.injEq] at hw
  exact ⟨t, s, ⟨rfl, by simp [Token.isName, hw, hx.2]⟩, hw.2, hs⟩

/-- Any name is read where reserved words are allowed. -/
theorem spells_anyName {x : String} (h : Spells b (name x :: ps) ts r) :
    ∃ t s, Front (·.kind = .identifier) ts t s ∧ t.text = x ∧ Spells false ps s r := by
  obtain ⟨t, s, rfl, hw, -, hs⟩ := h
  rw [Token.word, Word.mk.injEq] at hw
  exact ⟨t, s, ⟨rfl, by simp [hw]⟩, hw.2, hs⟩

/-- A string is read. -/
theorem spells_string {x : String} (h : Spells b (string x :: ps) ts r) :
    ∃ t s, Front (·.kind = .string) ts t s ∧ t.text = x ∧ Spells false ps s r := by
  obtain ⟨t, s, rfl, hw, -, hs⟩ := h
  rw [Token.word, Word.mk.injEq] at hw
  exact ⟨t, s, ⟨rfl, by simp [hw]⟩, hw.2, hs⟩

end DebugGuard.Piece
