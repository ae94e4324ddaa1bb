import DebugGuard.Proofs.Script.Scan

/-!
# Pieces that keep apart

When a list of pieces is scanned back into its words.  Only one thing goes wrong in printed scripts:
a numeral of digits alone takes the point of an access behind it (`Piece.glued`).  `Piece.Printed`
collects what has to be known of the pieces of a phrase, so that it can be found out phrase by
phrase.
-/

namespace DebugGuard

namespace Word

/-- A mark or a word with a spelling that the scanner knows, as far as that can be computed. -/
def isKnown (w : Word) : Bool :=
  match w.kind with
  | .mark => Token.marks.contains w.text
  | .identifier => w.text.toList.head?.any Scan.isNameStart && w.text.toList.tail.all Scan.isNamePart
  | _ => false

theorem valid_of_isKnown {w : Word} (h : w.isKnown = true) : w.Valid := by
  obtain ⟨kind, text⟩ := w
  cases kind with
  | mark => simpa [isKnown, Valid] using h
  | identifier =>
    simp only [isKnown, Bool.and_eq_true, List.all_eq_true] at h
    obtain ⟨hhead, htail⟩ := h
    cases htext : text.toList with
    | nil => simp [htext] at hhead
    | cons c r =>
      rw [htext] at hhead htail
      exact ⟨c, r, htext, by simpa using hhead, htail⟩
  | _ => cases h

end Word

namespace Piece

open Text

variable {ps qs : List Piece} {ns ms : List String} {g g' : Bool} {w : Word}

/-- The spellings of the numerals. -/
def numbers : List Piece → List String
  | [] => []
  | .word w :: ps => if w.kind = .number then w.text :: numbers ps else numbers ps
  | _ :: ps => numbers ps

/-- A numeral that a point would carry on. -/
def wholeNumber : Piece → Bool
  | .word w => decide (w.kind = .number) && isWhole w.text.toList
  | _ => false

/-- Somewhere a point stands right behind a numeral that it carries on. -/
def glued : List Piece → Bool
  | [] => false
  | p :: ps => wholeNumber p && ps.head? == some (mark ".") || glued ps

/-- The last piece is a numeral that a point would carry on. -/
def endsWhole (ps : List Piece) : Bool :=
  ps.getLast?.any wholeNumber

/-- Marks that end any word in front of them, but for a point behind a numeral. -/
def closers : List String :=
  ["(", ")", "[", "]", "\x7d", ",", ";", ":", "."]

/-- What comes first ends any word in front of it, but for a point behind a numeral. -/
def Halts : List Piece → Prop
  | [] => True
  | .blanks n :: _ => 0 < n
  | .lineFeed :: _ => True
  | .word w :: _ => w.kind = .mark ∧ w.text ∈ closers

/-- The word ends in front of the pieces, or is a numeral that the point in front carries on. -/
def Near (w : Word) (ps : List Piece) : Prop :=
  w.Before (chars ps) ∨ wholeNumber (.word w) = true ∧ ps.head? = some (mark ".")

/-- No word is carried on by what follows, unless it is a numeral with a point behind it. -/
def Loose : List Piece → Prop
  | [] => True
  | .word w :: ps => Near w ps ∧ Loose ps
  | _ :: ps => Loose ps

/-! ### Where pieces come apart -/

theorem halts_append (h : Halts ps) (hq : Halts qs) : Halts (ps ++ qs) := by
  cases ps with
  | nil => exact hq
  | cons p ps => cases p <;> exact h

/-- What no mark starts with ends a word, but for a point behind a numeral that it carries on. -/
theorem before_cons {c : Char} {cs : List Char} (hk : w.kind ≠ .endOfFile) (hw : w ≠ ⟨.mark, "."⟩)
    (hc : Scan.isNamePart c = false) (hm : c ∉ ['=', '>', '&', '|', '?', '/', '*'])
    (hp : c = '.' → wholeNumber (.word w) = false) : w.Before (c :: cs) := by
  intro d hd
  obtain rfl : c = d := by simpa using hd
  obtain ⟨kind, text⟩ := w
  cases kind with
  | endOfFile => exact absurd rfl hk
  | string => rfl
  | identifier => simp [Word.endsBefore, hc]
  | number =>
    by_cases hpoint : c = '.'
    · have hwhole : isWhole text.toList = false := by simpa [wholeNumber] using hp hpoint
      simp [Word.endsBefore, hc, hwhole]
    · simp [Word.endsBefore, hc, hpoint]
  | mark =>
    have htext : text ≠ "." := by
      rintro rfl
      exact hw rfl
    simp [Word.endsBefore, hm, htext]

theorem near_of_halts (hk : w.kind ≠ .endOfFile) (hw : w ≠ ⟨.mark, "."⟩) (h : Halts ps) :
    Near w ps := by
  rcases ps with _ | ⟨p, ps⟩
  · exact .inl (by simp [Word.Before])
  cases p with
  | blanks n =>
    cases n with
    | zero => exact absurd h (Nat.lt_irrefl 0)
    | succ n =>
      exact .inl (before_cons (c := ' ') hk hw (by decide) (by decide) fun h => absurd h (by decide))
  | lineFeed =>
    exact .inl (before_cons (c := '\n') hk hw (by decide) (by decide) fun h => absurd h (by decide))
  | word v =>
    obtain ⟨_, m⟩ := v
    obtain ⟨rfl, hm⟩ := h
    have hall : ∀ m ∈ closers, m.toList ≠ [] ∧ m.toList.head?.all fun c => decide
        (Scan.isNamePart c = false ∧ c ∉ ['=', '>', '&', '|', '?', '/', '*'] ∧
          (c = '.' → m = ".")) := by decide
    simp only [Option.all_eq_true, decide_eq_true_eq] at hall
    obtain ⟨hne, hall⟩ := hall m hm
    obtain ⟨c, cs, hcs⟩ := List.exists_cons_of_ne_nil hne
    obtain ⟨hc, hmark, hpoint⟩ := hall c (by simp [hcs])
    have hchars : chars (.word ⟨.mark, m⟩ :: ps) = c :: (cs ++ chars ps) := by
      simp [chars_cons, written, Word.written, hcs]
    by_cases hp : c = '.' ∧ wholeNumber (.word w) = true
    · obtain rfl := hpoint hp.1
      exact .inr ⟨hp.2, rfl⟩
    · refine .inl (hchars ▸ before_cons hk hw hc hmark fun hdot => ?_)
      exact Bool.eq_false_of_not_eq_true fun hwhole => hp ⟨hdot, hwhole⟩

theorem glued_append (hq : qs.head? ≠ some (mark ".")) :
    glued (ps ++ qs) = (glued ps || glued qs) := by
  induction ps with
  | nil => simp [glued]
  | cons p ps ih =>
    rw [List.cons_append, glued, glued, ih, Bool.or_assoc]
    cases ps with
    | nil => simp [hq]
    | cons p' ps => rfl

theorem glued_point (ps qs : List Piece) :
    glued (ps ++ mark "." :: qs) = (glued ps || endsWhole ps || glued (mark "." :: qs)) := by
  induction ps with
  | nil => simp [glued, endsWhole]
  | cons p ps ih =>
    rw [List.cons_append, glued, ih]
    cases ps with
    | nil => simp [glued, endsWhole]
    | cons p' ps =>
      have hlast : endsWhole (p :: p' :: ps) = endsWhole (p' :: ps) := by
        rw [endsWhole, List.getLast?_cons_cons, endsWhole]
      rw [hlast, List.cons_append, List.head?_cons, glued.eq_def (p :: p' :: ps)]
      simp only [List.head?_cons, Bool.or_assoc]

theorem numbers_append (ps qs : List Piece) : numbers (ps ++ qs) = numbers ps ++ numbers qs := by
  induction ps with
  | nil => rfl
  | cons p ps ih =>
    cases p with
    | word w => by_cases h : w.kind = .number <;> simp [numbers, h, ih]
    | _ => simpa [numbers] using ih

/-- Pieces without a glued numeral are apart. -/
theorem apart_of_loose (h : Loose ps) (hg : glued ps = false) : Apart ps [] := by
  induction ps with
  | nil => trivial
  | cons p ps ih =>
    rw [glued, Bool.or_eq_false_iff, Bool.and_eq_false_iff, beq_eq_false_iff_ne] at hg
    cases p with
    | word w =>
      refine ⟨?_, ih h.2 hg.2⟩
      rw [List.append_nil]
      refine h.1.resolve_right fun hp => ?_
      rcases hg.1 with hw | hm
      · simp [hp.1] at hw
      · exact hm hp.2
    | blanks n => exact ih h hg.2
    | lineFeed => exact ih h hg.2

/-- The first glued numeral. -/
theorem exists_glued (h : Loose ps) (hg : glued ps = true) :
    ∃ front s back, ps = front ++ number s :: mark "." :: back ∧ isWhole s.toList = true ∧
      Apart front (chars (number s :: mark "." :: back)) := by
  induction ps with
  | nil => cases hg
  | cons p ps ih =>
    cases hj : wholeNumber p && ps.head? == some (mark ".")
    · rw [glued, hj, Bool.false_or] at hg
      have hl : Loose ps := by cases p <;> first | exact h.2 | exact h
      obtain ⟨front, s, back, rfl, hs, ha⟩ := ih hl hg
      refine ⟨p :: front, s, back, rfl, hs, ?_⟩
      cases p with
      | word w =>
        refine ⟨?_, ha⟩
        rw [← chars_append]
        refine h.1.resolve_right fun hp => ?_
        rw [hp.1, hp.2] at hj
        simp at hj
      | blanks n => exact ha
      | lineFeed => exact ha
    · rw [Bool.and_eq_true, beq_iff_eq] at hj
      obtain ⟨hw, hp⟩ := hj
      match p, ps, hw, hp with
      | .word ⟨_, s⟩, _ :: back, hw, hp =>
        cases hp
        simp only [wholeNumber, Bool.and_eq_true, decide_eq_true_eq] at hw
        obtain ⟨rfl, hs⟩ := hw
        exact ⟨[], s, back, rfl, hs, trivial⟩

/-! ### Printed phrases -/

/-- The pieces of a phrase with the given numerals; `g` says whether one of them is glued. -/
structure Printed (ps : List Piece) (numerals : List String) (g : Bool) : Prop where
  valid : Valid ps
  numbers_eq : numbers ps = numerals
  glued_eq : glued ps = g
  loose : ∀ qs, Halts qs → Loose qs → Loose (ps ++ qs)

namespace Printed

theorem nil : Printed [] [] false :=
  ⟨by simp [Valid], rfl, rfl, fun _ _ h => h⟩

theorem blanks {n : Nat} (h : Printed ps ns g) : Printed (.blanks n :: ps) ns g where
  valid w hw := h.valid w (by simpa using hw)
  numbers_eq := h.numbers_eq
  glued_eq := by simp [glued, wholeNumber, h.glued_eq]
  loose := h.loose

theorem space (h : Printed ps ns g) : Printed (Piece.space :: ps) ns g :=
  blanks h

theorem lineFeed (h : Printed ps ns g) : Printed (.lineFeed :: ps) ns g where
  valid w hw := h.valid w (by simpa using hw)
  numbers_eq := h.numbers_eq
  glued_eq := by simp [glued, wholeNumber, h.glued_eq]
  loose := h.loose

theorem append (h : Printed ps ns g) (h' : Printed qs ms g') (hh : Halts qs)
    (hp : qs.head? ≠ some (mark ".")) : Printed (ps ++ qs) (ns ++ ms) (g || g') where
  valid w hw := (List.mem_append.1 hw).elim (h.valid w) (h'.valid w)
  numbers_eq := by rw [numbers_append, h.numbers_eq, h'.numbers_eq]
  glued_eq := by rw [glued_append hp, h.glued_eq, h'.glued_eq]
  loose rs hr hl := by
    rw [List.append_assoc]
    exact h.loose _ (halts_append hh hr) (h'.loose rs hr hl)

/-- A word in front, of which only the last character matters. -/
theorem word_of_near (hv : w.Valid) (hk : w.kind ≠ .number) (h : Printed ps ns g)
    (hn : ∀ qs, Halts qs → Near w (ps ++ qs)) : Printed (.word w :: ps) ns g where
  valid v hv' := by
    rcases List.mem_cons.1 hv' with heq | hmem
    · cases heq
      exact hv
    · exact h.valid v hmem
  numbers_eq := by rw [numbers, if_neg hk, h.numbers_eq]
  glued_eq := by simp [glued, wholeNumber, hk, h.glued_eq]
  loose qs hq hl := ⟨hn qs hq, h.loose qs hq hl⟩

theorem word (hv : w.Valid) (hk : w.kind ≠ .number) (hw : w ≠ ⟨.mark, "."⟩)
    (h : Printed ps ns g) (hh : Halts ps) : Printed (.word w :: ps) ns g :=
  word_of_near hv hk h fun _ hq =>
    near_of_halts (by rintro he; simp [Word.Valid, he] at hv) hw (halts_append hh hq)

/-- A mark that no other one begins with. -/
theorem solid {m : String} (hm : m ∈ Word.solidMarks) (h : Printed ps ns g) :
    Printed (mark m :: ps) ns g := by
  have hall : ∀ m ∈ Word.solidMarks, m ∈ Token.marks := by decide
  refine word_of_near (hall m hm) (by simp) h fun qs _ => .inl fun c _ => ?_
  simp [Word.endsBefore, hm]

/-- A mark in front of a gap. -/
theorem sign {m : String} (hm : m ∈ Token.marks) (hp : m ≠ ".") (h : Printed ps ns g)
    (hh : Halts ps) : Printed (mark m :: ps) ns g :=
  word hm (by simp) (by simpa using hp) h hh

theorem name {x : String} (hx : Word.Valid ⟨.identifier, x⟩) (h : Printed ps ns g)
    (hh : Halts ps) : Printed (Piece.name x :: ps) ns g :=
  word hx (by simp) (by simp) h hh

/-- A keyword, of which is computed that it is a name. -/
theorem keyword {x : String} (hx : Word.isKnown ⟨.identifier, x⟩ = true) (h : Printed ps ns g)
    (hh : Halts ps) : Printed (Piece.name x :: ps) ns g :=
  name (Word.valid_of_isKnown hx) h hh

theorem string {x : String} (h : Printed ps ns g) : Printed (Piece.string x :: ps) ns g :=
  word_of_near trivial (by simp) h fun _ _ => .inl fun _ _ => rfl

theorem number {s : String} (hs : Word.Valid ⟨.number, s⟩) (h : Printed ps ns g) (hh : Halts ps)
    (hp : ps.head? ≠ some (mark ".")) : Printed (Piece.number s :: ps) (s :: ns) g where
  valid v hv' := by
    rcases List.mem_cons.1 hv' with heq | hmem
    · cases heq
      exact hs
    · exact h.valid v hmem
  numbers_eq := by rw [Piece.number, numbers, if_pos rfl, h.numbers_eq]
  glued_eq := by simp [glued, hp, h.glued_eq]
  loose qs hq hl := ⟨near_of_halts (by simp) (by simp) (halts_append hh hq), h.loose qs hq hl⟩

/-- Pieces behind those that end a phrase. -/
theorem behind {p : Piece} (h : Printed ps ns g) (h' : Printed (p :: qs) ms g')
    (hh : Halts (p :: qs)) (hp : p ≠ mark ".") : Printed (ps ++ p :: qs) (ns ++ ms) (g || g') :=
  h.append h' hh (by simpa using hp)

/-- A blank behind a phrase. -/
theorem spaced (h : Printed ps ns g) (h' : Printed qs ms g') :
    Printed (ps ++ Piece.space :: qs) (ns ++ ms) (g || g') :=
  h.behind h'.space Nat.zero_lt_one (by simp [Piece.space, mark])

/-- A closing mark behind a phrase. -/
theorem close {m : String} (h : Printed ps ns g) (hm : m ∈ Word.solidMarks) (hc : m ∈ closers) :
    Printed (ps ++ [mark m]) ns g := by
  have hne : ∀ m ∈ Word.solidMarks, m ≠ "." := by decide
  have := h.behind (solid hm nil) ⟨rfl, hc⟩ (by simpa [mark] using hne m hm)
  simpa using this

/-- An access, whose point may be glued to a numeral. -/
theorem access {x : String} (hx : Word.Valid ⟨.identifier, x⟩) (h : Printed ps ns g) :
    Printed (ps ++ [mark ".", Piece.name x]) ns (g || endsWhole ps) where
  valid w hw := by
    simp only [List.mem_append, List.mem_cons, List.not_mem_nil, or_false] at hw
    rcases hw with hw | hw | hw
    · exact h.valid w hw
    · cases hw
      exact show "." ∈ Token.marks by decide
    · cases hw
      exact hx
  numbers_eq := by rw [numbers_append, h.numbers_eq]; exact List.append_nil ns
  glued_eq := by
    rw [glued_point, h.glued_eq]
    simp [glued, wholeNumber, mark, Piece.name]
  loose qs hq hl := by
    obtain ⟨c, r, hc, hstart, -⟩ := hx
    rw [List.append_assoc]
    refine h.loose _ ⟨rfl, by decide⟩ ⟨.inl ?_, near_of_halts (by simp) (by simp) hq, hl⟩
    intro d hd
    obtain rfl : c = d := by simpa [chars, written, Word.written, hc, Piece.name] using hd
    have hpoint : c ∉ ['=', '>', '&', '|', '?', '/', '*', '.'] := by
      intro hmem
      have hall : ['=', '>', '&', '|', '?', '/', '*', '.'].all (!Scan.isNameStart ·) = true := by
        decide
      have hc := List.all_eq_true.1 hall c hmem
      rw [hstart] at hc
      cases hc
    have hdigit : c.isDigit = false := by
      by_contra hd
      rw [Scan.isNameStart_eq_false_of_isDigit (by simpa using hd)] at hstart
      cases hstart
    simp only [List.mem_cons, List.not_mem_nil, or_false, not_or] at hpoint
    simp [Word.endsBefore, hpoint, hdigit]

theorem commas {α : Type} {P : α → List Piece} {N : α → List String} {G : α → Bool} {xs : List α}
    (h : ∀ x ∈ xs, Printed (P x) (N x) (G x)) :
    Printed (Piece.commas (xs.map P)) (xs.flatMap N) (xs.any G) := by
  induction xs with
  | nil => exact nil
  | cons x xs ih =>
    have hx := h x List.mem_cons_self
    have ih := ih fun y hy => h y (List.mem_cons_of_mem _ hy)
    cases xs with
    | nil =>
      rw [List.flatMap_cons, List.flatMap_nil, List.append_nil, List.any_cons, List.any_nil,
        Bool.or_false]
      exact hx
    | cons y ys =>
      rw [List.flatMap_cons, List.any_cons]
      exact hx.append (solid (by decide) (blanks ih)) ⟨rfl, by decide⟩ (by simp [mark])

end Printed

end Piece

end DebugGuard
