import DebugGuard.Proofs.Script.Reading
import DebugGuard.Proofs.Script.Tree

/-!
# Reading two scripts at once

Two lists of tokens are twins if they differ in the contents of strings alone (`Cursor.Twins`).  Two
readings agree if both succeed or both fail (`Agree`); the readers that the grammar is made of agree
on twins, and what they leave are twins again.

Where the grammar asks for a declaration behind `export`, it compares the text of a token without a
look at its kind.  Twins therefore open the same declaration behind each `export`.
-/

namespace DebugGuard

/-! ### Tokens -/

/-- The tokens have the same kind, and the same text unless they are strings. -/
structure Token.Alike (t u : Token) : Prop where
  kind_eq : u.kind = t.kind
  afterBreak_eq : u.afterBreak = t.afterBreak
  text_eq : t.kind ≠ .string → u.text = t.text

instance (t u : Token) : Decidable (t.Alike u) :=
  decidable_of_iff (u.kind = t.kind ∧ u.afterBreak = t.afterBreak ∧
      (t.kind ≠ .string → u.text = t.text))
    ⟨fun h => ⟨h.1, h.2.1, h.2.2⟩, fun h => ⟨h.kind_eq, h.afterBreak_eq, h.text_eq⟩⟩

namespace Token.Alike

open Cursor Grammar

variable {t u : Token}

theorem refl (t : Token) : t.Alike t :=
  ⟨rfl, rfl, fun _ => rfl⟩

/-- A text that is compared behind a check of the kind, where no string passes. -/
theorem guarded_eq (h : t.Alike u) {kind : TokenKind} (hkind : kind ≠ .string)
    (p : String → Bool) : (u.kind = kind && p u.text) = (t.kind = kind && p t.text) := by
  by_cases hk : t.kind = kind
  · rw [h.kind_eq, h.text_eq (hk ▸ hkind)]
  · simp [h.kind_eq, hk]

theorem isMark_eq (h : t.Alike u) (text : String) : u.isMark text = t.isMark text :=
  h.guarded_eq (by decide) (· == text)

theorem isWord_eq (h : t.Alike u) (text : String) : u.isWord text = t.isWord text :=
  h.guarded_eq (by decide) (· == text)

theorem isName_eq (h : t.Alike u) : u.isName = t.isName :=
  h.guarded_eq (by decide) (!isReserved ·)

theorem isEnd_eq (h : t.Alike u) : u.isEnd = t.isEnd := by
  rw [isEnd, isEnd, h.kind_eq]

theorem isKind_eq (h : t.Alike u) (kind : TokenKind) :
    decide (u.kind = kind) = decide (t.kind = kind) := by
  rw [h.kind_eq]

theorem endsStatement_eq (h : t.Alike u) : endsStatement u = endsStatement t := by
  rw [endsStatement, endsStatement, h.isMark_eq, h.isEnd_eq, h.afterBreak_eq]

theorem mayOperate_eq (h : t.Alike u) : mayOperate u = mayOperate t := by
  rw [mayOperate, mayOperate, h.kind_eq, h.isWord_eq, h.isWord_eq]

theorem isUnary_eq (h : t.Alike u) : isUnary u = isUnary t := by
  rw [isUnary, isUnary, h.guarded_eq (by decide) Operator.unaryMarks.contains,
    h.guarded_eq (by decide) Operator.unaryWords.contains]

theorem isAssigning_eq (h : t.Alike u) : isAssigning u = isAssigning t :=
  h.guarded_eq (by decide) Operator.assigning.contains

theorem text_eq_of_isUnary (h : t.Alike u) (ht : isUnary t = true) : u.text = t.text := by
  refine h.text_eq fun hk => ?_
  simp [isUnary, hk] at ht

theorem text_eq_of_isAssigning (h : t.Alike u) (ht : isAssigning t = true) : u.text = t.text := by
  refine h.text_eq fun hk => ?_
  simp [isAssigning, hk] at ht

theorem text_eq_of_mayOperate (h : t.Alike u) (ht : mayOperate t = true) : u.text = t.text := by
  refine h.text_eq fun hk => ?_
  simp [mayOperate, Token.isWord, hk] at ht

theorem text_eq_of_isName (h : t.Alike u) (ht : t.isName = true) : u.text = t.text := by
  refine h.text_eq fun hk => ?_
  simp [isName, hk] at ht

theorem keyword?_eq (h : t.Alike u) (ht : t.kind ≠ .string) : keyword? u = keyword? t := by
  rw [keyword?, keyword?, h.text_eq ht]

end Token.Alike

/-! ### Twins -/

/-- What a position in each of two scripts is compared by. -/
structure Places where
  left : Nat → Nat
  right : Nat → Nat

namespace Cursor

open Grammar

/-- The tokens are alike one by one and stand at corresponding places.  Behind each `export` they
open the same declaration, if any. -/
inductive Twins (ρ : Places) : List Token → List Token → Prop
  | nil (h : ρ.left 0 = ρ.right 0) : Twins ρ [] []
  | cons {t u ts us} (halike : t.Alike u) (hplace : ρ.left t.start = ρ.right u.start)
      (hexport : t.isWord "export" = true → keyword? (current us) = keyword? (current ts))
      (hrest : Twins ρ ts us) : Twins ρ (t :: ts) (u :: us)

end Cursor

/-- The values are related, and twins are left. -/
def Read.Twin {m n : Nat} {ts us : List Token} {α β : Type} (ρ : Places) (R : α → β → Prop)
    (a : Read m ts α) (b : Read n us β) : Prop :=
  R a.value b.value ∧ Cursor.Twins ρ a.rest b.rest

/-- Both readings fail, or both succeed and their results are related. -/
def Agree {σ τ : Type} (S : σ → τ → Prop) : Reading σ → Reading τ → Prop
  | .ok a, .ok b => S a b
  | .error _, .error _ => True
  | _, _ => False

namespace Agree

variable {σ τ σ' τ' : Type} {S : σ → τ → Prop} {S' : σ' → τ' → Prop}

theorem bind {x : Reading σ'} {y : Reading τ'} {f : σ' → Reading σ} {g : τ' → Reading τ}
    (h : Agree S' x y) (hfg : ∀ a b, S' a b → Agree S (f a) (g b)) :
    Agree S (x >>= f) (y >>= g) := by
  cases x <;> cases y
  · trivial
  · exact h.elim
  · exact h.elim
  · exact hfg _ _ h

theorem bind_taken {m n : Nat} {ts us : List Token} {α β : Type} {ρ : Places} {R : α → β → Prop}
    {x : Reading (Read m ts α)} {y : Reading (Read n us β)} {f : Read m ts α → Reading σ}
    {g : Read n us β → Reading τ} (h : Agree (Read.Twin ρ R) x y)
    (hfg : ∀ v r hr w s hs, R v w → Cursor.Twins ρ r s → Agree S (f ⟨v, r, hr⟩) (g ⟨w, s, hs⟩)) :
    Agree S (x >>= f) (y >>= g) :=
  h.bind fun a b hab => hfg a.value a.rest a.bound b.value b.rest b.bound hab.1 hab.2

theorem ite {b : Bool} {x x' : Reading σ} {y y' : Reading τ} (ht : b = true → Agree S x y)
    (hf : b = false → Agree S x' y') : Agree S (if b then x else x') (if b then y else y') := by
  cases b
  · exact hf rfl
  · exact ht rfl

theorem mono {S' : σ → τ → Prop} {x : Reading σ} {y : Reading τ} (h : Agree S x y)
    (hS : ∀ a b, S a b → S' a b) : Agree S' x y := by
  cases x <;> cases y
  · trivial
  · exact h.elim
  · exact h.elim
  · exact hS _ _ h

end Agree

namespace Cursor

open Grammar

variable {ρ : Places} {ts us : List Token} {α β : Type}

namespace Twins

theorem current (h : Twins ρ ts us) : (current ts).Alike (current us) := by
  cases h with
  | nil => exact .refl _
  | cons halike => exact halike

theorem next (h : Twins ρ ts us) : (next ts).Alike (next us) := by
  cases h with
  | nil => exact .refl _
  | cons halike _ _ hrest =>
    cases hrest with
    | nil => exact halike
    | cons halike' => exact halike'

theorem start (h : Twins ρ ts us) : ρ.left (start ts) = ρ.right (start us) := by
  cases h with
  | nil h => exact h
  | cons _ hplace => exact hplace

theorem tail (h : Twins ρ ts us) : Twins ρ ts.tail us.tail := by
  cases h with
  | nil h => exact .nil h
  | cons _ _ _ hrest => exact hrest

theorem atMark_eq (h : Twins ρ ts us) (text : String) :
    atMark text us = atMark text ts :=
  h.current.isMark_eq text

theorem atWord_eq (h : Twins ρ ts us) (text : String) :
    atWord text us = atWord text ts :=
  h.current.isWord_eq text

theorem atEnd_eq (h : Twins ρ ts us) : atEnd us = atEnd ts :=
  h.current.isEnd_eq

theorem closesArrow_eq {ts us : List Token} (h : Twins ρ ts us) :
    closesArrow us = closesArrow ts := by
  cases h with
  | nil => rfl
  | cons halike _ _ hrest =>
    rw [closesArrow.eq_def, closesArrow.eq_def (_ :: _)]
    dsimp only
    rw [halike.isMark_eq, halike.kind_eq, hrest.atMark_eq]
    cases hrest with
    | nil => rfl
    | cons halike' _ _ hrest' =>
      dsimp only
      rw [halike'.isMark_eq, halike'.isMark_eq, hrest'.atMark_eq, closesArrow_eq hrest']

theorem atArrow_eq (h : Twins ρ ts us) : atArrow us = atArrow ts := by
  rw [atArrow, atArrow, h.current.isName_eq, h.next.isMark_eq, h.atMark_eq, h.tail.closesArrow_eq]

/-- A token is taken from both, or from none. -/
theorem take? (h : Twins ρ ts us) {p : Token → Bool}
    (hp : ∀ t u : Token, t.Alike u → p u = p t) :
    Cursor.take? p ts = none ∧ Cursor.take? p us = none ∨
      ∃ t r hr u s hs, Cursor.take? p ts = some ⟨t, r, hr⟩ ∧ Cursor.take? p us = some ⟨u, s, hs⟩ ∧
        t.Alike u ∧ p t = true ∧ Twins ρ r s := by
  cases h with
  | nil => exact .inl ⟨rfl, rfl⟩
  | @cons t u ts us halike _ _ hrest =>
    cases ht : p t
    · exact .inl ⟨take?_cons_of_neg ht, take?_cons_of_neg ((hp t u halike).trans ht)⟩
    · exact .inr ⟨t, ts, _, u, us, _, take?_cons_of_pos ht,
        take?_cons_of_pos ((hp t u halike).trans ht), halike, ht, hrest⟩

theorem mark? (h : Twins ρ ts us) (text : String) :
    Cursor.mark? text ts = none ∧ Cursor.mark? text us = none ∨
      ∃ t r hr u s hs, Cursor.mark? text ts = some ⟨t, r, hr⟩ ∧
        Cursor.mark? text us = some ⟨u, s, hs⟩ ∧ Twins ρ r s := by
  obtain hnone | ⟨t, r, hr, u, s, hs, e, e', -, -, hrs⟩ := h.take? fun _ _ h => h.isMark_eq text
  · exact .inl hnone
  · exact .inr ⟨t, r, hr, u, s, hs, e, e', hrs⟩

theorem word? (h : Twins ρ ts us) (text : String) :
    Cursor.word? text ts = none ∧ Cursor.word? text us = none ∨
      ∃ t r hr u s hs, Cursor.word? text ts = some ⟨t, r, hr⟩ ∧
        Cursor.word? text us = some ⟨u, s, hs⟩ ∧ Twins ρ r s := by
  obtain hnone | ⟨t, r, hr, u, s, hs, e, e', -, -, hrs⟩ := h.take? fun _ _ h => h.isWord_eq text
  · exact .inl hnone
  · exact .inr ⟨t, r, hr, u, s, hs, e, e', hrs⟩

theorem take (h : Twins ρ ts us) {p : Token → Bool} {wanted : Wanted}
    (hp : ∀ t u : Token, t.Alike u → p u = p t) :
    Agree (Read.Twin ρ fun t u => t.Alike u ∧ p t = true)
      (Cursor.take p wanted ts) (Cursor.take p wanted us) := by
  rw [Cursor.take, Cursor.take]
  obtain ⟨e, e'⟩ | ⟨t, r, hr, u, s, hs, e, e', halike, ht, hrs⟩ := h.take? hp
  · rw [e, e']
    trivial
  · rw [e, e']
    exact ⟨⟨halike, ht⟩, hrs⟩

theorem mark (h : Twins ρ ts us) (text : String) :
    Agree (Read.Twin ρ fun _ _ => True) (Cursor.mark text ts) (Cursor.mark text us) :=
  (h.take fun _ _ h => h.isMark_eq text).mono fun _ _ h => ⟨trivial, h.2⟩

theorem word (h : Twins ρ ts us) (text : String) :
    Agree (Read.Twin ρ fun _ _ => True) (Cursor.word text ts) (Cursor.word text us) :=
  (h.take fun _ _ h => h.isWord_eq text).mono fun _ _ h => ⟨trivial, h.2⟩

/-- Behind `export`, twins open the same declaration. -/
theorem exportWord (h : Twins ρ ts us) :
    Agree (fun a b => Twins ρ a.rest b.rest ∧
        keyword? (Cursor.current b.rest) = keyword? (Cursor.current a.rest))
      (Cursor.word "export" ts) (Cursor.word "export" us) := by
  rw [Cursor.word, Cursor.word, Cursor.take, Cursor.take]
  cases h with
  | nil => trivial
  | @cons t u r s halike _ hexport hrs =>
    cases ht : t.isWord "export"
    · rw [take?_cons_of_neg ht, take?_cons_of_neg ((halike.isWord_eq _).trans ht)]
      trivial
    · rw [take?_cons_of_pos ht, take?_cons_of_pos ((halike.isWord_eq _).trans ht)]
      exact ⟨hrs, hexport ht⟩

/-- Names are no strings, so twins have the same ones. -/
theorem name (h : Twins ρ ts us) :
    Agree (Read.Twin ρ fun t u => t.text = u.text) (Cursor.name ts)
      (Cursor.name us) :=
  (h.take fun _ _ h => h.isName_eq).mono fun _ _ h =>
    ⟨(h.1.1.text_eq_of_isName h.1.2).symm, h.2⟩

theorem anyName (h : Twins ρ ts us) :
    Agree (Read.Twin ρ fun t u => t.text = u.text) (Cursor.anyName ts)
      (Cursor.anyName us) := by
  refine (h.take fun _ _ h => h.isKind_eq .identifier).mono fun a b h =>
    ⟨(h.1.1.text_eq ?_).symm, h.2⟩
  have hname := h.1.2
  simp only [decide_eq_true_eq] at hname
  simp [hname]

theorem stringLiteral (h : Twins ρ ts us) :
    Agree (Read.Twin ρ fun _ _ => True) (Cursor.stringLiteral ts)
      (Cursor.stringLiteral us) :=
  (h.take fun _ _ h => h.isKind_eq .string).mono fun _ _ h => ⟨trivial, h.2⟩

theorem semicolon (h : Twins ρ ts us) :
    Agree (Read.Twin ρ fun _ _ => True) (Cursor.semicolon ts)
      (Cursor.semicolon us) := by
  rw [Cursor.semicolon, Cursor.semicolon]
  obtain ⟨e, e'⟩ | ⟨t, r, hr, u, s, hs, e, e', hrs⟩ := h.mark? ";"
  · rw [e, e', h.current.endsStatement_eq]
    exact .ite (fun _ => ⟨trivial, h⟩) fun _ => trivial
  · rw [e, e']
    exact ⟨trivial, hrs⟩

/-- Lists agree if their items do. -/
theorem commaList {ts us : List Token} {close : String} {R : α → β → Prop}
    {item : (vs : List Token) → vs.length ≤ ts.length → Reading (Taken vs α)}
    {item' : (vs : List Token) → vs.length ≤ us.length → Reading (Taken vs β)}
    (h : Twins ρ ts us)
    (hitem : ∀ vs vs' hvs hvs', Twins ρ vs vs' →
      Agree (Read.Twin ρ R) (item vs hvs) (item' vs' hvs')) :
    Agree (Read.Twin ρ (List.Forall₂ R)) (Cursor.commaList close ts item)
      (Cursor.commaList close us item') := by
  rw [Cursor.commaList, Cursor.commaList]
  obtain ⟨e, e'⟩ | ⟨t, r, hr, u, s, hs, e, e', hrs⟩ := h.mark? close
  · rw [e, e']
    refine (hitem _ _ _ _ h).bind_taken fun x r hr y s hs hxy hrs => ?_
    dsimp only
    obtain ⟨e, e'⟩ | ⟨t, r, hr, u, s, hs, e, e', hrs'⟩ := hrs.mark? ","
    · rw [e, e']
      exact (hrs.mark close).bind_taken fun _ _ _ _ _ _ _ h => ⟨.cons hxy .nil, h⟩
    · rw [e, e']
      exact (commaList hrs' fun _ _ _ _ => hitem _ _ _ _).bind_taken
        fun _ _ _ _ _ _ hxys h => ⟨.cons hxy hxys, h⟩
  · rw [e, e']
    exact ⟨.nil, hrs⟩
termination_by ts.length
decreasing_by omega

/-- Marks and words are no strings, so twins have the same operators. -/
theorem binaryOperator? (h : Twins ρ ts us) (least : Nat) :
    Cursor.binaryOperator? least ts = none ∧ Cursor.binaryOperator? least us = none ∨
      ∃ op r hr s hs, Cursor.binaryOperator? least ts = some ⟨op, r, hr⟩ ∧
        Cursor.binaryOperator? least us = some ⟨op, s, hs⟩ ∧ Twins ρ r s := by
  have hp : (fun t => t.kind = .mark || t.isWord "instanceof" || t.isWord "in") = mayOperate := rfl
  rw [Cursor.binaryOperator?, Cursor.binaryOperator?, hp]
  obtain ⟨e, e'⟩ | ⟨t, r, hr, u, s, hs, e, e', halike, ht, hrs⟩ :=
    h.take? fun _ _ h => h.mayOperate_eq
  · rw [e, e']
    exact .inl ⟨rfl, rfl⟩
  · rw [e, e']
    dsimp only
    rw [halike.text_eq_of_mayOperate ht]
    cases Operator.precedence? t.text with
    | none => exact .inl ⟨rfl, rfl⟩
    | some q =>
      dsimp only
      by_cases hq : q ≤ least
      · rw [if_pos hq, if_pos hq]
        exact .inl ⟨rfl, rfl⟩
      · rw [if_neg hq, if_neg hq]
        exact .inr ⟨_, r, hr, s, hs, rfl, rfl, hrs⟩

end Twins

end Cursor

end DebugGuard
