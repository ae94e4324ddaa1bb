import DebugGuard.Proofs.Script.Partition
import DebugGuard.Proofs.Script.Reading

/-!
# Reading no further than the end of file

A script is read once as it is, and once with more tokens behind its end of file
(`Cursor.Fenced`).  Two readings are confined if they give the same result, or refuse the same token
of the script (`Confined`).  The readers that the grammar is made of are confined, and they leave
both scripts at the same place, which is never behind the end of file: no reader takes it, and none
looks behind it.

What a reader makes of its tokens is kept beside this, as a property of its value.
-/

namespace DebugGuard

/-! ### The end of file -/

/-- An end of file, which has no text. -/
def Token.IsLast (e : Token) : Prop :=
  e.kind = .endOfFile ∧ e.text = ""

namespace Token.IsLast

open Cursor Grammar

variable {e : Token}

theorem not_kind (h : e.IsLast) {kind : TokenKind} (hkind : kind ≠ .endOfFile) :
    decide (e.kind = kind) = false := by
  rw [h.1]
  exact decide_eq_false hkind.symm

theorem not_isMark (h : e.IsLast) (text : String) : e.isMark text = false := by
  simp [Token.isMark, h.1]

theorem not_isWord (h : e.IsLast) (text : String) : e.isWord text = false := by
  simp [Token.isWord, h.1]

theorem not_isName (h : e.IsLast) : e.isName = false := by
  simp [Token.isName, h.1]

theorem not_mayOperate (h : e.IsLast) : mayOperate e = false := by
  rw [mayOperate, h.not_kind (by decide), h.not_isWord, h.not_isWord]
  rfl

theorem not_isUnary (h : e.IsLast) : isUnary e = false := by
  simp [isUnary, h.1]

theorem not_isAssigning (h : e.IsLast) : isAssigning e = false := by
  simp [isAssigning, h.1]

theorem not_isSome_atom? (h : e.IsLast) : (atom? e).isSome = false := by
  simp [atom?, h.1]

/-- The text of a token decides here, whatever its kind, so it matters that there is none. -/
theorem not_isSome_keyword? (h : e.IsLast) : (keyword? e).isSome = false := by
  rw [keyword?, h.2]
  decide

end Token.IsLast

namespace Cursor

/-- The tokens end with an end of file, and there is no other one among them. -/
inductive Closed : List Token → Prop
  | last {e} (he : e.IsLast) : Closed [e]
  | cons {t ts} (ht : t.kind ≠ .endOfFile) (hts : Closed ts) : Closed (t :: ts)

theorem closed_of_scans {pos : Nat} {cs : List Char} {ts : List Token}
    (h : Token.Scans pos cs ts) : Closed ts := by
  induction h with
  | last => exact .last ⟨rfl, rfl⟩
  | token _ _ hl _ ih => exact .cons (Scan.valid_of_lexeme hl).kind_ne ih

theorem closed_of_scan {source : String} {ts : List Token} (h : Token.scan source = .ok ts) :
    Closed ts :=
  closed_of_scans (Token.scans_of_scanFrom h)

namespace Closed

variable {ts us : List Token}

theorem ne_nil (h : Closed ts) : ts ≠ [] := by
  cases h <;> simp

theorem current_mem (h : Closed ts) : current ts ∈ ts := by
  cases h <;> exact List.mem_cons_self

/-- Where the end of file stands in front, nothing else is left. -/
theorem eq_of_atEnd (h : Closed ts) (hend : atEnd ts = true) :
    ∃ e, e.kind = .endOfFile ∧ ts = [e] := by
  cases h with
  | last he => exact ⟨_, he.1, rfl⟩
  | cons ht =>
    have := of_decide_eq_true hend
    exact absurd this ht

theorem suffix (h : Closed ts) (hus : us <:+ ts) (hne : us ≠ []) : Closed us := by
  induction h with
  | last he =>
    rcases List.suffix_cons_iff.1 hus with rfl | hus
    · exact .last he
    · exact absurd (List.suffix_nil.1 hus) hne
  | cons ht hts ih =>
    rcases List.suffix_cons_iff.1 hus with rfl | hus
    · exact .cons ht hts
    · exact ih hus

end Closed

/-- The same place in two scripts, in `all` and in what goes on with `extra` behind it. -/
structure Fenced (all extra ts us : List Token) : Prop where
  suffix : ts <:+ all
  closed : Closed ts
  eq : us = ts ++ extra

end Cursor

/-- The values are the same and satisfy `P`, and the same place is left. -/
def Read.Fenced {least : Nat} {ts us : List Token} {α : Type} (all extra : List Token)
    (P : α → Prop) (a : Read least ts α) (b : Read least us α) : Prop :=
  (b.value = a.value ∧ P a.value) ∧ Cursor.Fenced all extra a.rest b.rest

/-- Both readings refuse the same one of the tokens, or both succeed with related results. -/
def Confined {σ τ : Type} (all : List Token) (S : σ → τ → Prop) : Reading σ → Reading τ → Prop
  | .ok a, .ok b => S a b
  | .error e, .error e' => e' = e ∧ ∃ wanted, ∃ t ∈ all, e = ⟨.unexpected wanted t, t.start⟩
  | _, _ => False

namespace Confined

variable {σ τ σ' τ' : Type} {S : σ → τ → Prop} {S' : σ' → τ' → Prop} {all extra : List Token}

theorem bind {x : Reading σ'} {y : Reading τ'} {f : σ' → Reading σ} {g : τ' → Reading τ}
    (h : Confined all S' x y) (hfg : ∀ a b, S' a b → Confined all S (f a) (g b)) :
    Confined all S (x >>= f) (y >>= g) := by
  cases x <;> cases y
  · exact h
  · exact h.elim
  · exact h.elim
  · exact hfg _ _ h

theorem bind_taken {least : Nat} {ts us : List Token} {α : Type} {P : α → Prop}
    {x : Reading (Read least ts α)} {y : Reading (Read least us α)}
    {f : Read least ts α → Reading σ} {g : Read least us α → Reading τ}
    (h : Confined all (Read.Fenced all extra P) x y)
    (hfg : ∀ v r hr s hs, P v → Cursor.Fenced all extra r s →
      Confined all S (f ⟨v, r, hr⟩) (g ⟨v, s, hs⟩)) :
    Confined all S (x >>= f) (y >>= g) := by
  refine h.bind ?_
  rintro ⟨v, r, hr⟩ ⟨w, s, hs⟩ ⟨⟨hvw, hv⟩, hrs⟩
  obtain rfl : w = v := hvw
  exact hfg _ r hr s hs hv hrs

theorem bind_found {ts us : List Token} {α : Type} {P : α → Prop}
    {x : Reading (Option (Taken ts α))} {y : Reading (Option (Taken us α))}
    {f : Option (Taken ts α) → Reading σ} {g : Option (Taken us α) → Reading τ}
    (h : Confined all (Option.Rel (Read.Fenced all extra P)) x y)
    (hnone : Confined all S (f none) (g none))
    (hsome : ∀ v r hr s hs, P v → Cursor.Fenced all extra r s →
      Confined all S (f (some ⟨v, r, hr⟩)) (g (some ⟨v, s, hs⟩))) :
    Confined all S (x >>= f) (y >>= g) := by
  refine h.bind fun a b hab => ?_
  cases hab with
  | none => exact hnone
  | @some a b hab =>
    obtain ⟨v, r, hr⟩ := a
    obtain ⟨w, s, hs⟩ := b
    obtain ⟨⟨hvw, hv⟩, hrs⟩ := hab
    obtain rfl : w = v := hvw
    exact hsome _ r hr s hs hv hrs

theorem ite {b : Bool} {x x' : Reading σ} {y y' : Reading τ} (ht : b = true → Confined all S x y)
    (hf : b = false → Confined all S x' y') :
    Confined all S (if b then x else x') (if b then y else y') := by
  cases b
  · exact hf rfl
  · exact ht rfl

theorem cases {x : Reading σ} {y : Reading τ} (h : Confined all S x y) :
    (∃ a b, x = .ok a ∧ y = .ok b ∧ S a b) ∨ ∃ wanted, ∃ t ∈ all,
      x = .error ⟨.unexpected wanted t, t.start⟩ ∧ y = .error ⟨.unexpected wanted t, t.start⟩ := by
  cases x <;> cases y
  · obtain ⟨rfl, wanted, t, ht, rfl⟩ := h
    exact .inr ⟨wanted, t, ht, rfl, rfl⟩
  · exact h.elim
  · exact h.elim
  · exact .inl ⟨_, _, rfl, rfl, h⟩

theorem mono {S' : σ → τ → Prop} {x : Reading σ} {y : Reading τ} (h : Confined all S x y)
    (hS : ∀ a b, S a b → S' a b) : Confined all S' x y := by
  cases x <;> cases y
  · exact h
  · exact h.elim
  · exact h.elim
  · exact hS _ _ h

end Confined

namespace Cursor

open Grammar

variable {all extra ts us : List Token} {α : Type}

namespace Fenced

theorem refl (h : Closed ts) (extra : List Token) : Fenced ts extra ts (ts ++ extra) :=
  ⟨List.suffix_rfl, h, rfl⟩

theorem current_eq (h : Fenced all extra ts us) : current us = current ts := by
  obtain ⟨-, hclosed, rfl⟩ := h
  cases hclosed <;> rfl

theorem current_mem (h : Fenced all extra ts us) : current ts ∈ all :=
  h.suffix.subset h.closed.current_mem

theorem start_eq (h : Fenced all extra ts us) : start us = start ts := by
  rw [start, start, h.current_eq]

/-- The token behind the one in front is the same, unless that is the last one. -/
theorem next_eq (h : Fenced all extra ts us) (ht : (current ts).kind ≠ .endOfFile) :
    next us = next ts := by
  obtain ⟨-, hclosed, rfl⟩ := h
  cases hclosed with
  | last he => exact absurd he.1 ht
  | cons _ hts => cases hts <;> rfl

theorem atMark_eq (h : Fenced all extra ts us) (text : String) :
    atMark text us = atMark text ts := by
  rw [atMark, atMark, h.current_eq]

theorem atWord_eq (h : Fenced all extra ts us) (text : String) :
    atWord text us = atWord text ts := by
  rw [atWord, atWord, h.current_eq]

theorem atEnd_eq (h : Fenced all extra ts us) : atEnd us = atEnd ts := by
  rw [atEnd, atEnd, h.current_eq]

/-- The way to the closing parenthesis leads over names and commas, so not over the end of file. -/
theorem closesArrow_append {ts : List Token} (h : Closed ts) :
    closesArrow (ts ++ extra) = closesArrow ts := by
  have hmark {r : List Token} (hr : Closed r) (text : String) :
      atMark text (r ++ extra) = atMark text r := by
    cases hr <;> rfl
  cases h with
  | last he =>
    -- no parenthesis and no name, so the search ends here
    rw [List.singleton_append, closesArrow.eq_def, closesArrow.eq_def [_]]
    simp [he.not_isMark, he.1]
  | cons ht hts =>
    rw [List.cons_append, closesArrow.eq_def, closesArrow.eq_def (_ :: _)]
    dsimp only
    rw [hmark hts]
    cases hts with
    | last he => simp [he.not_isMark, atMark, current]
    | cons _ hts' =>
      rw [List.cons_append]
      dsimp only
      rw [hmark hts', closesArrow_append hts']
termination_by ts.length

theorem atArrow_eq (h : Fenced all extra ts us) : atArrow us = atArrow ts := by
  rw [atArrow, atArrow, h.current_eq, h.atMark_eq]
  -- only behind a name is the next token looked at, and only behind a mark are more of them
  cases hn : (current ts).isName
  · rw [if_neg Bool.false_ne_true, if_neg Bool.false_ne_true]
    obtain ⟨-, hclosed, rfl⟩ := h
    cases hclosed with
    | last he =>
      have : atMark "(" [_] = false := he.not_isMark "("
      rw [this, Bool.false_and, Bool.false_and]
    | cons _ hts => rw [List.cons_append, List.tail_cons, List.tail_cons, closesArrow_append hts]
  · have hkind : (current ts).kind ≠ .endOfFile := by
      intro hk
      simp [Token.isName, hk] at hn
    rw [if_pos rfl, if_pos rfl, h.next_eq hkind]

/-- A token other than the end of file is taken from both, or none. -/
theorem take? (h : Fenced all extra ts us) {p : Token → Bool}
    (hp : ∀ e : Token, e.IsLast → p e = false) :
    Cursor.take? p ts = none ∧ Cursor.take? p us = none ∨
      ∃ t r hr s hs, Cursor.take? p ts = some ⟨t, r, hr⟩ ∧ Cursor.take? p us = some ⟨t, s, hs⟩ ∧
        (t ∈ all ∧ p t = true) ∧ Fenced all extra r s := by
  obtain ⟨hsuffix, hclosed, rfl⟩ := h
  cases hclosed with
  | last he => exact .inl ⟨take?_cons_of_neg (hp _ he), take?_cons_of_neg (hp _ he)⟩
  | @cons t ts _ hts =>
    cases ht : p t
    · exact .inl ⟨take?_cons_of_neg ht, take?_cons_of_neg ht⟩
    · exact .inr ⟨t, ts, _, _, _, take?_cons_of_pos ht, take?_cons_of_pos ht,
        ⟨hsuffix.subset List.mem_cons_self, ht⟩,
        ⟨(List.suffix_cons t ts).trans hsuffix, hts, rfl⟩⟩

theorem mark? (h : Fenced all extra ts us) (text : String) :
    Cursor.mark? text ts = none ∧ Cursor.mark? text us = none ∨
      ∃ t r hr s hs, Cursor.mark? text ts = some ⟨t, r, hr⟩ ∧
        Cursor.mark? text us = some ⟨t, s, hs⟩ ∧ Fenced all extra r s := by
  obtain hnone | ⟨t, r, hr, s, hs, e, e', -, hrs⟩ := h.take? fun _ he => he.not_isMark text
  · exact .inl hnone
  · exact .inr ⟨t, r, hr, s, hs, e, e', hrs⟩

theorem word? (h : Fenced all extra ts us) (text : String) :
    Cursor.word? text ts = none ∧ Cursor.word? text us = none ∨
      ∃ t r hr s hs, Cursor.word? text ts = some ⟨t, r, hr⟩ ∧
        Cursor.word? text us = some ⟨t, s, hs⟩ ∧ Fenced all extra r s := by
  obtain hnone | ⟨t, r, hr, s, hs, e, e', -, hrs⟩ := h.take? fun _ he => he.not_isWord text
  · exact .inl hnone
  · exact .inr ⟨t, r, hr, s, hs, e, e', hrs⟩

theorem unexpected (h : Fenced all extra ts us) {σ τ : Type} {S : σ → τ → Prop} (wanted : Wanted) :
    Confined all S (Cursor.unexpected wanted ts) (Cursor.unexpected wanted us) := by
  rw [Cursor.unexpected, Cursor.unexpected, h.start_eq, h.current_eq]
  exact ⟨rfl, wanted, current ts, h.current_mem, rfl⟩

theorem take (h : Fenced all extra ts us) {p : Token → Bool} {wanted : Wanted}
    (hp : ∀ e : Token, e.IsLast → p e = false) :
    Confined all (Read.Fenced all extra fun t => t ∈ all ∧ p t = true)
      (Cursor.take p wanted ts) (Cursor.take p wanted us) := by
  rw [Cursor.take, Cursor.take]
  obtain ⟨e, e'⟩ | ⟨t, r, hr, s, hs, e, e', ht, hrs⟩ := h.take? hp
  · rw [e, e']
    exact h.unexpected wanted
  · rw [e, e']
    exact ⟨⟨rfl, ht⟩, hrs⟩

theorem mark (h : Fenced all extra ts us) (text : String) :
    Confined all (Read.Fenced all extra fun t => t ∈ all ∧ t.isMark text = true)
      (Cursor.mark text ts) (Cursor.mark text us) :=
  h.take fun _ he => he.not_isMark text

theorem word (h : Fenced all extra ts us) (text : String) :
    Confined all (Read.Fenced all extra fun t => t ∈ all ∧ t.isWord text = true)
      (Cursor.word text ts) (Cursor.word text us) :=
  h.take fun _ he => he.not_isWord text

theorem name (h : Fenced all extra ts us) :
    Confined all (Read.Fenced all extra fun t => t ∈ all ∧ t.isName = true)
      (Cursor.name ts) (Cursor.name us) :=
  h.take fun _ he => he.not_isName

theorem anyName (h : Fenced all extra ts us) :
    Confined all (Read.Fenced all extra fun t => t ∈ all ∧ decide (t.kind = .identifier) = true)
      (Cursor.anyName ts) (Cursor.anyName us) :=
  h.take fun _ he => he.not_kind (by decide)

theorem stringLiteral (h : Fenced all extra ts us) :
    Confined all (Read.Fenced all extra fun t => t ∈ all ∧ decide (t.kind = .string) = true)
      (Cursor.stringLiteral ts) (Cursor.stringLiteral us) :=
  h.take fun _ he => he.not_kind (by decide)

theorem semicolon (h : Fenced all extra ts us) :
    Confined all (Read.Fenced all extra fun _ => True) (Cursor.semicolon ts)
      (Cursor.semicolon us) := by
  rw [Cursor.semicolon, Cursor.semicolon]
  obtain ⟨e, e'⟩ | ⟨t, r, hr, s, hs, e, e', hrs⟩ := h.mark? ";"
  · rw [e, e', h.current_eq]
    exact .ite (fun _ => ⟨⟨rfl, trivial⟩, h⟩) fun _ => h.unexpected _
  · rw [e, e']
    exact ⟨⟨rfl, trivial⟩, hrs⟩

/-- What holds of each item holds of a list of them. -/
theorem commaList {ts us : List Token} {close : String} {P : α → Prop}
    {item : (vs : List Token) → vs.length ≤ ts.length → Reading (Taken vs α)}
    {item' : (vs : List Token) → vs.length ≤ us.length → Reading (Taken vs α)}
    (h : Fenced all extra ts us)
    (hitem : ∀ vs vs' hvs hvs', Fenced all extra vs vs' →
      Confined all (Read.Fenced all extra P) (item vs hvs) (item' vs' hvs')) :
    Confined all (Read.Fenced all extra fun xs => ∀ x ∈ xs, P x) (Cursor.commaList close ts item)
      (Cursor.commaList close us item') := by
  rw [Cursor.commaList, Cursor.commaList]
  obtain ⟨e, e'⟩ | ⟨t, r, hr, s, hs, e, e', hrs⟩ := h.mark? close
  · rw [e, e']
    refine (hitem _ _ _ _ h).bind_taken fun x r hr s hs hx hrs => ?_
    dsimp only
    obtain ⟨e, e'⟩ | ⟨t, r, hr, s, hs, e, e', hrs'⟩ := hrs.mark? ","
    · rw [e, e']
      exact (hrs.mark close).bind_taken fun _ _ _ _ _ _ h => ⟨⟨rfl, by simpa using hx⟩, h⟩
    · rw [e, e']
      exact (commaList hrs' fun _ _ _ _ => hitem _ _ _ _).bind_taken
        fun _ _ _ _ _ hxs h => ⟨⟨rfl, List.forall_mem_cons.2 ⟨hx, hxs⟩⟩, h⟩
  · rw [e, e']
    exact ⟨⟨rfl, by simp⟩, hrs⟩
termination_by ts.length
decreasing_by omega

theorem binaryOperator? (h : Fenced all extra ts us) (least : Nat) :
    Cursor.binaryOperator? least ts = none ∧ Cursor.binaryOperator? least us = none ∨
      ∃ op r hr s hs, Cursor.binaryOperator? least ts = some ⟨op, r, hr⟩ ∧
        Cursor.binaryOperator? least us = some ⟨op, s, hs⟩ ∧ Fenced all extra r s := by
  have hp : (fun t => t.kind = .mark || t.isWord "instanceof" || t.isWord "in") = mayOperate := rfl
  rw [Cursor.binaryOperator?, Cursor.binaryOperator?, hp]
  obtain ⟨e, e'⟩ | ⟨t, r, hr, s, hs, e, e', -, hrs⟩ := h.take? fun _ he => he.not_mayOperate
  · rw [e, e']
    exact .inl ⟨rfl, rfl⟩
  · rw [e, e']
    dsimp only
    cases Operator.precedence? t.text with
    | none => exact .inl ⟨rfl, rfl⟩
    | some q =>
      dsimp only
      by_cases hq : q ≤ least
      · rw [if_pos hq, if_pos hq]
        exact .inl ⟨rfl, rfl⟩
      · rw [if_neg hq, if_neg hq]
        exact .inr ⟨_, r, hr, s, hs, rfl, rfl, hrs⟩

end Fenced

end Cursor

end DebugGuard
