import DebugGuard.Script.Grammar
import Mathlib

/-!
# What readers take

A reader succeeds with a value and the tokens that it leaves (`Takes`, `Finds`), or not at
all.  The theorems say when a reader succeeds that is made of others, and when the small ones do: a
single token (`Front`), the end of a statement, a binary operator, a list with commas
(`takes_commaList`).
-/

namespace DebugGuard

variable {α β : Type} {ts us r : List Token}

/-- The reader succeeds with `v` and leaves `r`. -/
def Takes {least : Nat} (x : Reading (Read least ts α)) (v : α) (r : List Token) : Prop :=
  ∃ h, x = .ok ⟨v, r, h⟩

/-- The reader succeeds, and finds `v` with `r` behind it. -/
def Finds (x : Reading (Option (Taken ts α))) (v : α) (r : List Token) : Prop :=
  ∃ h, x = .ok (some ⟨v, r, h⟩)

namespace Takes

variable {least most : Nat}

theorem bound {x : Reading (Read least ts α)} {v : α} (h : Takes x v r) :
    r.length + least ≤ ts.length :=
  let ⟨hr, _⟩ := h; hr

theorem shorter {x : Reading (Taken ts α)} {v : α} (h : Takes x v r) : r.length < ts.length :=
  h.bound

theorem unique {x : Reading (Read least ts α)} {v w : α} {s : List Token} (h : Takes x v r)
    (h' : Takes x w s) : v = w ∧ r = s := by
  obtain ⟨_, rfl⟩ := h
  obtain ⟨_, heq⟩ := h'
  cases heq
  exact ⟨rfl, rfl⟩

@[simp] theorem ok {v : α} {t : Read least ts α} :
    Takes (.ok t) v r ↔ v = t.value ∧ r = t.rest := by
  obtain ⟨v', r', h⟩ := t
  constructor
  · rintro ⟨h, e⟩; cases e; exact ⟨rfl, rfl⟩
  · rintro ⟨rfl, rfl⟩; exact ⟨h, rfl⟩

@[simp] theorem pure {v : α} {t : Read least ts α} :
    Takes (Pure.pure t) v r ↔ v = t.value ∧ r = t.rest := ok

@[simp] theorem error {v : α} {e : SourceError} :
    ¬Takes (.error e : Reading (Read least ts α)) v r := by
  rintro ⟨h, e⟩; cases e

@[simp] theorem bind {x : Reading (Read least us β)} {f : Read least us β → Reading (Read most ts α)}
    {v : α} :
    Takes (x >>= f) v r ↔ ∃ b s, ∃ h : Takes x b s, Takes (f ⟨b, s, h.bound⟩) v r := by
  constructor
  · rintro ⟨h, e⟩
    cases x with
    | error e' => cases e
    | ok t => exact ⟨t.value, t.rest, ⟨t.bound, rfl⟩, h, e⟩
  · rintro ⟨b, s, ⟨_, rfl⟩, h, e⟩
    exact ⟨h, e⟩

end Takes

namespace Finds

theorem shorter {x : Reading (Option (Taken ts α))} {v : α} (h : Finds x v r) :
    r.length < ts.length :=
  let ⟨hr, _⟩ := h; hr

@[simp] theorem pure_some {v : α} {t : Taken ts α} :
    Finds (Pure.pure (some t)) v r ↔ v = t.value ∧ r = t.rest := by
  obtain ⟨v', r', h⟩ := t
  constructor
  · rintro ⟨h, e⟩; cases e; exact ⟨rfl, rfl⟩
  · rintro ⟨rfl, rfl⟩; exact ⟨h, rfl⟩

@[simp] theorem pure_none {v : α} : ¬@Finds _ ts (Pure.pure none) v r := by
  rintro ⟨h, e⟩; cases e

@[simp] theorem bind {x : Reading (Taken us β)} {f : Taken us β → Reading (Option (Taken ts α))}
    {v : α} :
    Finds (x >>= f) v r ↔ ∃ b s, ∃ h : Takes x b s, Finds (f ⟨b, s, h.shorter⟩) v r := by
  constructor
  · rintro ⟨h, e⟩
    cases x with
    | error e' => cases e
    | ok t => exact ⟨t.value, t.rest, ⟨t.shorter, rfl⟩, h, e⟩
  · rintro ⟨b, s, ⟨_, rfl⟩, h, e⟩
    exact ⟨h, e⟩

theorem takes_bind {x : Reading (Option (Taken us β))}
    {f : Option (Taken us β) → Reading (Passed ts α)} {v : α} :
    Takes (x >>= f) v r ↔ x = .ok none ∧ Takes (f none) v r ∨
      ∃ b s, ∃ h : Finds x b s, Takes (f (some ⟨b, s, h.shorter⟩)) v r := by
  constructor
  · rintro ⟨h, e⟩
    cases x with
    | error e' => cases e
    | ok t =>
      cases t with
      | none => exact .inl ⟨rfl, h, e⟩
      | some t => exact .inr ⟨t.value, t.rest, ⟨t.shorter, rfl⟩, h, e⟩
  · rintro (⟨rfl, h, e⟩ | ⟨b, s, ⟨_, rfl⟩, h, e⟩) <;> exact ⟨h, e⟩

end Finds

/-! ### Single tokens -/

namespace Token

theorem isMark_of_ne {t : Token} {m m' : String} (hne : m ≠ m') (h : t.isMark m = true) :
    t.isMark m' = false := by
  simp only [isMark, Bool.and_eq_true, beq_iff_eq, decide_eq_true_eq] at h
  simp [isMark, h, hne]

theorem isMark_of_isWord {t : Token} {w : String} (h : t.isWord w = true) (m : String) :
    t.isMark m = false := by
  simp only [isWord, Bool.and_eq_true, decide_eq_true_eq] at h
  simp [isMark, h]

end Token

namespace Cursor

variable {p : Token → Bool} {t : Token}

@[simp] theorem take?_nil : take? p [] = none := rfl

theorem take?_cons_of_pos (h : p t = true) :
    take? p (t :: ts) = some ⟨t, ts, Nat.lt_succ_self _⟩ := by
  rw [take?, if_pos h]

theorem take?_cons_of_neg (h : p t = false) : take? p (t :: ts) = none := by
  rw [take?, if_neg (by simp [h])]

@[simp] theorem take?_cons_eq_none : take? p (t :: ts) = none ↔ p t = false := by
  cases h : p t <;> simp [take?, h]

@[simp] theorem takes_unexpected {least : Nat} {w : Wanted} {v : α} :
    ¬Takes (unexpected w us : Reading (Read least ts α)) v r :=
  Takes.error

/-- A token that satisfies `p` stands in front of `r`. -/
def Front (p : Token → Bool) (ts : List Token) (t : Token) (r : List Token) : Prop :=
  ts = t :: r ∧ p t = true

@[simp] theorem front_nil : ¬Front p [] t r := by
  simp [Front]

theorem front_cons_of_neg {u : Token} (h : p u = false) : ¬Front p (u :: us) t r := by
  rintro ⟨hu, ht⟩
  cases hu
  simp [h] at ht

theorem front_cons_of_pos {u : Token} (h : p u = true) :
    Front p (u :: us) t r ↔ t = u ∧ r = us := by
  constructor
  · rintro ⟨hu, -⟩
    cases hu
    exact ⟨rfl, rfl⟩
  · rintro ⟨rfl, rfl⟩
    exact ⟨rfl, h⟩

theorem exists_front_cons {u : Token} {P : Token → List Token → Prop} (h : p u = true) :
    (∃ t r, Front p (u :: us) t r ∧ P t r) ↔ P u us := by
  constructor
  · rintro ⟨t, r, ht, hP⟩
    obtain ⟨rfl, rfl⟩ := (front_cons_of_pos h).1 ht
    exact hP
  · exact fun hP => ⟨u, us, ⟨rfl, h⟩, hP⟩

theorem Front.take? (h : Front p ts t r) : ∃ hr, Cursor.take? p ts = some ⟨t, r, hr⟩ := by
  obtain ⟨rfl, h⟩ := h
  exact ⟨_, take?_cons_of_pos h⟩

theorem front_of_take? {hr} (h : Cursor.take? p ts = some ⟨t, r, hr⟩) : Front p ts t r := by
  cases ts with
  | nil => cases h
  | cons u us =>
    cases hp : p u
    · rw [take?_cons_of_neg hp] at h
      cases h
    · rw [take?_cons_of_pos hp] at h
      cases h
      exact ⟨rfl, hp⟩

@[simp] theorem takes_take {w : Wanted} : Takes (take p w ts) t r ↔ Front p ts t r := by
  cases ts with
  | nil => simp [take]
  | cons u us =>
    cases hp : p u
    · simp [take, take?_cons_of_neg hp, front_cons_of_neg hp]
    · simp [take, take?_cons_of_pos hp, front_cons_of_pos hp]

@[simp] theorem takes_mark {m : String} :
    Takes (mark m ts) t r ↔ Front (·.isMark m) ts t r := takes_take

@[simp] theorem takes_word {w : String} :
    Takes (word w ts) t r ↔ Front (·.isWord w) ts t r := takes_take

@[simp] theorem takes_name : Takes (name ts) t r ↔ Front Token.isName ts t r := takes_take

@[simp] theorem takes_anyName :
    Takes (anyName ts) t r ↔ Front (·.kind = .identifier) ts t r := takes_take

@[simp] theorem takes_stringLiteral :
    Takes (stringLiteral ts) t r ↔ Front (·.kind = .string) ts t r := takes_take

/-- A statement ends with a semicolon, or without one in front of what ends it by itself. -/
theorem takes_semicolon : Takes (semicolon ts) () r ↔
    (∃ t, Front (·.isMark ";") ts t r) ∨
      take? (·.isMark ";") ts = none ∧ endsStatement (current ts) = true ∧ r = ts := by
  rw [semicolon, mark?]
  cases ts with
  | nil => cases h : endsStatement (current []) <;> simp
  | cons t ts =>
    cases ht : t.isMark ";"
    · cases h : endsStatement (current (t :: ts)) <;>
        simp [take?_cons_of_neg, front_cons_of_neg, ht]
    · simp [take?_cons_of_pos, front_cons_of_pos, ht]

/-- Nothing but a mark or one of two words is a binary operator. -/
def mayOperate (t : Token) : Bool :=
  t.kind = .mark || t.isWord "instanceof" || t.isWord "in"

/-- A binary operator that binds tighter than `least` stands in front of `r`. -/
def Operates (least : Nat) (ts : List Token) (op : String) (p : Nat) (r : List Token) : Prop :=
  ∃ h, binaryOperator? least ts = some ⟨(op, p), r, h⟩

theorem operates_iff {least p : Nat} {op : String} : Operates least ts op p r ↔
    ∃ t, Front mayOperate ts t r ∧ t.text = op ∧ Operator.precedence? op = some p ∧ least < p := by
  have hdef : binaryOperator? least ts = (take? mayOperate ts).bind fun x =>
      (Operator.precedence? x.value.text).bind fun p =>
        if p ≤ least then none else some ⟨(x.value.text, p), x.rest, x.shorter⟩ := by
    have hp : (fun t => t.kind = .mark || t.isWord "instanceof" || t.isWord "in") = mayOperate :=
      rfl
    rw [binaryOperator?, hp]
    cases take? mayOperate ts with
    | none => rfl
    | some x =>
      dsimp only [Option.bind_some]
      cases Operator.precedence? x.value.text <;> rfl
  rw [Operates, hdef]
  cases ts with
  | nil => simp
  | cons t ts =>
    cases ht : mayOperate t
    · simp [take?_cons_of_neg, front_cons_of_neg, ht]
    · rw [take?_cons_of_pos ht]
      simp only [front_cons_of_pos ht, and_assoc, exists_eq_left, Option.bind_some]
      cases hp : Operator.precedence? t.text with
      | none =>
        simp only [Option.bind_none, reduceCtorEq, exists_false, false_iff]
        rintro ⟨-, rfl, hp', -⟩
        simp [hp] at hp'
      | some q =>
        rw [Option.bind_some]
        constructor
        · rintro ⟨h, e⟩
          by_cases hq : q ≤ least
          · rw [if_pos hq] at e
            cases e
          · rw [if_neg hq] at e
            cases e
            exact ⟨rfl, rfl, hp, by omega⟩
        · rintro ⟨rfl, rfl, hp', hlt⟩
          obtain rfl : q = p := by simpa [hp] using hp'
          exact ⟨Nat.lt_succ_self _, by rw [if_neg (by omega)]⟩

end Cursor

/-! ### Lists -/

namespace Grammar

open Cursor

/-- A part that is read, and what is asked of it. -/
theorem exists_and_iff {P P' Q' : Prop} {Q : P → Prop} (hp : P ↔ P') (hq : ∀ h, Q h ↔ Q') :
    (∃ h, Q h) ↔ P' ∧ Q' :=
  ⟨fun ⟨h, hQ⟩ => ⟨hp.1 h, (hq h).1 hQ⟩, fun ⟨h, hQ⟩ => ⟨hp.2 h, (hq _).2 hQ⟩⟩

theorem exists_unit {p : Unit → Prop} : (∃ u, p u) ↔ p () :=
  ⟨fun ⟨_, h⟩ => h, fun h => ⟨_, h⟩⟩

/-- Items with commas between them and perhaps one behind the last, then the mark `close`. -/
inductive Items (close : String) (item : List Token → α → List Token → Prop) :
    List Token → List α → List Token → Prop
  | nil {ts t r} (ht : Front (·.isMark close) ts t r) : Items close item ts [] r
  | last {ts x s t r} (hts : take? (·.isMark close) ts = none) (hx : item ts x s)
      (hs : take? (·.isMark ",") s = none) (ht : Front (·.isMark close) s t r) :
      Items close item ts [x] r
  | more {ts x s t s' xs r} (hts : take? (·.isMark close) ts = none) (hx : item ts x s)
      (ht : Front (·.isMark ",") s t s') (hxs : Items close item s' xs r) :
      Items close item ts (x :: xs) r

theorem takes_commaList {close : String} {ts r : List Token}
    {item : (us : List Token) → Reading (Taken us α)} {xs : List α} :
    Takes (commaList close ts fun us _ => item us) xs r ↔
      Items close (fun us x s => Takes (item us) x s) ts xs r := by
  constructor
  · intro h
    unfold commaList at h
    split at h
    · next heq =>
      obtain ⟨rfl, rfl⟩ := Takes.ok.1 h
      exact .nil (front_of_take? heq)
    · next hts =>
      obtain ⟨x, s, hx, h⟩ := Takes.bind.1 h
      dsimp only at h
      split at h
      · next s' _ heq =>
        obtain ⟨ys, s'', hys, h⟩ := Takes.bind.1 h
        obtain ⟨rfl, rfl⟩ := Takes.pure.1 h
        have := hx.shorter
        exact .more hts hx (front_of_take? heq) (takes_commaList.1 hys)
      · next hs =>
        obtain ⟨t, s', ht, h⟩ := Takes.bind.1 h
        obtain ⟨rfl, rfl⟩ := Takes.pure.1 h
        exact .last hts hx hs (takes_mark.1 ht)
  · intro h
    induction h with
    | nil ht =>
      obtain ⟨_, e⟩ := ht.take?
      rw [commaList, mark?, e]
      simp
    | last hts hx hs ht =>
      rw [commaList, mark?, hts]
      refine Takes.bind.2 ⟨_, _, hx, ?_⟩
      dsimp only
      rw [mark?, hs]
      exact Takes.bind.2 ⟨_, _, takes_mark.2 ht, Takes.pure.2 ⟨rfl, rfl⟩⟩
    | more hts hx ht _ ih =>
      rw [commaList, mark?, hts]
      refine Takes.bind.2 ⟨_, _, hx, ?_⟩
      obtain ⟨_, e⟩ := ht.take?
      dsimp only
      rw [mark?, e]
      exact Takes.bind.2 ⟨_, _, ih, Takes.pure.2 ⟨rfl, rfl⟩⟩
termination_by ts.length
decreasing_by omega

end Grammar

end DebugGuard
