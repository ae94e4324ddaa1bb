import DebugGuard.Proofs.Script.ExpressionReadback

/-!
# Operands joined by operators

Operands with binary operators between them can be bracketed in many ways (`Operation`).  The
grammar reads them from left to right, and at each operator it decides by how tightly that one binds
whether it belongs to the operand on its right or to all that has been read.  What comes out is the
one bracketing in which no operator stands below one that binds tighter, and none on the right of
one that binds as tightly (`Operation.Climbs`).

Main statements:

* `Operation.eq_of_reading_eq`: there is at most one such bracketing;
* `takes_binary_of_joined`: the grammar takes the operands and operators up to the first token that
  is no operator, and makes this bracketing of them.
-/

namespace DebugGuard

open Cursor Grammar

/-! ### Bracketings -/

/-- Operands joined by binary operators, each operand with the position where it starts. -/
inductive Operation where
  | operand (start : Nat) (tree : Tree)
  | join (left : Operation) (op : String) (right : Operation)

namespace Operation

/-- What is read of an operation: operands and operators in turn. -/
inductive Item where
  | operand (start : Nat) (tree : Tree)
  | operator (op : String)

/-- The operands and operators from left to right. -/
def reading : Operation → List Item
  | operand start tree => [.operand start tree]
  | join l op r => l.reading ++ .operator op :: r.reading

/-- The byte offset of the leftmost operand. -/
def start : Operation → Nat
  | operand start _ => start
  | join l _ _ => l.start

/-- The tree of an operation, each node of which starts with its leftmost operand. -/
def tree : Operation → Tree
  | operand _ tree => tree
  | join l op r => .node l.start (.binary l.tree op r.tree)

/-- How tightly an operator binds. -/
def rank (op : String) : Nat :=
  (Operator.precedence? op).getD 0

/-- The operator that joins the whole, if there is one. -/
def outer? : Operation → Option String
  | operand .. => none
  | join _ op _ => some op

/-- On the left of an operator stands an operation that binds at least as tightly, on its right one
that binds tighter. -/
def Climbs : Operation → Prop
  | operand .. => True
  | join l op r =>
    (∀ q ∈ l.outer?, rank op ≤ rank q) ∧ (∀ q ∈ r.outer?, rank op < rank q) ∧ l.Climbs ∧ r.Climbs

variable {o o' : Operation} {op : String} {least : Nat}

theorem reading_ne_nil (o : Operation) : o.reading ≠ [] := by
  cases o <;> simp [reading]

/-- No operator inside binds looser than the outer one. -/
theorem Climbs.le_rank (h : o.Climbs) (hleast : ∀ q ∈ o.outer?, least ≤ rank q)
    (hop : .operator op ∈ o.reading) : least ≤ rank op := by
  induction o generalizing least with
  | operand => simp [reading] at hop
  | join l q r ihl ihr =>
    obtain ⟨hlq, hrq, hl, hr⟩ := h
    have hq : least ≤ rank q := hleast q rfl
    simp only [reading, List.mem_append, List.mem_cons, Item.operator.injEq] at hop
    rcases hop with hop | rfl | hop
    · exact ihl hl (fun q' hq' => Nat.le_trans hq (hlq q' hq')) hop
    · exact hq
    · exact ihr hr (fun q' hq' => Nat.le_trans hq (Nat.le_of_lt (hrq q' hq'))) hop

/-- An outer operator does not stand inside the left part of another bracketing. -/
theorem Climbs.not_extends {l r l' r' : Operation} {op' : String} {between : List Item}
    (h : (join l op r).Climbs) (h' : (join l' op' r').Climbs)
    (hl : l'.reading = l.reading ++ .operator op :: between)
    (hr : r.reading = between ++ .operator op' :: r'.reading) : False := by
  obtain ⟨-, hrank, -, hclimbs⟩ := h
  obtain ⟨hrank', -, hclimbs', -⟩ := h'
  have hle : rank op' ≤ rank op := hclimbs'.le_rank hrank' (by rw [hl]; simp)
  have hlt : rank op < rank op' := hclimbs.le_rank hrank (by rw [hr]; simp)
  omega

/-- The operands and operators determine the bracketing. -/
theorem eq_of_reading_eq (h : o.Climbs) (h' : o'.Climbs) (heq : o.reading = o'.reading) :
    o = o' := by
  induction o generalizing o' with
  | operand start tree =>
    cases o' with
    | operand => simpa [reading] using heq
    | join l op r =>
      have hne := l.reading_ne_nil
      cases hl : l.reading <;> simp_all [reading]
  | join l op r ihl ihr =>
    cases o' with
    | operand =>
      have hne := l.reading_ne_nil
      cases hl : l.reading <;> simp_all [reading]
    | join l' op' r' =>
      -- the outer operator is the last one of those that bind loosest
      rcases List.append_eq_append_iff.1 heq with ⟨between, hl, hr⟩ | ⟨between, hl, hr⟩
      · cases between with
        | nil =>
          rw [List.append_nil] at hl
          obtain ⟨hop, hr⟩ := List.cons.inj hr
          obtain ⟨-, -, hcl, hcr⟩ := h
          obtain ⟨-, -, hcl', hcr'⟩ := h'
          rw [ihl hcl hcl' hl.symm, ihr hcr hcr' hr, Item.operator.inj hop]
        | cons x between =>
          obtain ⟨rfl, hright⟩ := List.cons.inj hr
          exact (h.not_extends h' hl hright).elim
      · cases between with
        | nil =>
          rw [List.append_nil] at hl
          obtain ⟨hop, hr⟩ := List.cons.inj hr
          obtain ⟨-, -, hcl, hcr⟩ := h
          obtain ⟨-, -, hcl', hcr'⟩ := h'
          rw [ihl hcl hcl' hl, ihr hcr hcr' hr.symm, Item.operator.inj hop]
        | cons x between =>
          obtain ⟨rfl, hright⟩ := List.cons.inj hr
          exact (h'.not_extends h hl hright).elim

end Operation

/-! ### Reading them -/

open Operation

/-- Operators and operands in turn, as many as there are, with `r` behind them. -/
inductive Joined : List Token → List Item → List Token → Prop
  | nil {r : List Token} : Joined r [] r
  | cons {ts t s u s' items r} (ht : Front mayOperate ts t s)
      (hp : (Operator.precedence? t.text).isSome = true) (hu : Takes (unary s) u s')
      (hitems : Joined s' items r) :
      Joined ts (.operator t.text :: .operand (start s) u :: items) r

/-- No binary operator stands in front. -/
def Unjoined (r : List Token) : Prop :=
  ∀ t s, Front mayOperate r t s → Operator.precedence? t.text = none

variable {ts s r : List Token} {items : List Item} {op : String} {least p : Nat} {u : Tree}

theorem not_operates_of_unjoined (h : Unjoined r) : ¬Operates least r op p s := by
  intro hop
  obtain ⟨t, ht, rfl, hp, -⟩ := operates_iff.1 hop
  rw [h t s ht] at hp
  cases hp

theorem binaryOperator?_eq_none (h : ∀ op p s, ¬Operates least ts op p s) :
    binaryOperator? least ts = none := by
  cases hop : binaryOperator? least ts with
  | none => rfl
  | some x =>
    obtain ⟨⟨op, p⟩, s, hs⟩ := x
    exact (h op p s ⟨hs, hop⟩).elim

theorem Joined.rank_pos (h : Joined ts (.operator op :: items) r) : 0 < rank op := by
  cases h with
  | cons _ hp =>
    obtain ⟨p, hp⟩ := Option.isSome_iff_exists.1 hp
    have := (precedence_bounds hp).1
    simp only [rank, hp, Option.getD_some]
    omega

/-- Of the operators and operands `items` in front of `r`, those in front of `s` have been joined
with `left`, and `back` is left. -/
structure Climbed (left : Operation) (least : Nat) (items : List Item) (r : List Token)
    (o : Operation) (back : List Item) (s : List Token) : Prop where
  reading_eq : o.reading ++ back = left.reading ++ items
  rest : Joined s back r
  climbs : o.Climbs
  start_eq : o.start = left.start
  /-- Only operators that bind tighter than `least` have been taken. -/
  above : ∀ q ∈ o.outer?, q ∈ left.outer? ∨ least < rank q
  /-- The first one that has not been taken does not bind tighter. -/
  stops : ∀ op more, back = .operator op :: more → rank op ≤ least
  length_le : back.length ≤ items.length

/-- **One run of the loop.**  It goes on while operators bind tighter than `least`; each takes as
its right operand what a run of its own makes of the operators that bind tighter still. -/
theorem exists_climbed {left : Operation} (hitems : Joined ts items r) (hr : Unjoined r)
    (hleft : left.Climbs)
    (hfirst : ∀ op more, items = .operator op :: more → ∀ q ∈ left.outer?, rank op ≤ rank q) :
    ∃ o back s, Climbed left least items r o back s ∧
      Takes (binaryTail left.start least left.tree ts) o.tree s := by
  induction hn : items.length using Nat.strongRecOn generalizing least left ts items with
  | ind n ih =>
  subst hn
  cases hitems with
  | nil =>
    have hstop : binaryOperator? least r = none :=
      binaryOperator?_eq_none fun _ _ _ => not_operates_of_unjoined hr
    exact ⟨left, [], r, ⟨rfl, .nil, hleft, rfl, fun _ hq => .inl hq, by simp, Nat.le_refl _⟩,
      takes_binaryTail.2 (.inl ⟨hstop, rfl, rfl⟩)⟩
  | @cons _ t s u s' items _ ht hp hu hitems =>
    obtain ⟨p, hp⟩ := Option.isSome_iff_exists.1 hp
    have hrank : rank t.text = p := by rw [rank, hp, Option.getD_some]
    by_cases hle : p ≤ least
    · -- the operator is left for whoever has called
      have hstop : binaryOperator? least ts = none := by
        refine binaryOperator?_eq_none fun op q s hop => ?_
        obtain ⟨t', ht', rfl, hq, hlt⟩ := operates_iff.1 hop
        obtain ⟨rfl, rfl⟩ := List.cons.inj (ht.1.symm.trans ht'.1)
        rw [hp] at hq
        cases hq
        omega
      refine ⟨left, _, ts, ⟨rfl, .cons ht (by simp [hp]) hu hitems, hleft, rfl,
        fun _ hq => .inl hq, fun op more h => ?_, Nat.le_refl _⟩,
        takes_binaryTail.2 (.inl ⟨hstop, rfl, rfl⟩)⟩
      cases h
      omega
    · have hop : Operates least ts t.text p s := operates_iff.2 ⟨t, ht, rfl, hp, by omega⟩
      obtain ⟨right, back₁, s₁, hright, hpasses⟩ : ∃ right back₁ s₁,
          Climbed (.operand (start s) u) p items r right back₁ s₁ ∧
            Takes (binaryTail (start s) p u s') right.tree s₁ :=
        ih items.length (by simp) hitems trivial (by simp [outer?]) rfl
      have hbinary : Takes (binary p s) right.tree s₁ :=
        takes_binary.2 ⟨u, s', hu, _, _, hpasses, rfl, rfl⟩
      have hjoin : (join left t.text right).Climbs := by
        refine ⟨hfirst _ _ rfl, fun q hq => ?_, hleft, hright.climbs⟩
        rcases hright.above q hq with h | h
        · cases h
        · omega
      have hlt : back₁.length < (Item.operator t.text :: .operand (start s) u :: items).length := by
        have := hright.length_le
        simp
        omega
      have hnext : ∀ op more, back₁ = .operator op :: more →
          ∀ q ∈ (join left t.text right).outer?, rank op ≤ rank q := by
        intro op more h q hq
        cases hq
        have := hright.stops op more h
        omega
      obtain ⟨o, back, s₂, ho, hpasses⟩ : ∃ o back s₂,
          Climbed (join left t.text right) least back₁ r o back s₂ ∧ Takes (binaryTail left.start
            least (.node left.start (.binary left.tree t.text right.tree)) s₁) o.tree s₂ :=
        ih back₁.length hlt hright.rest hjoin hnext rfl
      refine ⟨o, back, s₂, ⟨?_, ho.rest, ho.climbs, ho.start_eq, fun q hq => ?_, ho.stops, ?_⟩,
        takes_binaryTail.2 (.inr ⟨_, _, _, hop, _, _, hbinary, _, _, hpasses, rfl, rfl⟩)⟩
      · have := hright.reading_eq
        simp only [reading, List.cons_append, List.nil_append] at this
        rw [ho.reading_eq, reading, List.append_assoc, List.cons_append, this]
      · rcases ho.above q hq with h | h
        · cases h
          exact .inr (by omega)
        · exact .inr h
      · exact Nat.le_trans ho.length_le (Nat.le_of_lt hlt)

/-- A name is an operand, if nothing behind it carries it on. -/
theorem takes_unary_name {t : Token} (ht : t.isName = true) (hs : Quiet s) :
    Takes (unary (t :: s)) (.node t.start (.identifier t.text)) s := by
  obtain ⟨hk, hr⟩ := Token.kind_of_isName ht
  have hatom : atom? t = some (.identifier t.text) :=
    Tree.atom?_identifier (by rw [Token.word, hk]) (.inr hr)
  obtain ⟨hunary, hnew⟩ := Tree.isUnary_of_name (x := t.text) (.inr hr)
  have hunary : isUnary t = false := by simpa [isUnary, Word.isUnary, hk] using hunary
  have hnew : atWord "new" (t :: s) = false := by simp [atWord, current, Token.isWord, hnew]
  refine takes_unary.2 (.inr ⟨take?_cons_of_neg hunary, _, s, ?_, _, s,
    Tree.takes_callTail_of_quiet hs, rfl, rfl⟩)
  rw [if_neg (by simp [hnew])]
  exact takes_primary.2 (.inl
    ⟨t, s, ⟨rfl, by simp [hatom]⟩, by simp [hatom, Cursor.start, current], rfl⟩)

/-- **Precedence climbing.**  Operands joined by operators are read up to the first token that is no
operator, and bracketed in the only way in which operators climb. -/
theorem takes_binary_of_joined (hu : Takes (unary ts) u s) (hitems : Joined s items r)
    (hr : Unjoined r) :
    ∃ o : Operation, Takes (binary 0 ts) o.tree r ∧
      o.reading = .operand (start ts) u :: items ∧ o.Climbs ∧
      ∀ o' : Operation, o'.reading = .operand (start ts) u :: items → o'.Climbs → o' = o := by
  obtain ⟨o, back, s', ho, hpasses⟩ : ∃ o back s',
      Climbed (.operand (start ts) u) 0 items r o back s' ∧
      Takes (binaryTail (start ts) 0 u s) o.tree s' :=
    exists_climbed hitems hr trivial (by simp [outer?])
  have hback : back = [] ∧ s' = r := by
    have hrest := ho.rest
    cases hrest with
    | nil => exact ⟨rfl, rfl⟩
    | cons ht hp hu hitems =>
      have hpos := (Joined.cons ht hp hu hitems).rank_pos
      have := ho.stops _ _ rfl
      omega
  obtain ⟨rfl, rfl⟩ := hback
  have hreading : o.reading = .operand (start ts) u :: items := by
    simpa [reading] using ho.reading_eq
  exact ⟨o, takes_binary.2 ⟨u, s, hu, _, _, hpasses, rfl, rfl⟩, hreading, ho.climbs,
    fun o' h' hc' => eq_of_reading_eq hc' ho.climbs (h'.trans hreading.symm)⟩

/-- Of two differences the first one is taken first, and a product in between before both. -/
theorem difference_climbs : ∃ ts u s items r, Token.scan "a - b * c - d;" = .ok ts ∧
    Takes (unary ts) u s ∧ Joined s items r ∧ Unjoined r ∧
    ∃ o : Operation, Takes (binary 0 ts) o.tree r ∧
      o.reading = .operand (start ts) u :: items ∧ o.Climbs ∧
      ∀ o' : Operation, o'.reading = .operand (start ts) u :: items → o'.Climbs → o' = o := by
  have hscan : Token.scan "a - b * c - d;" = .ok
      [⟨.identifier, "a", 0, false⟩, ⟨.mark, "-", 2, false⟩, ⟨.identifier, "b", 4, false⟩,
        ⟨.mark, "*", 6, false⟩, ⟨.identifier, "c", 8, false⟩, ⟨.mark, "-", 10, false⟩,
        ⟨.identifier, "d", 12, false⟩, ⟨.mark, ";", 13, false⟩, ⟨.endOfFile, "", 14, false⟩] := by
    decide +kernel
  have name (x : String) (n : Nat) {t : Token} {s : List Token} (hx : Token.isReserved x = false)
      (ht : ∀ m ∈ ["(", ".", "["], t.isMark m = false) :
      Takes (unary (⟨.identifier, x, n, false⟩ :: t :: s)) (.node n (.identifier x)) (t :: s) :=
    takes_unary_name (by simp [Token.isName, hx]) fun m hm => take?_cons_of_neg (ht m hm)
  have hr : Unjoined [⟨.mark, ";", 13, false⟩, ⟨.endOfFile, "", 14, false⟩] := by
    rintro t s ⟨h, -⟩
    cases h
    rfl
  have hitems : Joined [⟨.mark, "-", 2, false⟩, ⟨.identifier, "b", 4, false⟩,
      ⟨.mark, "*", 6, false⟩, ⟨.identifier, "c", 8, false⟩, ⟨.mark, "-", 10, false⟩,
      ⟨.identifier, "d", 12, false⟩, ⟨.mark, ";", 13, false⟩, ⟨.endOfFile, "", 14, false⟩] _ _ :=
    .cons ⟨rfl, rfl⟩ rfl (name "b" 4 rfl (by decide))
      (.cons ⟨rfl, rfl⟩ rfl (name "c" 8 rfl (by decide))
        (.cons ⟨rfl, rfl⟩ rfl (name "d" 12 rfl (by decide)) .nil))
  exact ⟨_, _, _, _, _, hscan, name "a" 0 rfl (by decide), hitems, hr,
    takes_binary_of_joined (name "a" 0 rfl (by decide)) hitems hr⟩

end DebugGuard
