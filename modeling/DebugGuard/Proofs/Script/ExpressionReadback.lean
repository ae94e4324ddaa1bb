import DebugGuard.Proofs.Script.Edge

/-!
# Printed trees are read back

A tree that fits (`Tree.Fits`) is read back from the words that it is printed as, except for its
positions.  The induction is over the tree.  At each level of the grammar it says how reading goes
on behind the tree: at the tightest levels more accesses, calls and operators may follow, which the
grammar would take too, so there the statement is about what is left to be read (`Readable`).
-/

namespace DebugGuard

open Cursor Grammar Piece

variable {α γ δ : Type} {b : Bool} {depth : Nat} {ts s r : List Token} {t : Tree}

namespace Cursor

/-- Neither a call nor an access goes on in front. -/
def Quiet (r : List Token) : Prop :=
  ∀ m ∈ ["(", ".", "["], take? (·.isMark m) r = none

/-- Nothing in front carries an operand on. -/
def Settled (r : List Token) : Prop :=
  Quiet r ∧ ∀ op p s, ¬Operates 0 r op p s

/-- What stands in front ends an expression. -/
def Ends (r : List Token) : Prop :=
  ∀ t s, r = t :: s → t.kind = .endOfFile ∨
    t.kind = .mark ∧ t.text ∈ [")", "]", "\x7d", ",", ";", ":"]

theorem atMark_eq_false {m : String} (h : take? (·.isMark m) r = none) : atMark m r = false := by
  cases r with
  | nil => rfl
  | cons t r => exact take?_cons_eq_none.1 h

theorem ends_of_mark {t : Token} {m : String} (h : Front (·.isMark m) r t s)
    (hm : m ∈ [")", "]", "\x7d", ",", ";", ":"]) : Ends r := by
  rintro u us rfl
  obtain ⟨hu, ht⟩ := h
  cases hu
  obtain ⟨hk, rfl⟩ := Token.kind_of_isMark ht
  exact .inr ⟨hk, hm⟩

namespace Ends

variable (h : Ends r)
include h

theorem take?_eq_none {p : Token → Bool} (hp : ∀ t, t.kind = .endOfFile ∨
    t.kind = .mark ∧ t.text ∈ [")", "]", "\x7d", ",", ";", ":"] → p t = false) :
    take? p r = none := by
  cases r with
  | nil => rfl
  | cons t s => exact take?_cons_of_neg (hp t (h t s rfl))

theorem mark {m : String} (hm : m ∉ [")", "]", "\x7d", ",", ";", ":"]) :
    take? (·.isMark m) r = none := by
  refine h.take?_eq_none fun t ht => ?_
  rcases ht with ht | ⟨-, ht⟩
  · simp [Token.isMark, ht]
  · have : t.text ≠ m := by rintro rfl; exact hm ht
    simp [Token.isMark, this]

theorem assigning : take? isAssigning r = none := by
  refine h.take?_eq_none fun t ht => ?_
  have hall : ∀ m ∈ [")", "]", "\x7d", ",", ";", ":"], m ∉ Operator.assigning := by decide
  rcases ht with ht | ⟨-, ht⟩
  · simp [isAssigning, ht]
  · simp [isAssigning, hall _ ht]

theorem quiet : Quiet r := by
  have hall : ∀ m ∈ ["(", ".", "["], m ∉ [")", "]", "\x7d", ",", ";", ":"] := by decide
  exact fun m hm => h.mark (hall m hm)

theorem settled : Settled r := by
  refine ⟨h.quiet, fun op p s hop => ?_⟩
  obtain ⟨t, ht, rfl, hp, -⟩ := operates_iff.1 hop
  have hall : ∀ m ∈ [")", "]", "\x7d", ",", ";", ":"], m ∉ Operator.binary := by decide
  rcases h t s ht.1 with hk | ⟨-, hm⟩
  · have := ht.2
    simp [mayOperate, Token.isWord, hk] at this
  · exact hall _ hm (Operator.mem_binary hp)

end Ends

end Cursor

namespace Tree

/-! ### Lists -/

theorem items_of_commas {close : String} {xs : List γ} {P : γ → List Piece}
    {item : List Token → α → List Token → Prop} {f : α → δ} {g : γ → δ} {t : Token}
    (hitem : ∀ x ∈ xs, ∀ {b ts r}, Spells b (P x) ts r →
      (∃ t s, Front (·.isMark ",") r t s ∨ Front (·.isMark close) r t s) →
      ∃ a, item ts a r ∧ f a = g x ∧ take? (·.isMark close) ts = none)
    (hclose : close ≠ ",") (h : Spells b (commas (xs.map P)) ts r)
    (hr : Front (·.isMark close) r t s) : ∃ as, Items close item ts as s ∧ as.map f = xs.map g := by
  induction xs generalizing b ts with
  | nil =>
    obtain rfl := h
    exact ⟨[], .nil hr, rfl⟩
  | cons x xs ih =>
    have hx := @hitem x List.mem_cons_self
    cases xs with
    | nil =>
      obtain ⟨a, ha, hfa, hnone⟩ := hx h ⟨t, s, .inr hr⟩
      have hcomma : take? (·.isMark ",") r = none := by
        rw [hr.1]
        exact take?_cons_of_neg (Token.isMark_of_ne hclose hr.2)
      exact ⟨[a], .last hnone ha hcomma hr, by simp [hfa]⟩
    | cons y ys =>
      obtain ⟨s₁, hs₁, hrest⟩ := spells_append.1 h
      obtain ⟨c, s₂, hc, hrest⟩ := spells_mark hrest
      obtain ⟨a, ha, hfa, hnone⟩ := hx hs₁ ⟨c, s₂, .inl hc⟩
      obtain ⟨as, has, hmap⟩ := ih (fun z hz => hitem z (List.mem_cons_of_mem _ hz)) hrest
      exact ⟨a :: as, .more hnone ha hc has, by rw [List.map_cons, List.map_cons, hfa, hmap]⟩

theorem assignment_le_strength (t : Tree) : Strength.assignment ≤ t.strength := by
  match t with
  | .absent | .dangling => simp only [strength]; decide
  | .node _ top =>
    cases top with
    | binary => exact Nat.le_trans (by decide) (Nat.le_add_right _ _)
    | _ => simp only [strength, Node.strength]; decide

theorem render_expressions (es : List Tree) :
    Render.expressions depth es = es.map (Render.expression depth 0) := by
  induction es with
  | nil => simp [Render.expressions]
  | cons e es ih =>
    rw [Render.expressions, ih, List.map_cons, render_expression (assignment_le_strength e)]

theorem render_properties (ps : List Tree) :
    Render.properties depth ps = ps.map (Render.propertyOf depth) := by
  induction ps with
  | nil => simp [Render.properties]
  | cons p ps ih => rw [Render.properties, ih, List.map_cons]

theorem render_declarators (ds : List Tree) :
    Render.declarators depth ds = ds.map (Render.declaratorOf depth) := by
  induction ds with
  | nil => simp [Render.declarators]
  | cons d ds ih => rw [Render.declarators, ih, List.map_cons]

/-! ### Not an arrow function -/

theorem closesArrow_eq_false {u : Token} (hf : Fits .expression t)
    (hs : Spells b (Render.expression depth 0 t) ts (u :: r)) (hu : u.isMark ")" = true)
    (hr : atMark "=>" r = false) : closesArrow ts = false := by
  obtain ⟨v, vs, ws, rfl, hw, hnext, hatom⟩ := exists_opening hf hs
  have hclose : v.isMark ")" = false := by
    by_contra hv
    have := Word.goesOn_of_starts hw.starts
    rw [v.word_of_isMark (by simpa using hv)] at this
    exact absurd this (by decide)
  rw [closesArrow.eq_def]
  simp only [hclose, Bool.false_eq_true, if_false, ite_not]
  split
  · next hk =>
    cases ws with
    | nil =>
      obtain rfl := hatom (hw.alone rfl hk)
      simp [Token.isMark_of_ne (by decide : ")" ≠ ",") hu, hr]
    | cons w₂ ws =>
      match vs, hnext with
      | v₂ :: vs, hnext =>
        rw [List.map_cons, List.cons_prefix_cons] at hnext
        obtain ⟨rfl, -⟩ := hnext
        have hne (m : String) (hm : m = "," ∨ m = ")") : v₂.isMark m = false := by
          by_contra hv
          rw [Bool.not_eq_false] at hv
          rcases hw.second _ List.mem_cons_self with h | ⟨-, h⟩
          all_goals
            rw [v₂.word_of_isMark hv] at h
            rcases hm with rfl | rfl <;> exact absurd h (by decide)
        simp [hne "," (.inl rfl), hne ")" (.inr rfl)]
  · rfl

/-- Behind a parenthesis at the left edge, no parameters of an arrow function stand. -/
theorem closesArrow_tail_eq_false (hf : Fits .expression t) (ha : t.topIs Node.isArrow = false)
    (hs : Spells b (Render.expression depth 0 t) ts r) (hp : atMark "(" ts = true)
    (hr : atMark "=>" r = false) : closesArrow ts.tail = false := by
  induction t using Tree.induct generalizing r with
  | absent => cases hf
  | dangling => cases hf
  | node pos top ih =>
    rcases leads_of_fits hf with hedge | ⟨first, hmem, w, hl⟩
    swap
    · obtain ⟨u, s, hfirst, rfl⟩ := hl.spells hs
      refine ih first hmem hl.fits (not_arrow_of_strength hl.strong) hfirst ?_
      by_contra hu
      rw [Bool.not_eq_false] at hu
      have := hl.goesOn
      rw [u.word_of_isMark hu] at this
      exact absurd this (by decide)
    obtain ⟨ho, -⟩ := spells_opening hf hs
    have other (w : Word) (ws : List Word) (hw : opening (.node pos top) = w :: ws)
        (hne : w ≠ ⟨.mark, "("⟩) : closesArrow ts.tail = false := by
      rw [hw] at ho
      cases ts with
      | nil => simp at ho
      | cons v vs =>
        rw [List.map_cons, List.cons_prefix_cons] at ho
        exact absurd (ho.1.trans (v.word_of_isMark hp)) hne
    cases hf with
    | call | member | element | binary | assignment | conditional => cases hedge
    | arrow | arrowBlock => simp [topIs, top?, Node.isArrow] at ha
    | parenthesized he =>
      rw [render_node, Render.bare] at hs
      obtain ⟨u, s, ⟨rfl, -⟩, hrest⟩ := spells_mark hs
      obtain ⟨s', hs₁, hs₂⟩ := spells_append.1 hrest
      obtain ⟨v, s'', ⟨rfl, hv⟩, rfl⟩ := spells_mark hs₂
      exact closesArrow_eq_false he hs₁ hv hr
    | @literal _ v =>
      refine other v.word [] rfl ?_
      cases v with
      | boolean value => cases value <;> simp [Literal.word]
      | _ => simp [Literal.word]
    | identifier | object | array | construct => exact other _ _ rfl (by simp)
    | @functionExpression _ name => cases name <;> exact other _ _ rfl (by simp)
    | @unary _ op e hop =>
      have hall : ∀ op ∈ Operator.unaryMarks ++ Operator.unaryWords,
          Word.operator op ≠ ⟨.mark, "("⟩ := by decide
      exact other _ _ rfl (hall op hop)

/-- What is no arrow function does not start like one. -/
theorem atArrow_eq_false (hf : Fits .expression t) (ha : t.topIs Node.isArrow = false)
    (hs : Spells b (Render.expression depth 0 t) ts r) (hr : atMark "=>" r = false) :
    atArrow ts = false := by
  rw [atArrow]
  split
  · next hname =>
    obtain ⟨v, vs, ws, rfl, hw, hnext, hatom⟩ := exists_opening hf hs
    have hk : v.kind = .identifier := (Token.kind_of_isName hname).1
    cases ws with
    | nil =>
      obtain rfl := hatom (hw.alone rfl hk)
      cases vs with
      | nil => simp [next, current, Token.isMark, hk]
      | cons u vs => exact hr
    | cons w₂ ws =>
      cases vs with
      | nil => simp at hnext
      | cons v₂ vs =>
        rw [List.map_cons, List.cons_prefix_cons] at hnext
        obtain ⟨rfl, -⟩ := hnext
        by_contra hv
        have hv : v₂.isMark "=>" = true := by simpa [next] using hv
        rcases hw.second _ List.mem_cons_self with h | ⟨h, -⟩
        · rw [v₂.word_of_isMark hv] at h
          exact absurd h (by decide)
        · simp [ha] at h
  · cases hp : atMark "(" ts
    · rfl
    · exact closesArrow_tail_eq_false hf ha hs hp hr

/-! ### Levels of the grammar -/

/-- After `new`, the tree is read as a primary expression and accesses. -/
def ReadsPath (t : Tree) : Prop :=
  ∀ ⦃depth b ts r⦄ (start : Nat), Spells b (Render.expression depth 0 t) ts r →
    ∃ c s e, Takes (primary ts) c s ∧ e.bare = t.bare ∧
      ∀ {x r'}, Takes (accessTail start e r) x r' → Takes (accessTail start c s) x r'

/-- The tree is read as a beginning with calls and accesses, perhaps with more of them behind. -/
def ReadsChain (t : Tree) : Prop :=
  ∀ ⦃depth b ts r⦄, Spells b (Render.expression depth 0 t) ts r →
    ∃ c s e, (if atWord "new" ts then Takes (construct ts) c s else Takes (primary ts) c s) ∧
      e.bare = t.bare ∧
      ∀ {x r'}, Takes (callTail (start ts) e r) x r' → Takes (callTail (start ts) c s) x r'

/-- The tree is read as an operand. -/
def ReadsOperand (t : Tree) : Prop :=
  ∀ ⦃depth b ts r⦄, Spells b (Render.expression depth 0 t) ts r → Quiet r →
    ∃ e, Takes (unary ts) e r ∧ e.bare = t.bare

/-- The tree is read as an operand with operators, perhaps with more of them behind that do not bind
tighter. -/
def ReadsOperation (t : Tree) : Prop :=
  ∀ ⦃depth b ts r least⦄, Strength.operators + least + 1 ≤ t.strength →
    Spells b (Render.expression depth 0 t) ts r → Quiet r →
    (∀ op p s, Operates 0 r op p s → Strength.operators + p ≤ t.strength) →
    ∃ l s e, Takes (unary ts) l s ∧ e.bare = t.bare ∧
      ∀ {x r'}, Takes (binaryTail (start ts) least e r) x r' →
        Takes (binaryTail (start ts) least l s) x r'

/-- The tree is read as a condition with its branches, or without. -/
def ReadsConditional (t : Tree) : Prop :=
  ∀ ⦃depth b ts r⦄, Spells b (Render.expression depth 0 t) ts r → Settled r →
    take? (·.isMark "?") r = none → ∃ e, Takes (conditional ts) e r ∧ e.bare = t.bare

/-- The tree is read as an expression. -/
def ReadsExpression (t : Tree) : Prop :=
  ∀ ⦃depth b ts r⦄, Spells b (Render.expression depth 0 t) ts r → Ends r →
    ∃ e, Takes (expression ts) e r ∧ e.bare = t.bare

/-- The tree is read at each level of the grammar that it binds tightly enough for. -/
structure Readable (t : Tree) : Prop where
  path : t.isPath = true → ReadsPath t
  chain : Strength.call ≤ t.strength → ReadsChain t
  operand : Strength.unary ≤ t.strength → ReadsOperand t
  operation : Strength.operators < t.strength → ReadsOperation t
  expression : ReadsExpression t

/-! ### From a level to the next -/

theorem takes_callTail_of_quiet {start : Nat} {e : Tree} (h : Quiet r) :
    Takes (callTail start e r) e r := by
  refine takes_callTail.2 (.inr ⟨atMark_eq_false (h "(" (by simp)), .inl ⟨?_, rfl, rfl⟩⟩)
  exact access?_eq_none.2 ⟨h "." (by simp), h "[" (by simp)⟩

theorem ReadsChain.operand (hf : Fits .expression t) (hs : Strength.call ≤ t.strength)
    (h : ReadsChain t) : ReadsOperand t := by
  intro depth b ts r hts hr
  obtain ⟨c, s, e, hc, he, hgo⟩ := h hts
  refine ⟨e, takes_unary.2 (.inr ⟨?_, c, s, hc, e, r, hgo (takes_callTail_of_quiet hr), rfl,
    rfl⟩), he⟩
  obtain ⟨v, vs, ws, rfl, hw, -⟩ := exists_opening hf hts
  exact take?_cons_of_neg (hw.notUnary hs)

theorem ReadsOperand.operation (h : ReadsOperand t) : ReadsOperation t := by
  intro depth b ts r least _ hts hr _
  obtain ⟨e, hu, he⟩ := h hts hr
  exact ⟨e, r, e, hu, he, fun hx => hx⟩

theorem takes_binaryTail_of_resists {start least : Nat} {e : Tree} (h : Resists least r) :
    Takes (binaryTail start least e r) e r := by
  refine takes_binaryTail.2 (.inl ⟨?_, rfl, rfl⟩)
  cases hop : binaryOperator? least r with
  | none => rfl
  | some x =>
    obtain ⟨⟨op, p⟩, s, hs⟩ := x
    obtain ⟨t, ht, hw, hp, hlt⟩ := operates_iff.1 ⟨hs, hop⟩
    have := h op p s (operates_iff.2 ⟨t, ht, hw, hp, by omega⟩)
    omega

theorem ReadsOperation.binary {least : Nat} (h : ReadsOperation t)
    (hs : Strength.operators + least + 1 ≤ t.strength)
    (hts : Spells b (Render.expression depth 0 t) ts r) (hr : Quiet r)
    (hres : Resists least r) : ∃ e, Takes (binary least ts) e r ∧ e.bare = t.bare := by
  obtain ⟨l, s, e, hl, he, hgo⟩ := h hs hts hr fun op p s hop => by
    have := hres op p s hop
    omega
  exact ⟨e, takes_binary.2 ⟨l, s, hl, e, r, hgo (takes_binaryTail_of_resists hres), rfl, rfl⟩, he⟩

theorem ReadsOperation.conditional (hs : Strength.operators < t.strength)
    (h : ReadsOperation t) : ReadsConditional t := by
  intro depth b ts r hts hr hq
  have hres : Resists 0 r := fun op p s hop => absurd hop (hr.2 op p s)
  obtain ⟨e, hb, he⟩ := h.binary hs hts hr.1 hres
  exact ⟨e, takes_conditional.2 ⟨e, r, hb, .inl ⟨hq, rfl, rfl⟩⟩, he⟩

theorem ReadsConditional.expression (hf : Fits .expression t)
    (ha : t.topIs Node.isArrow = false) (h : ReadsConditional t) : ReadsExpression t := by
  intro depth b ts r hts hr
  obtain ⟨e, hc, he⟩ := h hts hr.settled (hr.mark (by decide))
  have harrow := atArrow_eq_false hf ha hts (atMark_eq_false (hr.mark (by decide)))
  exact ⟨e, takes_expression.2 (.inr ⟨harrow, e, r, hc, .inl ⟨hr.assigning, rfl, rfl⟩⟩), he⟩

/-- What is read with operators is read at the levels above. -/
theorem readable_of_operation (hf : Fits .expression t) (hs : Strength.operators < t.strength)
    (hu : t.strength < Strength.unary) (hp : t.isPath = false) (h : ReadsOperation t) :
    Readable t where
  path hpath := absurd hpath (by simp [hp])
  chain hc := absurd (Nat.lt_of_lt_of_le hu (Nat.le_trans (by decide) hc)) (Nat.lt_irrefl _)
  operand hu' := absurd (Nat.lt_of_lt_of_le hu hu') (Nat.lt_irrefl _)
  operation _ := h
  expression := (h.conditional hs).expression hf
    (not_arrow_of_strength (Nat.le_trans (by decide) (Nat.le_of_lt hs)))

/-- What is read as an operand is read at the levels above. -/
theorem readable_of_operand (hf : Fits .expression t) (hs : Strength.unary ≤ t.strength)
    (hc : t.strength < Strength.call) (hp : t.isPath = false) (h : ReadsOperand t) :
    Readable t where
  path hpath := absurd hpath (by simp [hp])
  chain hc' := absurd (Nat.lt_of_lt_of_le hc hc') (Nat.lt_irrefl _)
  operand _ := h
  operation _ := h.operation
  expression := (h.operation.conditional (Nat.lt_of_lt_of_le (by decide) hs)).expression hf
    (not_arrow_of_strength (Nat.le_trans (by decide) hs))

/-- What is read with calls and accesses is read at the levels above. -/
theorem readable_of_chain (hf : Fits .expression t) (hs : Strength.call ≤ t.strength)
    (hp : t.isPath = true → ReadsPath t) (h : ReadsChain t) : Readable t where
  path := hp
  chain _ := h
  operand _ := h.operand hf hs
  operation _ := (h.operand hf hs).operation
  expression := ((h.operand hf hs).operation.conditional (Nat.lt_of_lt_of_le (by decide) hs)).expression
    hf (not_arrow_of_strength (Nat.le_trans (by decide) hs))

/-- What is read as a primary expression is read at all levels. -/
theorem readable_of_primary (hf : Fits .expression t) (hs : Strength.primary ≤ t.strength)
    (h : ∀ ⦃depth b ts r⦄, Spells b (Render.expression depth 0 t) ts r →
      ∃ e, Takes (primary ts) e r ∧ e.bare = t.bare) : Readable t := by
  refine readable_of_chain hf (Nat.le_trans (by decide) hs) (fun _ => ?_) ?_
  · intro depth b ts r start hts
    obtain ⟨e, hp, he⟩ := h hts
    exact ⟨e, r, e, hp, he, fun hx => hx⟩
  · intro depth b ts r hts
    obtain ⟨e, hp, he⟩ := h hts
    refine ⟨e, r, e, ?_, he, fun hx => hx⟩
    obtain ⟨v, vs, ws, rfl, hw, -⟩ := exists_opening hf hts
    have hnew : atWord "new" (v :: vs) = false := by
      by_contra hv
      exact hw.notNew hs (v.word_of_isWord (Bool.not_eq_false _ ▸ hv))
    simpa [hnew] using hp

/-- What binds less tightly than operators is read as a whole expression only. -/
theorem readable_of_expression (hs : t.strength < Strength.operators) (hp : t.isPath = false)
    (h : ReadsExpression t) : Readable t where
  path hpath := absurd hpath (by simp [hp])
  chain hc := absurd (Nat.lt_of_lt_of_le hs (Nat.le_trans (by decide) hc)) (Nat.lt_irrefl _)
  operand hu := absurd (Nat.lt_of_lt_of_le hs (Nat.le_trans (by decide) hu)) (Nat.lt_irrefl _)
  operation ho := absurd (Nat.lt_trans hs ho) (Nat.lt_irrefl _)
  expression := h

/-! ### Parts of phrases -/

theorem spells_starts (hf : Fits .expression t)
    (hs : Spells b (Render.expression depth 0 t) ts r) :
    ∃ u us, ts = u :: us ∧ u.word.starts = true := by
  obtain ⟨u, us, ws, rfl, hw, -⟩ := exists_opening hf hs
  exact ⟨u, us, rfl, hw.starts⟩

theorem take?_eq_none_of_starts {m : String} (hf : Fits .expression t)
    (hs : Spells b (Render.expression depth 0 t) ts r) (hm : Word.starts ⟨.mark, m⟩ = false) :
    take? (·.isMark m) ts = none := by
  obtain ⟨u, us, rfl, hu⟩ := spells_starts hf hs
  refine take?_cons_of_neg ?_
  by_contra h
  rw [u.word_of_isMark (Bool.not_eq_false _ ▸ h), hm] at hu
  cases hu

/-- Items between commas are expressions that are read. -/
theorem items_of_expressions {close : String} {es : List Tree} {u : Token}
    (hes : ∀ e ∈ es, Fits .expression e ∧ Readable e)
    (hclose : close ∈ [")", "]"])
    (h : Spells b (commas (Render.expressions depth es)) ts r)
    (hr : Front (·.isMark close) r u s) :
    ∃ es', Items close (fun us e s => Takes (expression us) e s) ts es' s ∧
      es'.map bare = es.map bare := by
  rw [render_expressions] at h
  have hmarks : ∀ m ∈ [")", "]"], m ∈ [")", "]", "\x7d", ",", ";", ":"] ∧ m ≠ "," ∧
      Word.starts ⟨.mark, m⟩ = false := by decide
  obtain ⟨hends, hcomma, hstart⟩ := hmarks close hclose
  refine items_of_commas (fun e he b ts r hs hr => ?_) hcomma h hr
  have hr : Ends r := by
    obtain ⟨u, s, hu | hu⟩ := hr
    · exact ends_of_mark hu (by decide)
    · exact ends_of_mark hu hends
  obtain ⟨e', he', hb⟩ := (hes e he).2.expression hs hr
  exact ⟨e', he', hb, take?_eq_none_of_starts (hes e he).1 hs hstart⟩

theorem takes_arguments_of_spells {args : List Tree}
    (hargs : ∀ a ∈ args, Fits .expression a ∧ Readable a)
    (h : Spells b (Piece.mark "(" :: (commas (Render.expressions depth args) ++
      [Piece.mark ")"])) ts r) :
    ∃ args', Takes (arguments ts) args' r ∧ args'.map bare = args.map bare ∧
      atMark "(" ts = true := by
  obtain ⟨t, s, ht, hs⟩ := spells_mark h
  obtain ⟨s', hinner, hclose⟩ := spells_append.1 hs
  obtain ⟨u, s'', hu, rfl⟩ := spells_mark hclose
  obtain ⟨args', hitems, hmap⟩ := items_of_expressions hargs (by decide) hinner hu
  exact ⟨args', takes_arguments.2 ⟨t, s, ht, args', _, hitems, rfl, rfl⟩, hmap, by
    rw [ht.1]; exact ht.2⟩

theorem takes_parameters_of_spells {params : List String} (hp : ∀ x ∈ params, IsBindable x)
    (h : Spells b (Render.parameters params) ts r) : Takes (parameters ts) params r := by
  obtain ⟨t, s, ht, hs⟩ := spells_mark h
  obtain ⟨s', hinner, hclose⟩ := spells_append.1 hs
  obtain ⟨u, s'', hu, rfl⟩ := spells_mark hclose
  have hitem : ∀ x ∈ params, ∀ {b ts r}, Spells b [Piece.name x] ts r →
      (∃ t s, Front (·.isMark ",") r t s ∨ Front (·.isMark ")") r t s) →
      ∃ a, Front Token.isName ts a r ∧ a.text = id x ∧ take? (·.isMark ")") ts = none := by
    intro x hx b ts r hs _
    obtain ⟨a, s, ha, rfl, rfl⟩ := spells_bindable (hp x hx) hs
    refine ⟨a, ha, rfl, ?_⟩
    rw [ha.1]
    have := (Token.kind_of_isName ha.2).1
    exact take?_cons_of_neg (by simp [Token.isMark, this])
  obtain ⟨ns, hitems, hmap⟩ := items_of_commas hitem (by decide) hinner hu
  rw [List.map_id] at hmap
  exact takes_parameters.2 ⟨t, s, ht, ns, _, hitems, hmap.symm, rfl⟩

/-- The statement is read. -/
def ReadsStatement (t : Tree) : Prop :=
  ∀ ⦃depth b ts r⦄, Spells b (Render.statement depth t) ts r →
    (t.endsOpen = true → take? (·.isWord "else") r = none) →
    ∃ e, Takes (statement ts) e r ∧ e.bare = t.bare

/-- The property is read. -/
def ReadsProperty (t : Tree) : Prop :=
  ∀ ⦃depth b ts r⦄, Spells b (Render.propertyOf depth t) ts r →
    (∃ u s, Front (·.isMark ",") r u s ∨ Front (·.isMark "\x7d") r u s) →
    ∃ e, Takes (property ts) e r ∧ e.bare = t.bare

theorem atom?_eq_none_of_isMark {m : String} {t : Token} (h : t.isMark m = true) :
    atom? t = none := by
  simp [atom?, (Token.kind_of_isMark h).1]

/-- A phrase that starts with a mark is no atom. -/
theorem take?_atom_of_mark {m : String} {t : Token} (h : Front (·.isMark m) ts t s) :
    take? (fun t => (atom? t).isSome) ts = none := by
  rw [h.1]
  exact take?_cons_of_neg (by rw [atom?_eq_none_of_isMark h.2]; rfl)

theorem topIs_of_bare {e : Tree} {p : ∀ {α : Type}, Node α → Bool}
    (hp : ∀ {α β : Type} (f : α → β) (n : Node α), p (n.map f) = p n) (h : e.bare = t.bare) :
    e.topIs p = t.topIs p := by
  have bare (u : Tree) : u.bare.topIs p = u.topIs p := by
    cases u with
    | absent | dangling => rfl
    | node pos top =>
      rw [bare_node]
      exact hp _ _
  rw [← bare e, h, bare]

/-- A key of a property stands first, which closes nothing. -/
theorem take?_close_of_property (hf : Fits .property t)
    (hs : Spells b (Render.propertyOf depth t) ts r) : take? (·.isMark "\x7d") ts = none := by
  have key (w : Word) (hw : w.kind ≠ .mark) {qs : List Piece} (h : Spells b (.word w :: qs) ts r) :
      take? (·.isMark "\x7d") ts = none := by
    obtain ⟨u, s, rfl, rfl, -⟩ := h
    refine take?_cons_of_neg ?_
    by_contra hu
    exact hw (Token.kind_of_isMark (Bool.not_eq_false _ ▸ hu)).1
  have unquoted (x : String) : (Word.key x).kind ≠ .mark := by
    rw [Word.key]
    split <;> simp
  rw [Render.propertyOf.eq_def] at hs
  cases hf with
  | shorthand _ => exact key _ (unquoted _) hs
  | @property _ x quoted v _ _ =>
    cases quoted with
    | true => exact key ⟨.string, x⟩ (by simp) hs
    | false => exact key _ (unquoted x) hs

/-- The body of a function is read as a block. -/
theorem takes_block_of_spells {body : Tree} (h : ReadsStatement body)
    (hb : body.topIs Node.isBlock = true) (hs : Spells b (Render.block depth body) ts r) :
    ∃ e, Takes (block ts) e r ∧ e.bare = body.bare := by
  match body, hb with
  | .node pos (.block ss), _ =>
    have hsame : Render.statement depth (.node pos (.block ss)) =
        Render.block depth (.node pos (.block ss)) := by
      simp [Render.statement, Render.block, Node.isStatement, Render.sentence, Render.braced]
    obtain ⟨e, he, hbare⟩ := h (hsame ▸ hs) (by simp [endsOpen])
    have hbrace : (current ts).isMark "\x7b" = true := by
      have : ∃ qs, Spells b (Piece.mark "\x7b" :: qs) ts r := by
        rw [Render.block, Render.braced, Render.braces] at hs
        split at hs <;> exact ⟨_, hs⟩
      obtain ⟨qs, hqs⟩ := this
      obtain ⟨t, s, ht, -⟩ := spells_mark hqs
      rw [ht.1]
      exact ht.2
    have := takes_statement.1 he
    simp only [hbrace, if_true] at this
    exact ⟨e, this, hbare⟩

/-! ### The induction for expressions -/

section

variable {pos : Nat}

theorem readable_of_atom {w : Word} {top : Node Tree} (hf : Fits .expression (.node pos top))
    (hs : Strength.primary ≤ strength (.node pos top)) (hr : ∀ depth, Render.bare depth top = [.word w])
    (ht : ∀ t : Token, t.word = w → ∃ top', atom? t = some top' ∧ top'.map bare = top.map bare) :
    Readable (.node pos top) := by
  refine readable_of_primary hf hs fun depth b ts r h => ?_
  rw [render_node, hr] at h
  obtain ⟨t, s, rfl, hw, -, rfl⟩ := h
  obtain ⟨top', htop, hmap⟩ := ht t hw
  refine ⟨_, takes_primary.2 (.inl ⟨t, s, ⟨rfl, by simp [htop]⟩, rfl, rfl⟩), ?_⟩
  simp [htop, hmap]

theorem atom?_identifier {t : Token} {x : String} (hw : t.word = ⟨.identifier, x⟩)
    (hx : x = "this" ∨ Token.isReserved x = false) : atom? t = some (.identifier x) := by
  have hne : ∀ y ∈ ["true", "false", "null"], x ≠ y := by
    have hall : ∀ y ∈ ["true", "false", "null"], y ≠ "this" ∧ Token.isReserved y = true := by decide
    rintro y hy rfl
    obtain ⟨hthis, hres⟩ := hall x hy
    rcases hx with hx | hx
    · exact hthis hx
    · simp [hres] at hx
  simp only [List.mem_cons, List.not_mem_nil, or_false, forall_eq_or_imp, forall_eq] at hne
  rw [Token.word, Word.mk.injEq] at hw
  simp [atom?, hw, hne, hx]

theorem atom?_literal {t : Token} {v : Literal} (hw : t.word = v.word) :
    atom? t = some (.literal v) := by
  match v with
  | .string _ | .number _ | .boolean true | .boolean false | .null =>
    rw [Token.word, Literal.word, Word.mk.injEq] at hw
    simp [atom?, hw]

/-- An access is read wherever its object is. -/
theorem readable_of_access {o : Tree} {top : Node Tree} (hf : Fits .expression (.node pos top))
    (hs : strength (.node pos top) = Strength.call) (hso : Strength.call ≤ o.strength)
    (hp : isPath (.node pos top) = true → o.isPath = true) (ih : Readable o)
    (h : ∀ ⦃depth b ts r⦄, Spells b (Render.expression depth 0 (.node pos top)) ts r →
      ∃ s, Spells b (Render.expression depth 0 o) ts s ∧ atMark "(" s = false ∧
        ∀ start e, e.bare = o.bare →
          ∃ x, Finds (access? start e s) x r ∧ x.bare = bare (.node pos top)) :
    Readable (.node pos top) := by
  refine readable_of_chain hf (Nat.le_of_eq hs.symm) (fun hpath => ?_) ?_
  · intro depth b ts r start hts
    obtain ⟨s, ho, -, hfind⟩ := h hts
    obtain ⟨c, s₀, e, hc, he, hgo⟩ := ih.path (hp hpath) start ho
    obtain ⟨x, hx, hbare⟩ := hfind start e he
    refine ⟨c, s₀, x, hc, hbare, fun hy => hgo ?_⟩
    exact takes_accessTail.2 (.inr ⟨x, r, hx, _, _, hy, rfl, rfl⟩)
  · intro depth b ts r hts
    obtain ⟨s, ho, hparen, hfind⟩ := h hts
    obtain ⟨c, s₀, e, hc, he, hgo⟩ := ih.chain hso ho
    obtain ⟨x, hx, hbare⟩ := hfind (Cursor.start ts) e he
    refine ⟨c, s₀, x, hc, hbare, fun hy => hgo ?_⟩
    exact takes_callTail.2 (.inr ⟨hparen, .inr ⟨x, r, hx, _, _, hy, rfl, rfl⟩⟩)

theorem functionExpression_of_spells {name : Option String} {params : List String} {body : Tree}
    (hn : ∀ x ∈ name, IsBindable x) (hp : ∀ x ∈ params, IsBindable x) (hb : ReadsStatement body)
    (ht : body.topIs Node.isBlock = true)
    (hs : Spells b (Render.bare depth (.functionExpression name params body)) ts r) :
    atWord "function" ts = true ∧ ∃ e, Takes (functionExpression ts) e r ∧
      e.bare = bare (.node pos (.functionExpression name params body)) := by
  rw [Render.bare] at hs
  simp only [List.cons_append, List.append_assoc] at hs
  obtain ⟨w, s, hw, hrest⟩ := spells_name hs
  refine ⟨by rw [hw.1]; exact hw.2, ?_⟩
  obtain ⟨s', hname, hrest⟩ := spells_append.1 (spells_space.1 hrest)
  obtain ⟨s'', hlist, hblock⟩ := spells_append.1 hrest
  have hparams := takes_parameters_of_spells hp hlist
  obtain ⟨e, he, hbare⟩ := takes_block_of_spells hb ht (spells_space.1 hblock)
  refine ⟨.node (Cursor.start ts) (.functionExpression name params e), takes_functionExpression.2
    ⟨w, s, hw, ?_⟩, by simp [Node.map, hbare]⟩
  cases name with
  | none =>
    obtain rfl : s = s' := hname
    obtain ⟨t, s₁, ht, -⟩ := takes_parameters.1 hparams
    have hkind : (current s).kind ≠ .identifier := by
      rw [ht.1]
      simp [current, (Token.kind_of_isMark ht.2).1]
    exact .inr ⟨hkind, params, s'', hparams, e, r, he, rfl, rfl⟩
  | some x =>
    obtain ⟨n, s₁, hx, rfl, rfl⟩ := spells_bindable (hn x rfl) hname
    have hkind : (current s).kind = .identifier := by
      rw [hx.1]
      exact (Token.kind_of_isName hx.2).1
    exact .inl ⟨hkind, n, _, hx, params, s'', hparams, e, r, he, rfl, rfl⟩

theorem readable_of_object {ps : List Tree} (hf : Fits .expression (.node pos (.object ps)))
    (hps : ∀ p ∈ ps, Fits .property p) (ih : ∀ p ∈ ps, ReadsProperty p) :
    Readable (.node pos (.object ps)) := by
  refine readable_of_primary hf (Nat.le_refl _) fun depth b ts r h => ?_
  rw [render_node] at h
  have hparts : ∃ t s s' u, Front (·.isMark "\x7b") ts t s ∧
      Spells false (commas (ps.map (Render.propertyOf depth))) s s' ∧
      Front (·.isMark "\x7d") s' u r := by
    rw [Render.bare] at h
    split at h
    · next hempty =>
      obtain rfl := List.isEmpty_iff.1 hempty
      obtain ⟨t, s, ht, hs⟩ := spells_mark h
      obtain ⟨u, s', hu, rfl⟩ := spells_mark hs
      exact ⟨t, s, s, u, ht, rfl, hu⟩
    · rw [render_properties] at h
      obtain ⟨t, s, ht, hs⟩ := spells_mark h
      obtain ⟨s', hinner, hclose⟩ := spells_append.1 (spells_space.1 hs)
      obtain ⟨u, s'', hu, rfl⟩ := spells_mark (spells_space.1 hclose)
      exact ⟨t, s, s', u, ht, hinner, hu⟩
  obtain ⟨t, s, s', u, ht, hinner, hu⟩ := hparts
  have hitem : ∀ p ∈ ps, ∀ {b ts r}, Spells b (Render.propertyOf depth p) ts r →
      (∃ t s, Front (·.isMark ",") r t s ∨ Front (·.isMark "\x7d") r t s) →
      ∃ e, Takes (property ts) e r ∧ e.bare = p.bare ∧ take? (·.isMark "\x7d") ts = none := by
    intro p hp b ts r hs hr
    obtain ⟨e, he, hbare⟩ := ih p hp hs hr
    exact ⟨e, he, hbare, take?_close_of_property (hps p hp) hs⟩
  obtain ⟨es, hitems, hmap⟩ := items_of_commas hitem (by decide) hinner hu
  refine ⟨_, takes_primary.2 (.inr ⟨take?_atom_of_mark ht, .inr (.inr (.inl ⟨t, s, ht, es, r,
    hitems, rfl, rfl⟩))⟩), by simp [Node.map, hmap]⟩

theorem readable_of_unary {op : String} {e : Tree}
    (hf : Fits .expression (.node pos (.unary op e)))
    (hop : op ∈ Operator.unaryMarks ++ Operator.unaryWords) (hs : Strength.unary ≤ e.strength)
    (ih : Readable e) : Readable (.node pos (.unary op e)) := by
  refine readable_of_operand hf (Nat.le_refl _) (by simp only [strength, Node.strength]; decide)
    (by simp [isPath, strength, Node.strength, Strength.unary, Strength.primary]) ?_
  intro depth b ts r h hr
  rw [render_node, Render.bare, render_expression hs, Render.unaryOperator] at h
  obtain ⟨t, s, rfl, ht, -, h⟩ := h
  have hrest : ∃ c, Spells c (Render.expression depth 0 e) s r := by
    obtain ⟨s', hgap, h⟩ := spells_append.1 h
    split at hgap <;> obtain rfl := hgap <;> exact ⟨_, h⟩
  obtain ⟨c, hrest⟩ := hrest
  obtain ⟨e', he', hbare⟩ := ih.operand hs hrest hr
  have hunary : isUnary t = true := by
    have hall : ∀ op ∈ Operator.unaryMarks ++ Operator.unaryWords,
        (Word.operator op).isUnary = true := by decide
    have := hall op hop
    rwa [← ht] at this
  have htext : t.text = op := (Word.mk.inj ht).2
  refine ⟨_, takes_unary.2 (.inl ⟨t, s, ⟨rfl, hunary⟩, e', r, he', rfl, rfl⟩), ?_⟩
  simp [Node.map, hbare, htext]

theorem operates_of_word {t : Token} {op : String} {p : Nat} (ht : t.word = .operator op)
    (hop : Operator.precedence? op = some p) : Operates 0 (t :: s) op p s := by
  have hall : ∀ op ∈ Operator.binary, (Word.operator op).kind = .mark ∨
      Word.operator op = ⟨.identifier, "instanceof"⟩ ∨ Word.operator op = ⟨.identifier, "in"⟩ := by
    decide
  have htext : t.text = op := (Word.mk.inj ht).2
  refine operates_iff.2 ⟨t, ⟨rfl, ?_⟩, htext, hop, (precedence_bounds hop).1⟩
  have hkind : t.kind = (Word.operator op).kind := (Word.mk.inj ht).1
  rcases hall op (Operator.mem_binary hop) with h | h | h
  · simp [mayOperate, hkind, h]
  · simp [mayOperate, Token.isWord, Word.mk.inj (ht.trans h)]
  · simp [mayOperate, Token.isWord, Word.mk.inj (ht.trans h)]

theorem quiet_of_operator {t : Token} {op : String} (ht : t.word = .operator op)
    (hop : op ∈ Operator.binary ++ Operator.assigning) : Quiet (t :: s) := by
  have hall : ∀ m ∈ ["(", ".", "["], ∀ op ∈ Operator.binary ++ Operator.assigning, m ≠ op := by
    decide
  intro m hm
  refine take?_cons_of_neg ?_
  by_contra h
  rw [Bool.not_eq_false] at h
  have htext : t.text = op := (Word.mk.inj ht).2
  exact hall m hm op hop ((Token.kind_of_isMark h).2.symm.trans htext)

theorem readable_of_binary {l r : Tree} {op : String} {p : Nat}
    (hf : Fits .expression (.node pos (.binary l op r))) (hop : Operator.precedence? op = some p)
    (hsl : Strength.operators + p ≤ l.strength) (hsr : Strength.operators + p + 1 ≤ r.strength)
    (ihl : Readable l) (ihr : Readable r) : Readable (.node pos (.binary l op r)) := by
  obtain ⟨hs, hlt⟩ := strength_binary_lt pos l r hop
  have hp := (precedence_bounds hop).1
  refine readable_of_operation hf (by omega) (by omega) ?_ ?_
  · have : Strength.unary < Strength.primary := by decide
    rw [isPath]
    · simp only [hs, decide_eq_false_iff_not]
      omega
    all_goals simp
  intro depth b ts u least hleast h hu hops
  rw [hs] at hleast hops
  have hgetD : (Operator.precedence? op).getD 0 = p := by rw [hop, Option.getD_some]
  rw [render_node, Render.bare, hgetD, render_expression hsl, render_expression hsr] at h
  obtain ⟨s, hleft, hrest⟩ := spells_append.1 h
  obtain ⟨t, s', rfl, ht, -, hright⟩ := spells_space.1 hrest
  have hop' := operates_of_word (s := s') ht hop
  have hquiet : Quiet (t :: s') :=
    quiet_of_operator ht (List.mem_append_left _ (Operator.mem_binary hop))
  have hleast' : Strength.operators + least + 1 ≤ l.strength := by omega
  obtain ⟨l', s₀, el, hl, hel, hgo⟩ := ihl.operation (by omega) hleast' hleft hquiet
    fun op₁ p₁ s₁ h₁ => by
      obtain ⟨_, e₁⟩ := h₁
      obtain ⟨_, e₂⟩ := hop'
      cases e₁.symm.trans e₂
      exact hsl
  obtain ⟨er, her, hbare⟩ := (ihr.operation (by omega)).binary hsr (spells_space.1 hright) hu
    fun op₁ p₁ s₁ h₁ => by
      have := hops op₁ p₁ s₁ h₁
      omega
  refine ⟨l', s₀, .node (Cursor.start ts) (.binary el op er), hl, by simp [Node.map, hel, hbare],
    fun hx => hgo ?_⟩
  obtain ⟨t', ht', htext, -, -⟩ := operates_iff.1 hop'
  have hopl : Operates least (t :: s') op p s' :=
    operates_iff.2 ⟨t', ht', htext, hop, by omega⟩
  exact takes_binaryTail.2 (.inr ⟨op, p, s', hopl, er, u, her, _, _, hx, rfl, rfl⟩)

theorem operators_lt_strength (hf : Fits .expression t) (hs : Strength.operators ≤ t.strength) :
    Strength.operators < t.strength := by
  cases hf with
  | @binary _ l op p r hop =>
    have := (precedence_bounds hop).1
    rw [(strength_binary_lt _ _ _ hop).1]
    omega
  | _ => revert hs; simp only [strength, Node.strength]; decide

theorem readable_of_conditional {c y n : Tree}
    (hf : Fits .expression (.node pos (.conditional c y n))) (hc : Fits .expression c)
    (hs : Strength.operators ≤ c.strength) (ihc : Readable c) (ihy : Readable y)
    (ihn : Readable n) : Readable (.node pos (.conditional c y n)) := by
  refine readable_of_expression (by simp only [strength, Node.strength]; decide)
    (by simp [isPath, strength, Node.strength, Strength.conditional, Strength.primary]) ?_
  intro depth b ts u h hu
  have harrow := atArrow_eq_false hf rfl h (atMark_eq_false (hu.mark (by decide)))
  have hs' : Strength.conditional + 1 ≤ c.strength := hs
  rw [render_node, Render.bare, render_expression hs',
    render_expression (assignment_le_strength y), render_expression (assignment_le_strength n)] at h
  simp only [List.append_assoc, List.cons_append] at h
  obtain ⟨s, hcond, hrest⟩ := spells_append.1 h
  obtain ⟨q, s₁, hq, hrest⟩ := spells_mark (spells_space.1 hrest)
  obtain ⟨s₂, hyes, hrest⟩ := spells_append.1 (spells_space.1 hrest)
  obtain ⟨k, s₃, hk, hno⟩ := spells_mark (spells_space.1 hrest)
  have hquiet : Quiet s := by
    intro m hm
    rw [hq.1]
    exact take?_cons_of_neg (Token.isMark_of_ne (by rintro rfl; revert hm; decide) hq.2)
  have hops : Resists 0 s := by
    rintro op p s' hop
    obtain ⟨t, ht, htext, hp, -⟩ := operates_iff.1 hop
    cases hq.1.symm.trans ht.1
    rw [(Token.kind_of_isMark hq.2).2] at htext
    exact absurd (htext ▸ Operator.mem_binary hp) (by decide)
  obtain ⟨c', hc', hbc⟩ := (ihc.operation (operators_lt_strength hc hs)).binary
    (operators_lt_strength hc hs) hcond hquiet hops
  obtain ⟨y', hy', hby⟩ := ihy.expression hyes (ends_of_mark hk (by decide))
  obtain ⟨n', hn', hbn⟩ := ihn.expression (spells_space.1 hno) hu
  have hcondition := takes_conditional.2 ⟨c', s, hc', .inr ⟨q, s₁, hq, y', s₂, hy', k, s₃, hk, n',
    u, hn', rfl, rfl⟩⟩
  exact ⟨_, takes_expression.2 (.inr ⟨harrow, _, u, hcondition, .inl ⟨hu.assigning, rfl, rfl⟩⟩),
    by simp [Node.map, hbc, hby, hbn]⟩

theorem readable_of_assignment {t v : Tree} {op : String}
    (hf : Fits .expression (.node pos (.assignment t op v))) (hop : op ∈ Operator.assigning)
    (ha : t.topIs Node.isAssignable = true) (iht : Readable t) (ihv : Readable v) :
    Readable (.node pos (.assignment t op v)) := by
  have hs := strength_of_isAssignable ha
  refine readable_of_expression (by simp only [strength, Node.strength]; decide)
    (by simp [isPath, strength, Node.strength, Strength.assignment, Strength.primary]) ?_
  intro depth b ts u h hu
  have harrow := atArrow_eq_false hf rfl h (atMark_eq_false (hu.mark (by decide)))
  rw [render_node, Render.bare, render_expression hs,
    render_expression (assignment_le_strength v)] at h
  obtain ⟨s, htarget, hrest⟩ := spells_append.1 h
  obtain ⟨w, s', rfl, hw, -, hvalue⟩ := spells_space.1 hrest
  have htext : w.text = op := (Word.mk.inj hw).2
  have hall : ∀ op ∈ Operator.assigning, (Word.operator op).kind = .mark ∧
      Operator.precedence? op = none ∧ op ≠ "?" := by decide
  obtain ⟨hkind, hprec, hquestion⟩ := hall op hop
  have hkind : w.kind = .mark := (Word.mk.inj hw).1.trans hkind
  have hassign : isAssigning w = true := by simp [isAssigning, hkind, htext, hop]
  have hsettled : Settled (w :: s') := by
    refine ⟨quiet_of_operator hw (List.mem_append_right _ hop), fun op₁ p₁ s₁ h₁ => ?_⟩
    obtain ⟨x, hx, rfl, hp, -⟩ := operates_iff.1 h₁
    cases hx.1
    rw [htext, hprec] at hp
    cases hp
  have hcond : take? (·.isMark "?") (w :: s') = none := by
    refine take?_cons_of_neg ?_
    simp [Token.isMark, htext, hquestion]
  have hstrong : Strength.operators < t.strength := Nat.lt_of_lt_of_le (by decide) hs
  obtain ⟨t', ht', hbt⟩ := (iht.operation hstrong).conditional hstrong htarget hsettled hcond
  obtain ⟨v', hv', hbv⟩ := ihv.expression (spells_space.1 hvalue) hu
  have ha' : t'.topIs Node.isAssignable = true := by
    rw [topIs_of_bare Node.isAssignable_map hbt, ha]
  refine ⟨_, takes_expression.2 (.inr ⟨harrow, t', _, ht', .inr ⟨w, s', ⟨rfl, hassign⟩, ha', v', u,
    hv', rfl, rfl⟩⟩), by simp [Node.map, hbt, hbv, htext]⟩

/-! ### Arrow functions -/

/-- Parameters in parentheses with an arrow behind them are those of an arrow function. -/
theorem closesArrow_of_parameters {params : List String} {u : Token}
    (hs : Spells b (commas (params.map fun x => [Piece.name x])) ts s)
    (hu : Front (·.isMark ")") s u r) (hr : atMark "=>" r = true) : closesArrow ts = true := by
  obtain ⟨rfl, hu⟩ := hu
  induction params generalizing b ts with
  | nil =>
    obtain rfl := hs
    rw [closesArrow.eq_def]
    simp [hu, hr]
  | cons x params ih =>
    have hne {v : Token} (hv : v.kind = .identifier) (m : String) : v.isMark m = false := by
      simp [Token.isMark, hv]
    cases params with
    | nil =>
      obtain ⟨v, s', ⟨rfl, hv⟩, -, rfl⟩ := spells_anyName hs
      have hv := of_decide_eq_true hv
      simp [closesArrow.eq_def, hne hv, hv, hu, hr, Token.isMark_of_ne (by decide : ")" ≠ ",") hu]
    | cons y params =>
      obtain ⟨v, s', ⟨rfl, hv⟩, -, hrest⟩ := spells_anyName hs
      obtain ⟨c, s'', ⟨rfl, hc⟩, htail⟩ := spells_mark hrest
      have hv := of_decide_eq_true hv
      have := ih (spells_space.1 htail)
      rw [closesArrow.eq_def]
      simp [hne hv, hv, hc, this]

theorem arrowParameters_of_spells {params : List String} (hp : ∀ x ∈ params, IsBindable x)
    (hs : Spells b (Render.arrowParameters params) ts s) (hr : atMark "=>" s = true) :
    atArrow ts = true ∧ Takes (arrowParameters ts) params s := by
  have several (hs : Spells b (Render.parameters params) ts s) :
      atArrow ts = true ∧ Takes (arrowParameters ts) params s := by
    have htakes := takes_parameters_of_spells hp hs
    obtain ⟨t, s₁, ⟨rfl, ht⟩, hrest⟩ := spells_mark hs
    obtain ⟨s₂, hinner, hclose⟩ := spells_append.1 hrest
    obtain ⟨u, s₃, hu, rfl⟩ := spells_mark hclose
    have hparen : atMark "(" (t :: s₁) = true := ht
    have hname : (current (t :: s₁)).isName = false := by
      simp [current, Token.isName, (Token.kind_of_isMark ht).1]
    refine ⟨?_, takes_arrowParameters.2 (.inl ⟨hparen, htakes⟩)⟩
    rw [atArrow, hname, hparen, List.tail_cons]
    simpa using closesArrow_of_parameters hinner hu hr
  rcases params with _ | ⟨x, _ | ⟨_, _⟩⟩
  · exact several hs
  · obtain ⟨n, s', hn, rfl, rfl⟩ := spells_bindable (hp x (by simp)) hs
    have hparen : atMark "(" ts = false := by
      rw [hn.1]
      simp [atMark, current, Token.isMark, (Token.kind_of_isName hn.2).1]
    refine ⟨?_, takes_arrowParameters.2 (.inr ⟨hparen, n, s', hn, rfl, rfl⟩)⟩
    have hname : (current ts).isName = true := by rw [hn.1]; exact hn.2
    rw [atArrow, hname, if_pos rfl, hn.1]
    cases s' with
    | nil => exact absurd hr (by simp [atMark, current, Token.sentinel, Token.isMark])
    | cons u s' => exact hr
  · exact several hs

theorem readable_of_arrow {params : List String} {body : Tree}
    (hp : ∀ x ∈ params, IsBindable x)
    (h : ∀ ⦃depth b ts r⦄, Spells b (Render.arrowBody depth body) ts r → Ends r →
      ∃ e, (if atMark "\x7b" ts then Takes (block ts) e r else Takes (expression ts) e r) ∧
        e.bare = body.bare) : Readable (.node pos (.arrow params body)) := by
  refine readable_of_expression (by simp only [strength, Node.strength]; decide)
    (by simp [isPath, strength, Node.strength, Strength.assignment, Strength.primary]) ?_
  intro depth b ts u hs hu
  rw [render_node, Render.bare] at hs
  obtain ⟨s, hparams, hrest⟩ := spells_append.1 hs
  obtain ⟨w, s', hw, hbody⟩ := spells_mark (spells_space.1 hrest)
  obtain ⟨harrow, hparams⟩ := arrowParameters_of_spells hp hparams (by rw [hw.1]; exact hw.2)
  obtain ⟨e, he, hbare⟩ := h (spells_space.1 hbody) hu
  refine ⟨.node (Cursor.start ts) (.arrow params e), takes_expression.2 (.inl ⟨harrow, ?_⟩),
    by simp [Node.map, hbare]⟩
  exact takes_arrow.2 ⟨params, s, hparams, w, s', hw, e, u, he, rfl, rfl⟩

/-- A body that is neither a block nor an object is printed as it is. -/
theorem arrowBody_of_bare {body : Tree} (hblock : body.topIs Node.isBlock = false)
    (hobject : body.topIs Node.isObject = false) :
    Render.arrowBody depth body = Render.expression depth 0 body := by
  match body, hblock, hobject with
  | .absent, _, _ | .dangling, _, _ => simp [Render.arrowBody, Render.expression]
  | .node pos top, hblock, hobject =>
    have hblock : top.isBlock = false := hblock
    have hobject : top.isObject = false := hobject
    have hs : ¬top.strength < Strength.assignment :=
      Nat.not_lt_of_le (assignment_le_strength (.node pos top))
    simp [Render.arrowBody, render_node, hblock, hobject, Render.inParens, hs]

theorem Fits.isBlock_eq_false (hf : Fits .expression t) : t.topIs Node.isBlock = false := by
  cases hf <;> rfl

theorem arrowBody_of_expression {body : Tree} (hb : Fits .expression body)
    (ho : ¬body.Opens ⟨.mark, "\x7b"⟩) :
    Render.arrowBody depth body = Render.expression depth 0 body := by
  refine arrowBody_of_bare hb.isBlock_eq_false ?_
  cases hb with
  | object => exact absurd rfl ho
  | _ => rfl

theorem arrowBody_of_block {body : Tree} (h : body.topIs Node.isBlock = true) :
    Render.arrowBody depth body = Render.block depth body := by
  match body, h with
  | .node pos (.block ss), _ => simp [Render.arrowBody, Render.block, Node.isBlock]

/-- An expression that does not open with a brace has none in front. -/
theorem atMark_of_not_opens {m : String} (hf : Fits .expression t) (ho : ¬t.Opens ⟨.mark, m⟩)
    (hs : Spells b (Render.expression depth 0 t) ts r) : atMark m ts = false := by
  obtain ⟨v, vs, ws, rfl, hw, -⟩ := exists_opening hf hs
  by_contra hv
  refine ho ?_
  rw [Opens, hw.eq, v.word_of_isMark (Bool.not_eq_false _ ▸ hv)]
  rfl

theorem expression_readable {top : Node Tree} (hf : Fits .expression (.node pos top))
    (ih : ∀ c ∈ top.children, Fits .expression c → Readable c)
    (ihp : ∀ c ∈ top.children, Fits .property c → ReadsProperty c)
    (ihs : ∀ c ∈ top.children, Fits .statement c → ReadsStatement c) :
    Readable (.node pos top) := by
  have hfits := hf
  cases hf with
  | @identifier _ x hx hr =>
    exact readable_of_atom hfits (Nat.le_refl _) (fun depth => by rw [Render.bare]; rfl)
      fun t ht => ⟨_, atom?_identifier ht hr, rfl⟩
  | @literal _ v hv =>
    refine readable_of_atom hfits (Nat.le_refl _) (w := v.word) (fun depth => ?_)
      fun t ht => ⟨_, atom?_literal ht, rfl⟩
    rw [Render.bare]
    cases v with
    | boolean value => cases value <;> rfl
    | _ => rfl
  | @parenthesized _ e he =>
    refine readable_of_primary hfits (Nat.le_refl _) fun depth b ts r h => ?_
    rw [render_node, Render.bare] at h
    obtain ⟨t, s, ht, hs⟩ := spells_mark h
    obtain ⟨s', hinner, hclose⟩ := spells_append.1 hs
    obtain ⟨u, s'', hu, rfl⟩ := spells_mark hclose
    obtain ⟨x, hx, hbare⟩ := (ih e (by simp [Node.children]) he).expression hinner
      (ends_of_mark hu (by decide))
    exact ⟨_, takes_primary.2 (.inr ⟨take?_atom_of_mark ht, .inr (.inl ⟨t, s, ht, x, s', hx, u, _,
      hu, rfl, rfl⟩)⟩), by simp [Node.map, hbare]⟩
  | @array _ es hes =>
    refine readable_of_primary hfits (Nat.le_refl _) fun depth b ts r h => ?_
    rw [render_node, Render.bare] at h
    obtain ⟨t, s, ht, hs⟩ := spells_mark h
    obtain ⟨s', hinner, hclose⟩ := spells_append.1 hs
    obtain ⟨u, s'', hu, rfl⟩ := spells_mark hclose
    obtain ⟨es', hitems, hmap⟩ := items_of_expressions
      (fun e he => ⟨hes e he, ih e (by simpa [Node.children] using he) (hes e he)⟩) (by decide)
      hinner hu
    exact ⟨_, takes_primary.2 (.inr ⟨take?_atom_of_mark ht, .inr (.inr (.inr ⟨t, s, ht, es', _,
      hitems, rfl, rfl⟩))⟩), by simp [Node.map, hmap]⟩
  | @object _ ps hps =>
    exact readable_of_object hfits hps fun p hp =>
      ihp p (by simpa [Node.children] using hp) (hps p hp)
  | @functionExpression _ name params body hn hp hb hbt =>
    refine readable_of_primary hfits (Nat.le_refl _) fun depth b ts r h => ?_
    rw [render_node] at h
    obtain ⟨hword, e, he, hbare⟩ := functionExpression_of_spells hn hp
      (ihs body (by simp [Node.children]) hb) hbt h
    refine ⟨e, takes_primary.2 (.inr ⟨?_, .inl ⟨hword, he⟩⟩), hbare⟩
    obtain ⟨w, s, hw, -⟩ := takes_functionExpression.1 he
    obtain ⟨hk, htext⟩ := Token.kind_of_isWord hw.2
    rw [hw.1]
    refine take?_cons_of_neg ?_
    simp [atom?, hk, htext, Token.isReserved, Token.reservedWords]
  | @member _ o name ho hs hn =>
    refine readable_of_access hfits rfl hs id (ih o (by simp [Node.children]) ho)
      fun depth b ts r h => ?_
    rw [render_node, Render.bare, render_expression hs] at h
    obtain ⟨s, hs, hrest⟩ := spells_append.1 h
    obtain ⟨d, s', hd, hrest⟩ := spells_mark hrest
    obtain ⟨n, s'', hn', rfl, rfl⟩ := spells_anyName hrest
    refine ⟨s, hs, ?_, fun start e he => ⟨.node start (.member e n.text),
      finds_access?.2 (.inl ⟨d, s', hd, n, _, hn', rfl, rfl⟩), by simp [Node.map, he]⟩⟩
    rw [hd.1]
    exact Token.isMark_of_ne (by decide) hd.2
  | @element _ o i ho hs hi =>
    refine readable_of_access hfits rfl hs id (ih o (by simp [Node.children]) ho)
      fun depth b ts r h => ?_
    rw [render_node, Render.bare, render_expression hs, List.append_assoc] at h
    obtain ⟨s, hs, hrest⟩ := spells_append.1 h
    obtain ⟨d, s', hd, hrest⟩ := spells_mark hrest
    obtain ⟨s'', hindex, hclose⟩ := spells_append.1 hrest
    obtain ⟨u, s₃, hu, rfl⟩ := spells_mark hclose
    obtain ⟨x, hx, hbare⟩ := (ih i (by simp [Node.children]) hi).expression hindex
      (ends_of_mark hu (by decide))
    refine ⟨s, hs, ?_, fun start e he => ⟨.node start (.element e x), finds_access?.2 (.inr ⟨?_, d,
      s', hd, x, s'', hx, u, _, hu, rfl, rfl⟩), by simp [Node.map, he, hbare]⟩⟩
    · rw [hd.1]
      exact Token.isMark_of_ne (by decide) hd.2
    · rw [hd.1]
      exact take?_cons_of_neg (Token.isMark_of_ne (by decide) hd.2)
  | @call _ c args hc hs hargs =>
    have hcr := ih c (by simp [Node.children]) hc
    refine readable_of_chain hfits (Nat.le_refl _) (fun hp => ?_) ?_
    · simp [isPath, strength, Node.strength, Strength.call, Strength.primary] at hp
    · intro depth b ts r h
      rw [render_node, Render.bare, render_expression hs, List.append_assoc] at h
      obtain ⟨s, hcallee, hrest⟩ := spells_append.1 h
      obtain ⟨args', hargs', hmap, hparen⟩ := takes_arguments_of_spells
        (fun a ha => ⟨hargs a ha, ih a (by simp [Node.children, ha]) (hargs a ha)⟩) hrest
      obtain ⟨c', s₀, e, hc', he, hgo⟩ := hcr.chain hs hcallee
      refine ⟨c', s₀, .node (Cursor.start ts) (.call e args'), hc', by simp [Node.map, he, hmap],
        fun hy => hgo ?_⟩
      exact takes_callTail.2 (.inl ⟨hparen, args', r, hargs', _, _, hy, rfl, rfl⟩)
  | @construct _ c args hc hp hargs =>
    have hcr := ih c (by simp [Node.children]) hc
    refine readable_of_chain hfits (Nat.le_refl _) (fun hp => ?_) ?_
    · simp [isPath, strength, Node.strength, Strength.call, Strength.primary] at hp
    · intro depth b ts r h
      rw [render_node, Render.bare, render_expression (strength_of_isPath hp)] at h
      simp only [List.cons_append, List.append_assoc] at h
      obtain ⟨w, s, hw, hrest⟩ := spells_name h
      obtain ⟨s', hcallee, hrest⟩ := spells_append.1 (spells_space.1 hrest)
      obtain ⟨args', hargs', hmap, hparen⟩ := takes_arguments_of_spells
        (fun a ha => ⟨hargs a ha, ih a (by simp [Node.children, ha]) (hargs a ha)⟩) hrest
      obtain ⟨o, s₀, e, ho, he, hgo⟩ := hcr.path hp (Cursor.start ts) hcallee
      have hend : Takes (accessTail (Cursor.start ts) e s') e s' := by
        refine takes_accessTail.2 (.inl ⟨access?_eq_none.2 ?_, rfl, rfl⟩)
        obtain ⟨t, s₁, ht, -⟩ := takes_arguments.1 hargs'
        rw [ht.1]
        exact ⟨take?_cons_of_neg (Token.isMark_of_ne (by decide) ht.2),
          take?_cons_of_neg (Token.isMark_of_ne (by decide) ht.2)⟩
      refine ⟨_, r, .node (Cursor.start ts) (.construct e args'), ?_, by simp [Node.map, he, hmap],
        fun hy => hy⟩
      have hnew : atWord "new" ts = true := by rw [hw.1]; exact hw.2
      rw [if_pos hnew]
      exact takes_construct.2 ⟨w, s, hw, o, s₀, ho, e, s', hgo hend, .inl ⟨hparen, args', r, hargs',
        rfl, rfl⟩⟩
  | @unary _ op e hop he hs =>
    exact readable_of_unary hfits hop hs (ih e (by simp [Node.children]) he)
  | @binary _ l op p r hop hl hr hsl hsr =>
    exact readable_of_binary hfits hop hsl hsr (ih l (by simp [Node.children]) hl)
      (ih r (by simp [Node.children]) hr)
  | @conditional _ c y n hc hs hy hn =>
    exact readable_of_conditional hfits hc hs (ih c (by simp [Node.children]) hc)
      (ih y (by simp [Node.children]) hy) (ih n (by simp [Node.children]) hn)
  | @assignment _ t op v hop ht ha hv =>
    exact readable_of_assignment hfits hop ha (ih t (by simp [Node.children]) ht)
      (ih v (by simp [Node.children]) hv)
  | @arrow _ params body hp hb ho =>
    refine readable_of_arrow hp fun depth b ts r hs hr => ?_
    rw [arrowBody_of_expression hb ho] at hs
    obtain ⟨e, he, hbare⟩ := (ih body (by simp [Node.children]) hb).expression hs hr
    refine ⟨e, ?_, hbare⟩
    rwa [if_neg (by simp [atMark_of_not_opens hb ho hs])]
  | @arrowBlock _ params body hp hb ht =>
    refine readable_of_arrow hp fun depth b ts r hs hr => ?_
    rw [arrowBody_of_block ht] at hs
    obtain ⟨e, he, hbare⟩ := takes_block_of_spells (ihs body (by simp [Node.children]) hb) ht hs
    refine ⟨e, ?_, hbare⟩
    obtain ⟨t, s, hbrace, -⟩ := takes_block.1 he
    rwa [if_pos (by rw [hbrace.1]; exact hbrace.2)]

end

end Tree

end DebugGuard
