import DebugGuard.Proofs.Script.Spelling

/-!
# The left edge of a phrase

What the first one or two words of an expression can be (`Tree.opening_spec`), and that the printed
text starts with them (`Tree.spells_opening`).  From these words alone the grammar decides which
phrase it reads.
-/

namespace DebugGuard

/-! ### Operators -/

namespace Operator

/-- The binary operators. -/
def binary : List String :=
  ["??", "||", "&&", "|", "&", "==", "!=", "===", "!==", "<", ">", "<=", ">=", "instanceof", "in",
    "+", "-", "*", "/", "%"]

theorem mem_binary {op : String} {p : Nat} (h : precedence? op = some p) : op ∈ binary := by
  by_contra hmem
  simp only [binary, List.mem_cons, List.not_mem_nil, or_false, not_or] at hmem
  simp [precedence?, hmem] at h

end Operator

namespace Word

/-- An expression may start with the word. -/
def starts (w : Word) : Bool :=
  match w.kind with
  | .identifier => !Token.isReserved w.text ||
      ["this", "true", "false", "null", "new", "function", "typeof", "void", "delete"].contains
        w.text
  | .string | .number => true
  | .mark => ["(", "[", "\x7b", "!", "-", "+"].contains w.text
  | .endOfFile => false

/-- The word stands before its operand. -/
def isUnary (w : Word) : Bool :=
  w.kind = .mark && Operator.unaryMarks.contains w.text ||
    w.kind = .identifier && Operator.unaryWords.contains w.text

/-- The word neither separates items of a list nor closes one, nor is it an arrow. -/
def goesOn (w : Word) : Bool :=
  !([⟨.mark, ","⟩, ⟨.mark, ")"⟩, ⟨.mark, "=>"⟩].contains w)

theorem goesOn_of_starts {w : Word} (h : w.starts = true) : w.goesOn = true := by
  by_contra hg
  simp only [goesOn, Bool.not_eq_true, Bool.not_eq_false', List.contains_eq_mem, List.mem_cons,
    List.not_mem_nil, or_false, decide_eq_true_eq] at hg
  rcases hg with rfl | rfl | rfl <;> exact absurd h (by decide)

theorem goesOn_operator {op : String} (h : op ∈ Operator.binary ++ Operator.assigning) :
    (operator op).goesOn = true := by
  have hall : ∀ op ∈ Operator.binary ++ Operator.assigning, (operator op).goesOn = true := by
    decide
  exact hall op h

end Word

namespace Tree

/-! ### The words in front -/

/-- What the first words of an expression can be. -/
structure OpeningSpec (t : Tree) (w : Word) (ws : List Word) : Prop where
  eq : t.opening = w :: ws
  starts : w.starts = true
  notUnary : Strength.call ≤ t.strength → w.isUnary = false
  notNew : Strength.primary ≤ t.strength → w ≠ ⟨.identifier, "new"⟩
  alone : ws = [] → w.kind = .identifier → t.topIs Node.isAtom = true
  second : ∀ v ∈ ws, v.goesOn = true ∨ t.topIs Node.isArrow = true ∧ v = ⟨.mark, "=>"⟩
  short : ws.length ≤ 1

theorem not_arrow_of_strength {t : Tree} (h : Strength.conditional ≤ t.strength) :
    t.topIs Node.isArrow = false := by
  match t, h with
  | .absent, _ | .dangling, _ => rfl
  | .node _ top, h =>
    cases top with
    | arrow => simp only [strength, Node.strength] at h; exact absurd h (by decide)
    | _ => rfl

theorem strength_binary_lt (pos : Nat) (l r : Tree) {op : String} {p : Nat}
    (hop : Operator.precedence? op = some p) :
    strength (.node pos (.binary l op r)) = Strength.operators + p ∧
      Strength.operators + p < Strength.unary := by
  have := Grammar.precedence_bounds hop
  refine ⟨by simp only [strength, Node.strength, hop, Option.getD_some], ?_⟩
  simp only [Strength.operators, Strength.unary]
  omega

theorem strength_of_isAssignable {t : Tree} (h : t.topIs Node.isAssignable = true) :
    Strength.call ≤ t.strength := by
  match t, h with
  | .node _ (.identifier _), _ | .node _ (.member _ _), _ | .node _ (.element _ _), _ =>
    simp only [strength, Node.strength]; decide

/-! ### Phrases that start with an operand -/

open Piece

variable {b : Bool} {depth : Nat} {ts r : List Token}

/-- An expression stands without parentheses where it binds tightly enough. -/
theorem render_expression {least : Nat} {t : Tree} (h : least ≤ t.strength) :
    Render.expression depth least t = Render.expression depth 0 t := by
  match t, h with
  | .absent, _ | .dangling, _ => simp [Render.expression]
  | .node _ top, h =>
    have h : ¬top.strength < least := Nat.not_lt_of_le h
    simp [Render.expression, Render.inParens, h]

theorem render_node {pos : Nat} {top : Node Tree} :
    Render.expression depth 0 (.node pos top) = Render.bare depth top := by
  simp [Render.expression, Render.inParens]

/-- The expression `t` is an operand `first` with the word `w` behind it, and more. -/
structure Leads (first t : Tree) (w : Word) : Prop where
  fits : Fits .expression first
  strong : Strength.conditional ≤ first.strength
  call : Strength.call ≤ t.strength → Strength.call ≤ first.strength
  weak : t.strength < Strength.primary
  goesOn : w.goesOn = true
  opening : t.opening = follow first first.opening w
  compound : t.topIs Node.isAtom = false ∧ t.topIs Node.isArrow = false
  render : ∀ depth, ∃ gap rest, (gap = [] ∨ gap = [space]) ∧
    Render.expression depth 0 t = Render.expression depth 0 first ++ gap ++ .word w :: rest

/-- An expression starts with an operand, or else with a word of its own. -/
theorem leads_of_fits {pos : Nat} {top : Node Tree} (h : Fits .expression (.node pos top)) :
    top.startsWithOperand = false ∨
      ∃ first ∈ top.children, ∃ w, Leads first (.node pos top) w := by
  cases h with
  | @call _ c args hc hs _ =>
    refine .inr ⟨c, by simp [Node.children], ⟨.mark, "("⟩, hc, Nat.le_trans (by decide) hs,
      fun _ => hs, by simp only [strength, Node.strength]; decide, by decide, rfl, ⟨rfl, rfl⟩,
      fun depth => ⟨[], commas (Render.expressions depth args) ++ [mark ")"], .inl rfl, ?_⟩⟩
    rw [render_node, Render.bare, render_expression hs, List.append_nil, List.append_assoc]
    rfl
  | @member _ o name ho hs _ =>
    refine .inr ⟨o, by simp [Node.children], ⟨.mark, "."⟩, ho, Nat.le_trans (by decide) hs,
      fun _ => hs, by simp only [strength, Node.strength]; decide, by decide, rfl, ⟨rfl, rfl⟩,
      fun depth => ⟨[], [Piece.name name], .inl rfl, ?_⟩⟩
    rw [render_node, Render.bare, render_expression hs, List.append_nil]
    rfl
  | @element _ o i ho hs _ =>
    refine .inr ⟨o, by simp [Node.children], ⟨.mark, "["⟩, ho, Nat.le_trans (by decide) hs,
      fun _ => hs, by simp only [strength, Node.strength]; decide, by decide, rfl, ⟨rfl, rfl⟩,
      fun depth => ⟨[], Render.expression depth 0 i ++ [mark "]"], .inl rfl, ?_⟩⟩
    rw [render_node, Render.bare, render_expression hs, List.append_nil, List.append_assoc]
    rfl
  | @binary _ l op p r hop hl hr hsl hsr =>
    obtain ⟨hs, hlt⟩ := strength_binary_lt pos l r hop
    refine .inr ⟨l, by simp [Node.children], .operator op, hl,
      Nat.le_trans (Nat.le_trans (by decide) (Nat.le_add_right _ p)) hsl, fun h => ?_, ?_,
      Word.goesOn_operator (List.mem_append_left _ (Operator.mem_binary hop)), rfl, ⟨rfl, rfl⟩,
      fun depth => ⟨[space], space :: Render.expression depth
        (Strength.operators + (Operator.precedence? op).getD 0 + 1) r, .inr rfl, ?_⟩⟩
    · rw [hs] at h
      exact absurd h (Nat.not_le_of_lt (Nat.lt_trans hlt (by decide)))
    · rw [hs]
      exact Nat.lt_trans hlt (by decide)
    · have hsl' : Strength.operators + (Operator.precedence? op).getD 0 ≤ l.strength := by
        rwa [hop]
      rw [render_node, Render.bare, render_expression hsl', List.append_assoc]
      rfl
  | @assignment _ t op v hop ht ha hv =>
    have hs := strength_of_isAssignable ha
    refine .inr ⟨t, by simp [Node.children], .operator op, ht, Nat.le_trans (by decide) hs,
      fun _ => hs, by simp only [strength, Node.strength]; decide,
      Word.goesOn_operator (List.mem_append_right _ hop), rfl, ⟨rfl, rfl⟩,
      fun depth => ⟨[space], space :: Render.expression depth Strength.assignment v, .inr rfl, ?_⟩⟩
    rw [render_node, Render.bare, render_expression hs, List.append_assoc]
    rfl
  | @conditional _ c y n hc hs hy hn =>
    have hs' : Strength.conditional + 1 ≤ c.strength := hs
    refine .inr ⟨c, by simp [Node.children], ⟨.mark, "?"⟩, hc, Nat.le_trans (by decide) hs,
      fun h => ?_, by simp only [strength, Node.strength]; decide, by decide, rfl, ⟨rfl, rfl⟩,
      fun depth => ⟨[space], space :: Render.expression depth Strength.assignment y ++
        space :: mark ":" :: space :: Render.expression depth Strength.assignment n, .inr rfl, ?_⟩⟩
    · simp only [strength, Node.strength] at h
      exact absurd h (by decide)
    · rw [render_node, Render.bare, render_expression hs']
      simp only [List.append_assoc]
      rfl
  | _ => exact .inl rfl

/-- The tokens of a phrase that starts with an operand. -/
theorem Leads.spells {first t : Tree} {w : Word} (h : Leads first t w)
    (hs : Spells b (Render.expression depth 0 t) ts r) : ∃ u s,
    Spells b (Render.expression depth 0 first) ts (u :: s) ∧ u.word = w := by
  obtain ⟨gap, rest, hgap, hrender⟩ := h.render depth
  rw [hrender] at hs
  obtain ⟨s, hs, hrest⟩ := spells_append.1 hs
  obtain ⟨u, s', rfl, hu, -⟩ := hrest
  rcases hgap with rfl | rfl
  · rw [List.append_nil] at hs
    exact ⟨u, s', hs, hu⟩
  · obtain ⟨_, hs, rfl⟩ := spells_append.1 hs
    exact ⟨u, s', hs, hu⟩

/-! ### What stands first -/

/-- A word that names something stands before no operand. -/
theorem isUnary_of_name {x : String} (h : x = "this" ∨ Token.isReserved x = false) :
    Word.isUnary ⟨.identifier, x⟩ = false ∧ x ≠ "new" := by
  have hall : ∀ y ∈ "new" :: Operator.unaryWords, y ≠ "this" ∧ Token.isReserved y = true := by
    decide
  have hne : ∀ y ∈ "new" :: Operator.unaryWords, x ≠ y := by
    rintro y hy rfl
    obtain ⟨hthis, hres⟩ := hall x hy
    rcases h with h | h
    · exact hthis h
    · simp [hres] at h
  refine ⟨?_, hne _ List.mem_cons_self⟩
  simp only [Word.isUnary, reduceCtorEq, decide_false, Bool.false_and, Bool.false_or, decide_true,
    Bool.true_and, List.contains_eq_mem, decide_eq_false_iff_not]
  exact fun hx => hne x (List.mem_cons_of_mem _ hx) rfl

theorem opening_follow {t first : Tree} {w v : Word} {ws : List Word}
    (h : OpeningSpec first w ws) (hl : Leads first t v) : ∃ ws, OpeningSpec t w ws := by
  have ha := not_arrow_of_strength hl.strong
  have hu (hc : Strength.call ≤ t.strength) := h.notUnary (hl.call hc)
  have hn (hp : Strength.primary ≤ t.strength) : w ≠ ⟨.identifier, "new"⟩ :=
    absurd hp (Nat.not_le_of_lt hl.weak)
  have ho := hl.opening
  rw [follow] at ho
  split at ho
  · next hatom =>
    obtain ⟨w', hw'⟩ := opening_of_atom hatom
    obtain ⟨rfl, rfl⟩ : w = w' ∧ ws = [] := by simpa [h.eq] using hw'
    exact ⟨[v], by rw [ho, hw']; rfl, h.starts, hu, hn, by simp, by simpa using .inl hl.goesOn,
      Nat.le_refl _⟩
  · next hatom =>
    refine ⟨ws, by rw [ho, h.eq], h.starts, hu, hn,
      fun hws hk => absurd (h.alone hws hk) hatom, ?_, h.short⟩
    intro u hmem
    exact .inl ((h.second u hmem).resolve_right (by simp [ha]))

/-- A phrase that starts with a mark or a word that is no name. -/
theorem opening_alone {t : Tree} {w : Word} (ho : t.opening = [w]) (hs : w.starts = true)
    (hu : w.isUnary = false) (hk : w.kind ≠ .identifier ∨ t.topIs Node.isAtom = true)
    (hn : w ≠ ⟨.identifier, "new"⟩) : ∃ w ws, OpeningSpec t w ws :=
  ⟨w, [], ho, hs, fun _ => hu, fun _ => hn, fun _ h => hk.resolve_left (not_not.2 h), by simp,
    Nat.zero_le _⟩

theorem opening_arrow {pos : Nat} {params : List String} {body : Tree}
    (hp : ∀ x ∈ params, IsBindable x) :
    ∃ w ws, OpeningSpec (.node pos (.arrow params body)) w ws := by
  match params, hp with
  | [x], hp =>
    have hx := (hp x (by simp)).2
    obtain ⟨hu, hn⟩ := isUnary_of_name (.inr hx)
    exact ⟨_, [⟨.mark, "=>"⟩], rfl, by simp [Word.starts, hx], fun _ => hu,
      fun _ => by simpa using hn, by simp, by simp [topIs, top?, Node.isArrow], Nat.le_refl _⟩
  | [], _ => exact opening_alone rfl (by decide) (by decide) (.inl (by decide)) (by decide)
  | _ :: _ :: _, _ => exact opening_alone rfl (by decide) (by decide) (.inl (by decide)) (by decide)

theorem opening_spec {t : Tree} (h : Fits .expression t) : ∃ w ws, OpeningSpec t w ws := by
  induction t using Tree.induct with
  | absent => cases h
  | dangling => cases h
  | node pos top ih =>
    rcases leads_of_fits h with hedge | ⟨first, hmem, v, hl⟩
    swap
    · obtain ⟨w, ws, hw⟩ := ih first hmem hl.fits
      exact ⟨w, opening_follow hw hl⟩
    cases h with
    | call | member | element | binary | assignment | conditional => cases hedge
    | identifier hx hr =>
      obtain ⟨hu, hn⟩ := isUnary_of_name hr
      refine opening_alone rfl ?_ hu (.inr rfl) (by simpa using hn)
      rcases hr with rfl | hr
      · decide
      · simp [Word.starts, hr]
    | @literal _ v hv =>
      match v with
      | .string s => exact opening_alone rfl rfl rfl (.inr rfl) (by simp [Literal.word])
      | .number s => exact opening_alone rfl rfl rfl (.inr rfl) (by simp [Literal.word])
      | .boolean true => exact opening_alone rfl (by decide) (by decide) (.inr rfl) (by decide)
      | .boolean false => exact opening_alone rfl (by decide) (by decide) (.inr rfl) (by decide)
      | .null => exact opening_alone rfl (by decide) (by decide) (.inr rfl) (by decide)
    | parenthesized | object | array =>
      exact opening_alone rfl (by decide) (by decide) (.inl (by decide)) (by decide)
    | @construct _ c args hc hp _ =>
      obtain ⟨w, ws, hw⟩ := ih c (by simp [Node.children]) hc
      refine ⟨⟨.identifier, "new"⟩, [w], by simp [opening, hw.eq], by decide,
        fun _ => by decide, fun h => ?_, by simp, ?_, Nat.le_refl _⟩
      · simp only [strength, Node.strength] at h
        exact absurd h (by decide)
      · simpa using .inl (Word.goesOn_of_starts hw.starts)
    | @unary _ op e hop he hs =>
      obtain ⟨w, ws, hw⟩ := ih e (by simp [Node.children]) he
      have hstart : ∀ op ∈ Operator.unaryMarks ++ Operator.unaryWords,
          (Word.operator op).starts = true := by decide
      refine ⟨_, [w], by simp [opening, hw.eq], hstart op hop, fun h => ?_, fun h => ?_, by simp,
        ?_, Nat.le_refl _⟩
      · simp only [strength, Node.strength] at h
        exact absurd h (by decide)
      · simp only [strength, Node.strength] at h
        exact absurd h (by decide)
      · simpa using .inl (Word.goesOn_of_starts hw.starts)
    | @functionExpression _ name params body hn _ _ _ =>
      have second (v : Word) (hv : v.goesOn = true)
          (ho : opening (.node pos (.functionExpression name params body)) =
            [⟨.identifier, "function"⟩, v]) :
          ∃ w ws, OpeningSpec (.node pos (.functionExpression name params body)) w ws :=
        ⟨_, [v], ho, by decide, fun _ => by decide, fun _ => by decide, by simp,
          by simpa using .inl hv, Nat.le_refl _⟩
      cases name with
      | none => exact second _ (by decide) rfl
      | some x => exact second ⟨.identifier, x⟩ (by simp [Word.goesOn]) rfl
    | arrowBlock hp => exact opening_arrow hp
    | arrow hp => exact opening_arrow hp

/-! ### Printed text -/

theorem spells_arrow {pos : Nat} {params : List String} {body : Tree}
    (h : Spells b (Render.bare depth (.arrow params body)) ts r) :
    opening (.node pos (.arrow params body)) <+: ts.map Token.word := by
  rw [Render.bare] at h
  match params, h with
  | [x], h =>
    obtain ⟨t, s, ⟨rfl, ht⟩, hrest⟩ := spells_name h
    obtain ⟨u, s', ⟨rfl, hu⟩, -⟩ := spells_mark (spells_space.1 hrest)
    simp [opening, t.word_of_isWord ht, u.word_of_isMark hu]
  | [], h =>
    obtain ⟨t, s, ⟨rfl, ht⟩, -⟩ := spells_mark h
    simp [opening, t.word_of_isMark ht]
  | _ :: _ :: _, h =>
    obtain ⟨t, s, ⟨rfl, ht⟩, -⟩ := spells_mark h
    simp [opening, t.word_of_isMark ht]

theorem strength_of_isPath {t : Tree} (h : t.isPath = true) : Strength.call ≤ t.strength := by
  match t, h with
  | .absent, _ | .dangling, _ => simp only [strength]; decide
  | .node _ top, h =>
    cases top with
    | member | element => simp only [strength, Node.strength]; decide
    | _ => exact Nat.le_trans (by decide) (of_decide_eq_true h)

/-- A printed expression starts with its first words. -/
theorem spells_opening {t : Tree} (h : Fits .expression t)
    (hs : Spells b (Render.expression depth 0 t) ts r) :
    t.opening <+: ts.map Token.word ∧ (t.topIs Node.isAtom = true → ∃ u, ts = u :: r) := by
  induction t using Tree.induct generalizing b ts r with
  | absent => cases h
  | dangling => cases h
  | node pos top ih =>
    rcases leads_of_fits h with hedge | ⟨first, hmem, v, hl⟩
    swap
    · obtain ⟨u, s, hfirst, rfl⟩ := hl.spells hs
      obtain ⟨ho, ha⟩ := ih first hmem hl.fits hfirst
      rw [hl.opening]
      refine ⟨Grammar.follow_prefix ho fun hatom => ?_, by simp [hl.compound]⟩
      obtain ⟨v, rfl⟩ := ha hatom
      exact ⟨v, s, rfl⟩
    rw [render_node] at hs
    cases h with
    | call | member | element | binary | assignment | conditional => cases hedge
    | identifier hx hr =>
      obtain ⟨t, s, rfl, ht, -, rfl⟩ := hs
      exact ⟨by simp [opening, ht], fun _ => ⟨t, rfl⟩⟩
    | @literal _ v hv =>
      have hs : Spells b [.word v.word] ts r := by
        rw [Render.bare] at hs
        match v, hs with
        | .string _, hs | .number _, hs | .boolean true, hs | .boolean false, hs | .null, hs =>
          exact hs
      obtain ⟨t, s, rfl, ht, -, rfl⟩ := hs
      exact ⟨by simp [opening, ht], fun _ => ⟨t, rfl⟩⟩
    | @construct _ c args hc hp _ =>
      rw [Render.bare, render_expression (strength_of_isPath hp)] at hs
      simp only [List.cons_append, List.append_assoc] at hs
      obtain ⟨t, s, ⟨rfl, ht⟩, hrest⟩ := spells_name hs
      obtain ⟨s', hcallee, -⟩ := spells_append.1 (spells_space.1 hrest)
      obtain ⟨ho, -⟩ := ih c (by simp [Node.children]) hc hcallee
      refine ⟨?_, by simp [topIs, top?, Node.isAtom]⟩
      rw [opening, List.map_cons, List.cons_prefix_cons, t.word_of_isWord ht]
      exact ⟨rfl, (List.take_prefix ..).trans ho⟩
    | @unary _ op e hop he hs' =>
      rw [Render.bare, render_expression hs', Render.unaryOperator] at hs
      obtain ⟨t, s, rfl, ht, -, hs⟩ := hs
      have hs : ∃ c, Spells c (Render.expression depth 0 e) s r := by
        obtain ⟨s', hgap, hs⟩ := spells_append.1 hs
        split at hgap <;> obtain rfl := hgap <;> exact ⟨_, hs⟩
      obtain ⟨c, hs⟩ := hs
      obtain ⟨ho, -⟩ := ih e (by simp [Node.children]) he hs
      refine ⟨?_, by simp [topIs, top?, Node.isAtom]⟩
      rw [opening, List.map_cons, List.cons_prefix_cons, ht]
      exact ⟨rfl, (List.take_prefix ..).trans ho⟩
    | parenthesized | array =>
      rw [Render.bare] at hs
      obtain ⟨t, s, ⟨rfl, ht⟩, -⟩ := spells_mark hs
      exact ⟨by simp [opening, t.word_of_isMark ht], by simp [topIs, top?, Node.isAtom]⟩
    | @object _ ps =>
      have hs : ∃ qs, Spells b (mark "\x7b" :: qs) ts r := by
        rw [Render.bare] at hs
        split at hs <;> exact ⟨_, hs⟩
      obtain ⟨qs, hs⟩ := hs
      obtain ⟨t, s, ⟨rfl, ht⟩, -⟩ := spells_mark hs
      exact ⟨by simp [opening, t.word_of_isMark ht], by simp [topIs, top?, Node.isAtom]⟩
    | @functionExpression _ name params body hn _ _ _ =>
      rw [Render.bare] at hs
      simp only [List.cons_append, List.append_assoc] at hs
      obtain ⟨t, s, ⟨rfl, ht⟩, hrest⟩ := spells_name hs
      refine ⟨?_, by simp [topIs, top?, Node.isAtom]⟩
      cases name with
      | none =>
        obtain ⟨u, s', ⟨rfl, hu⟩, -⟩ := spells_mark hrest
        simp [opening, t.word_of_isWord ht, u.word_of_isMark hu]
      | some x =>
        obtain ⟨u, s', ⟨rfl, hu⟩, -⟩ := spells_name hrest
        simp [opening, t.word_of_isWord ht, u.word_of_isWord hu]
    | arrowBlock => exact ⟨spells_arrow hs, by simp [topIs, top?, Node.isAtom]⟩
    | arrow => exact ⟨spells_arrow hs, by simp [topIs, top?, Node.isAtom]⟩

/-- The first token of a printed expression is the word that the expression opens with. -/
theorem exists_opening {t : Tree} (h : Fits .expression t)
    (hs : Spells b (Render.expression depth 0 t) ts r) :
    ∃ u us ws, ts = u :: us ∧ OpeningSpec t u.word ws ∧ ws <+: us.map Token.word ∧
      (t.topIs Node.isAtom = true → us = r) := by
  obtain ⟨w, ws, hw⟩ := opening_spec h
  obtain ⟨ho, hatom⟩ := spells_opening h hs
  rw [hw.eq] at ho
  cases ts with
  | nil => simp at ho
  | cons u us =>
    rw [List.map_cons, List.cons_prefix_cons] at ho
    obtain ⟨rfl, hnext⟩ := ho
    refine ⟨u, us, ws, rfl, hw, hnext, fun ht => ?_⟩
    obtain ⟨u', hu'⟩ := hatom ht
    exact (List.cons.inj hu').2

end Tree

end DebugGuard
