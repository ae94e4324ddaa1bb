import DebugGuard.Proofs.Script.Glue

/-!
# Parentheses of the printer

A tree that is put together by hand need not be one that the grammar could give: an operand may bind
looser than its place asks for.  The printer then writes parentheses.  `Tree.padded` puts them into
the tree; the text stays the same (`padsAlike`), the tree fits the grammar (`fitsPadded`), and
what the text is read back as is the tree, up to parentheses (`Tree.unwrapped`).

Main statement: `readsAll_printed`, for all expressions that are put together from names, literals,
operators, accesses, calls, arrays, objects and functions with nothing to do (`Composed`).
-/

namespace DebugGuard

open Cursor Grammar Piece

/-- The whole text is read as the phrase, and gives the tree. -/
def Grammar.ReadsAll (phrase : (ts : List Token) → Reading (Taken ts Tree)) (text : String)
    (e : Tree) : Prop :=
  ∃ ts eof, Token.scan text = .ok ts ∧ eof.kind = .endOfFile ∧ Takes (phrase ts) e [eof]

theorem Grammar.ReadsAll.unique {phrase : (ts : List Token) → Reading (Taken ts Tree)}
    {text : String} {e e' : Tree} (h : ReadsAll phrase text e) (h' : ReadsAll phrase text e') :
    e = e' := by
  obtain ⟨ts, _, hscan, -, he⟩ := h
  obtain ⟨ts', _, hscan', -, he'⟩ := h'
  obtain rfl := Except.ok.inj (hscan.symm.trans hscan')
  exact (he.unique he').1

namespace Tree

/-! ### Trees up to parentheses -/

/-- A tree without its parentheses and its positions. -/
def unwrapped (t : Tree) : Tree :=
  t.fold id fun _ _ top => match top with
    | .parenthesized e => e
    | top => .node 0 top

@[simp] theorem unwrapped_parenthesized (pos : Nat) (e : Tree) :
    unwrapped (.node pos (.parenthesized e)) = e.unwrapped :=
  fold_node ..

theorem unwrapped_node {pos : Nat} {top : Node Tree} (h : ∀ e, top ≠ .parenthesized e) :
    unwrapped (.node pos top) = .node 0 (top.map unwrapped) := by
  rw [unwrapped, fold_node]
  cases top <;> first | rfl | exact absurd rfl (h _)

theorem unwrapped_bare (t : Tree) : t.bare.unwrapped = t.unwrapped := by
  induction t using Tree.induct with
  | absent => rfl
  | dangling => rfl
  | node pos top ih =>
    rw [bare_node]
    by_cases hp : ∃ e, top = .parenthesized e
    · obtain ⟨e, rfl⟩ := hp
      exact ih e (by simp [Node.children])
    · have hmap : ∀ e, top.map bare ≠ .parenthesized e := by
        cases top <;> simp_all [Node.map]
      rw [unwrapped_node hmap, unwrapped_node fun e he => hp ⟨e, he⟩, Node.map_map]
      congr 1
      exact Node.map_congr ih

/-! ### Padding -/

/-- A tree, in parentheses if it binds looser than its place asks for. -/
def wrap (least : Nat) (t : Tree) : Tree :=
  if t.strength < least then .node 0 (.parenthesized t) else t

end Tree

/-- A node with parentheses around the operands that bind too loosely. -/
def Node.wrapped : Node Tree → Node Tree
  | .call c args => .call (c.wrap Strength.call) args
  | .construct c args => .construct (c.wrap Strength.call) args
  | .member o x => .member (o.wrap Strength.call) x
  | .element o i => .element (o.wrap Strength.call) i
  | .unary op e => .unary op (e.wrap Strength.unary)
  | .binary l op r =>
    let least := Strength.operators + (Operator.precedence? op).getD 0
    .binary (l.wrap least) op (r.wrap (least + 1))
  | .assignment t op v => .assignment (t.wrap Strength.call) op v
  | .conditional c y n => .conditional (c.wrap (Strength.conditional + 1)) y n
  | n => n

namespace Tree

/-- An expression with the parentheses that are printed around its operands. -/
def padded (t : Tree) : Tree :=
  t.fold id fun pos _ top => .node pos top.wrapped

@[simp] theorem padded_node (pos : Nat) (top : Node Tree) :
    padded (.node pos top) = .node pos (top.map padded).wrapped :=
  fold_node ..

section

variable {t : Tree} {least depth : Nat} {w : Word}

theorem wrap_of_le (h : least ≤ t.strength) : wrap least t = t :=
  if_neg (Nat.not_lt_of_le h)

theorem le_strength_wrap (h : least ≤ Strength.primary) : least ≤ (wrap least t).strength := by
  rw [wrap]
  split
  · exact h
  · next hs => exact Nat.le_of_not_lt hs

theorem Fits.wrap (h : Fits .expression t) : Fits .expression (wrap least t) := by
  rw [Tree.wrap]
  split
  · exact .parenthesized h
  · exact h

theorem render_wrap (h : least ≤ Strength.primary) :
    Render.expression depth least (wrap least t) = Render.expression depth least t := by
  by_cases hs : t.strength < least
  · match t, hs with
    | .absent, hs | .dangling, hs => exact absurd hs (Nat.not_lt_of_le h)
    | .node pos top, hs =>
      rw [wrap, if_pos hs, render_expression (by exact h), render_node, Render.bare, render_node,
        Render.expression, Render.inParens, if_pos (by simpa [strength] using hs)]
  · rw [wrap, if_neg hs]

theorem unwrapped_wrap : (wrap least t).unwrapped = t.unwrapped := by
  rw [wrap]
  split
  · exact unwrapped_parenthesized ..
  · rfl

theorem opens_wrap (h : (wrap least t).Opens w) (hw : w ≠ ⟨.mark, "("⟩) : t.Opens w := by
  rw [wrap] at h
  split at h
  · exact absurd (Option.some.inj h).symm hw
  · exact h

@[simp] theorem joins_wrap : (wrap least t).joins = t.joins := by
  rw [wrap]
  split
  · simp [joins_node, Node.joins, Node.children]
  · rfl

theorem strength_padded (t : Tree) : t.padded.strength = t.strength := by
  match t with
  | .absent | .dangling => rfl
  | .node pos top =>
    rw [padded_node]
    cases top <;> rfl

theorem unwrapped_padded (t : Tree) : t.padded.unwrapped = t.unwrapped := by
  induction t using Tree.induct with
  | absent => rfl
  | dangling => rfl
  | node pos top ih =>
    rw [padded_node]
    by_cases hp : ∃ e, top = .parenthesized e
    · obtain ⟨e, rfl⟩ := hp
      exact ih e (by simp [Node.children])
    · have hne : ∀ e, (top.map padded).wrapped ≠ .parenthesized e := by
        cases top <;> simp_all [Node.map, Node.wrapped]
      have hmap : ((top.map padded).wrapped).map unwrapped = top.map unwrapped := by
        have hmap := Node.map_congr ih
        rw [← Node.map_map] at hmap
        rw [← hmap]
        cases top <;> simp only [Node.map, Node.wrapped, unwrapped_wrap]
      rw [unwrapped_node hne, unwrapped_node fun e he => hp ⟨e, he⟩, hmap]

end

/-! ### Expressions that are put together -/

/-- An expression of names, literals, operators, accesses, calls, arrays, objects and functions with
nothing to do, in any nesting and with parentheses anywhere; or a property of such an object.  No
member of a number of digits alone is accessed. -/
inductive Assembled : Phrase → Tree → Prop
  | identifier {pos x} (hx : IsBindable x) : Assembled .expression (.node pos (.identifier x))
  | literal {pos v} (hv : ∀ s, v = .number s → Word.Valid ⟨.number, s⟩) :
      Assembled .expression (.node pos (.literal v))
  | unary {pos op e} (hop : op ∈ Operator.unaryMarks ++ Operator.unaryWords)
      (he : Assembled .expression e) : Assembled .expression (.node pos (.unary op e))
  | binary {pos l op r} (hop : (Operator.precedence? op).isSome = true)
      (hl : Assembled .expression l) (hr : Assembled .expression r) :
      Assembled .expression (.node pos (.binary l op r))
  | conditional {pos c y n} (hc : Assembled .expression c) (hy : Assembled .expression y)
      (hn : Assembled .expression n) : Assembled .expression (.node pos (.conditional c y n))
  | assignment {pos t op v} (hop : op ∈ Operator.assigning) (ht : Assembled .expression t)
      (hv : Assembled .expression v) : Assembled .expression (.node pos (.assignment t op v))
  | call {pos c args} (hc : Assembled .expression c)
      (hargs : ∀ a ∈ args, Assembled .expression a) : Assembled .expression (.node pos (.call c args))
  | member {pos o x} (ho : Assembled .expression o) (hnumber : o.isPlainNumber = false)
      (hx : IsSpelled x) : Assembled .expression (.node pos (.member o x))
  | element {pos o i} (ho : Assembled .expression o) (hi : Assembled .expression i) :
      Assembled .expression (.node pos (.element o i))
  | array {pos es} (hes : ∀ e ∈ es, Assembled .expression e) :
      Assembled .expression (.node pos (.array es))
  | object {pos ps} (hps : ∀ p ∈ ps, Assembled .property p) :
      Assembled .expression (.node pos (.object ps))
  | functionExpression {pos pos' name params} (hn : ∀ x ∈ name, IsBindable x)
      (hp : ∀ x ∈ params, IsBindable x) :
      Assembled .expression (.node pos (.functionExpression name params (.node pos' (.block []))))
  | parenthesized {pos e} (he : Assembled .expression e) :
      Assembled .expression (.node pos (.parenthesized e))
  | property {pos key quoted v}
      (hk : quoted = false → IsSpelled key ∨ Word.Valid ⟨.number, key⟩)
      (hv : Assembled .expression v) : Assembled .property (.node pos (.property key quoted v false))

/-- Only names, members and elements are assigned to. -/
def AssignsPlaces (t : Tree) : Prop :=
  ∀ target op v, .assignment target op v ∈ t.nodes → target.topIs Node.isAssignable = true

theorem AssignsPlaces.child {pos : Nat} {top : Node Tree} {c : Tree}
    (h : AssignsPlaces (.node pos top)) (hc : c ∈ top.children) : AssignsPlaces c :=
  fun target op v hmem => h target op v (nodes_subset hc hmem)

/-- Put together so that only names, members and elements are assigned to, and no name that stands
as an expression is `let`. -/
structure Composed (phrase : Phrase) (t : Tree) : Prop where
  assembled : Assembled phrase t
  assignsPlaces : t.AssignsPlaces
  noLet : .identifier "let" ∉ t.nodes

theorem Composed.child {phrase part : Phrase} {pos : Nat} {top : Node Tree} {c : Tree}
    (h : Composed phrase (.node pos top)) (hc : c ∈ top.children) (hpart : Assembled part c) :
    Composed part c :=
  ⟨hpart, h.assignsPlaces.child hc, fun hmem => h.noLet (nodes_subset hc hmem)⟩

theorem isBindable_of_isKnown {x : String} (h : Word.isKnown ⟨.identifier, x⟩ = true)
    (hr : Token.isReserved x = false) : IsBindable x :=
  ⟨Word.valid_of_isKnown h, hr⟩

theorem valid_literal {v : Literal} (h : ∀ s, v = .number s → Word.Valid ⟨.number, s⟩) :
    v.word.Valid := by
  match v, h with
  | .string _, _ => trivial
  | .number s, h => exact h s rfl
  | .boolean true, _ | .boolean false, _ | .null, _ => exact Word.valid_of_isKnown (by decide)

theorem valid_key {key : String} (h : IsSpelled key ∨ Word.Valid ⟨.number, key⟩) :
    (Word.key key).Valid := by
  rcases h with h | h
  · exact key_word (t := ⟨.identifier, key, 0, false⟩) h (.inr rfl) ▸ h
  · exact key_word (t := ⟨.number, key, 0, false⟩) h (.inl rfl) ▸ h

section

variable {t e : Tree} {least pos depth : Nat} {w : Word}

/-- A tree prints as it does with its parentheses put in. -/
structure PadsAlike (t : Tree) : Prop where
  expression : Assembled .expression t →
    ∀ depth least, Render.expression depth least t.padded = Render.expression depth least t
  property : Assembled .property t →
    ∀ depth, Render.propertyOf depth t.padded = Render.propertyOf depth t

theorem unaryOperator_wrap (op : String) (e : Tree) :
    Render.unaryOperator op (e.padded.wrap Strength.unary) = Render.unaryOperator op e := by
  match e with
  | .absent | .dangling => rfl
  | .node pos top =>
    rw [padded_node]
    cases top with
    | binary l op' r =>
      rw [wrap]
      split <;> rfl
    | _ => rfl

theorem padsAlike (t : Tree) : PadsAlike t := by
  induction t using Tree.induct with
  | absent => exact ⟨nofun, nofun⟩
  | dangling => exact ⟨nofun, nofun⟩
  | node pos top ih =>
    have wrapped {c : Tree} (least : Nat) (hc : c ∈ top.children) (h : Assembled .expression c)
        (hl : least ≤ Strength.primary) (depth : Nat) :
        Render.expression depth least (wrap least c.padded) = Render.expression depth least c := by
      rw [render_wrap hl, (ih c hc).expression h]
    have several {es : List Tree} (hes : ∀ e ∈ es, e ∈ top.children ∧ Assembled .expression e)
        (depth : Nat) : Render.expressions depth (es.map padded) = Render.expressions depth es := by
      rw [render_expressions, render_expressions, List.map_map]
      exact List.map_congr_left fun e he => (ih e (hes e he).1).expression (hes e he).2 depth 0
    refine ⟨fun h depth least => ?_, fun h depth => ?_⟩
    · have hbare : Render.bare depth (top.map padded).wrapped = Render.bare depth top := by
        cases h with
        | identifier | literal | functionExpression => rfl
        | unary hop he =>
          simp only [Node.map, Node.wrapped, Render.bare, unaryOperator_wrap,
            wrapped Strength.unary (by simp [Node.children]) he (by decide)]
        | @binary _ l op r hop hl hr =>
          have hle := Operator.rank_le op
          have hleast : Strength.operators + (Operator.precedence? op).getD 0 + 1 ≤
              Strength.primary := by
            simp only [Strength.operators, Strength.primary]
            omega
          simp only [Node.map, Node.wrapped, Render.bare,
            wrapped _ (by simp [Node.children]) hl (Nat.le_of_succ_le hleast),
            wrapped _ (by simp [Node.children]) hr hleast]
        | conditional hc hy hn =>
          simp only [Node.map, Node.wrapped, Render.bare,
            wrapped (Strength.conditional + 1) (by simp [Node.children]) hc (by decide),
            (ih _ (by simp [Node.children])).expression hy,
            (ih _ (by simp [Node.children])).expression hn]
        | assignment hop ht hv =>
          simp only [Node.map, Node.wrapped, Render.bare,
            wrapped Strength.call (by simp [Node.children]) ht (by decide),
            (ih _ (by simp [Node.children])).expression hv]
        | call hc hargs =>
          simp only [Node.map, Node.wrapped, Render.bare,
            wrapped Strength.call (by simp [Node.children]) hc (by decide),
            several fun a ha => ⟨by simp [Node.children, ha], hargs a ha⟩]
        | member ho hnumber hx =>
          simp only [Node.map, Node.wrapped, Render.bare,
            wrapped Strength.call (by simp [Node.children]) ho (by decide)]
        | element ho hi =>
          simp only [Node.map, Node.wrapped, Render.bare,
            wrapped Strength.call (by simp [Node.children]) ho (by decide),
            (ih _ (by simp [Node.children])).expression hi]
        | array hes =>
          simp only [Node.map, Node.wrapped, Render.bare,
            several fun e he => ⟨by simp [Node.children, he], hes e he⟩]
        | @object _ ps hps =>
          have hmap : Render.properties depth (ps.map padded) = Render.properties depth ps := by
            rw [render_properties, render_properties, List.map_map]
            exact List.map_congr_left fun p hp =>
              (ih p (by simp [Node.children, hp])).property (hps p hp) depth
          simp only [Node.map, Node.wrapped, Render.bare, List.isEmpty_map, hmap]
        | parenthesized he =>
          simp only [Node.map, Node.wrapped, Render.bare,
            (ih _ (by simp [Node.children])).expression he]
      have hs : (top.map padded).wrapped.strength = top.strength := by
        have := strength_padded (.node pos top)
        rwa [padded_node] at this
      rw [padded_node, Render.expression, Render.expression, hs, hbare]
    · cases h with
      | property hk hv =>
        have := (ih _ (by simp [Node.children])).expression hv depth Strength.assignment
        simp [Node.map, Node.wrapped, Render.propertyOf, this]

theorem isAssignable_padded (t : Tree) :
    t.padded.topIs Node.isAssignable = t.topIs Node.isAssignable := by
  match t with
  | .absent | .dangling => rfl
  | .node pos top =>
    rw [padded_node]
    cases top <;> rfl

theorem isPlainNumber_wrap (o : Tree) :
    (o.padded.wrap Strength.call).isPlainNumber = o.isPlainNumber := by
  match o with
  | .absent | .dangling => rfl
  | .node pos top =>
    rw [padded_node, wrap]
    cases top with
    | literal v => cases v <;> rfl
    | _ => split <;> rfl

theorem joins_padded (t : Tree) : t.padded.joins = t.joins := by
  induction t using Tree.induct with
  | absent => rfl
  | dangling => rfl
  | node pos top ih =>
    have hmap : ((top.map padded).wrapped).map joins = top.map joins := by
      have hmap := Node.map_congr ih
      rw [← Node.map_map] at hmap
      rw [← hmap]
      cases top <;> simp only [Node.map, Node.wrapped, joins_wrap]
    have hany : (top.map padded).wrapped.children.any joins = top.children.any joins := by
      have hany := congrArg (fun n => n.children.any id) hmap
      simpa only [Node.children_map, List.any_map, Function.id_comp] using hany
    have htop : (top.map padded).wrapped.joins = top.joins := by
      cases top <;> first | rfl | exact isPlainNumber_wrap _
    rw [padded_node, joins_node, joins_node, hany, htop]

theorem joins_of_assembled {phrase : Phrase} (h : Assembled phrase t) : t.joins = false := by
  induction h <;> simp_all [joins_node, Node.joins, Node.children]

/-- With its parentheses put in, an expression fits the grammar. -/
structure FitsPadded (t : Tree) : Prop where
  expression : Assembled .expression t → Fits .expression t.padded
  property : Assembled .property t → Fits .property t.padded

theorem fitsPadded (h : t.AssignsPlaces) : FitsPadded t := by
  induction t using Tree.induct with
  | absent => exact ⟨nofun, nofun⟩
  | dangling => exact ⟨nofun, nofun⟩
  | node pos top ih =>
    have fits {c : Tree} (hc : c ∈ top.children) (hcomp : Assembled .expression c) :
        Fits .expression c.padded :=
      (ih c hc (h.child hc)).expression hcomp
    have several {es : List Tree} (hes : ∀ e ∈ es, e ∈ top.children ∧ Assembled .expression e) :
        ∀ e ∈ es.map padded, Fits .expression e := by
      intro e he
      obtain ⟨e', he', rfl⟩ := List.mem_map.1 he
      exact fits (hes e' he').1 (hes e' he').2
    refine ⟨fun hcomp => ?_, fun hcomp => ?_⟩
    · rw [padded_node]
      cases hcomp with
      | identifier hx => exact .identifier hx.1 (.inr hx.2)
      | literal hv => exact .literal (valid_literal hv)
      | unary hop he =>
        exact .unary hop (fits (by simp [Node.children]) he).wrap (le_strength_wrap (by decide))
      | @binary _ l op r hop hl hr =>
        obtain ⟨p, hp⟩ := Option.isSome_iff_exists.1 hop
        have hle := (precedence_bounds hp).2
        have hleast : Strength.operators + p + 1 ≤ Strength.primary := by
          simp only [Strength.operators, Strength.primary]
          omega
        simp only [Node.map, Node.wrapped, hp, Option.getD_some]
        exact .binary hp (fits (by simp [Node.children]) hl).wrap
          (fits (by simp [Node.children]) hr).wrap (le_strength_wrap (Nat.le_of_succ_le hleast))
          (le_strength_wrap hleast)
      | conditional hc hy hn =>
        exact .conditional (fits (by simp [Node.children]) hc).wrap (le_strength_wrap (by decide))
          (fits (by simp [Node.children]) hy) (fits (by simp [Node.children]) hn)
      | @assignment _ t op v hop ht hv =>
        have ha : t.topIs Node.isAssignable = true := h _ _ _ mem_nodes
        have hs : Strength.call ≤ t.padded.strength := by
          rw [strength_padded]
          exact strength_of_isAssignable ha
        simp only [Node.map, Node.wrapped, wrap_of_le hs]
        exact .assignment hop (fits (by simp [Node.children]) ht) (by rw [isAssignable_padded, ha])
          (fits (by simp [Node.children]) hv)
      | call hc hargs =>
        exact .call (fits (by simp [Node.children]) hc).wrap (le_strength_wrap (by decide))
          (several fun a ha => ⟨by simp [Node.children, ha], hargs a ha⟩)
      | member ho hnumber hx =>
        exact .member (fits (by simp [Node.children]) ho).wrap (le_strength_wrap (by decide)) hx
      | element ho hi =>
        exact .element (fits (by simp [Node.children]) ho).wrap (le_strength_wrap (by decide))
          (fits (by simp [Node.children]) hi)
      | array hes => exact .array (several fun e he => ⟨by simp [Node.children, he], hes e he⟩)
      | @object _ ps hps =>
        refine .object fun p hp => ?_
        obtain ⟨p', hp', rfl⟩ := List.mem_map.1 hp
        have hmem : p' ∈ (Node.object ps).children := hp'
        exact (ih p' hmem (h.child hmem)).property (hps p' hp')
      | @functionExpression _ pos' _ _ hn hp =>
        have hbody : Fits .statement (.node pos' (.block [])) := .block (by simp)
        exact .functionExpression hn hp hbody rfl
      | parenthesized he => exact .parenthesized (fits (by simp [Node.children]) he)
    · rw [padded_node]
      cases hcomp with
      | property hk hv =>
        exact .property (fun hq => valid_key (hk hq)) (fits (by simp [Node.children]) hv)

theorem fits_of_composed (h : Composed .expression t) : Fits .expression t.padded :=
  (fitsPadded h.assignsPlaces).expression h.assembled

theorem opens_follow {first : Tree} {v : Word} (hf : Fits .expression first)
    (h : (follow first first.opening v).head? = some w) : first.Opens w := by
  obtain ⟨u, us, hu⟩ := opening_spec hf
  rw [Opens]
  rw [follow] at h
  split at h <;> simpa [hu.eq] using h

/-- What is printed in front of such an expression is no word that would make the statement another
one, unless the printer sees it. -/
theorem startsLikeStatement_of_opens (h : Composed .expression t) (ho : t.padded.Opens w)
    (hw : w ∈ [⟨.mark, "\x7b"⟩, ⟨.identifier, "function"⟩, ⟨.identifier, "let"⟩]) :
    Render.startsLikeStatement t = true := by
  induction t using Tree.induct with
  | absent => cases h.assembled
  | dangling => cases h.assembled
  | node pos top ih =>
    have hparen : w ≠ ⟨.mark, "("⟩ := by
      rintro rfl
      exact absurd hw (by decide)
    have first {c : Tree} {least : Nat} {v : Word} (hc : c ∈ top.children)
        (hpart : Assembled .expression c)
        (ho : (follow (wrap least c.padded) (wrap least c.padded).opening v).head? = some w) :
        Render.startsLikeStatement c = true :=
      have hcomp := h.child hc hpart
      ih c hc hcomp (opens_wrap (opens_follow (fits_of_composed hcomp).wrap ho) hparen)
    have other {v : Word} (hv : v ∉ [⟨.mark, "\x7b"⟩, ⟨.identifier, "function"⟩,
        ⟨.identifier, "let"⟩]) (ho : some v = some w) : False :=
      hv (Option.some.inj ho ▸ hw)
    rw [padded_node] at ho
    cases h.assembled with
    | call hc | member hc | element hc | binary _ hc | assignment _ hc | conditional hc =>
      rw [Render.startsLikeStatement]
      exact first (by simp [Node.children]) hc ho
    | object | functionExpression => rfl
    | array | parenthesized => exact (other (by decide) ho).elim
    | @unary _ op e hop he =>
      have hall : ∀ op ∈ Operator.unaryMarks ++ Operator.unaryWords, Word.operator op ∉
          [⟨.mark, "\x7b"⟩, ⟨.identifier, "function"⟩, ⟨.identifier, "let"⟩] := by decide
      exact (other (hall op hop) ho).elim
    | @literal _ v _ =>
      refine (other ?_ ho).elim
      cases v with
      | boolean value => cases value <;> decide
      | _ => simp [Literal.word]
    | @identifier _ x hx =>
      refine (other ?_ ho).elim
      have hlet : x ≠ "let" := by
        rintro rfl
        exact h.noLet mem_nodes
      have hfunction : x ≠ "function" := by
        rintro rfl
        exact absurd hx.2 (by decide)
      simp [hfunction, hlet]

/-- An expression with the parentheses around its operands, and around itself where its place needs
them. -/
def shielded (needed : Bool) (t : Tree) : Tree :=
  if needed then .node 0 (.parenthesized t.padded) else t.padded

theorem fits_shielded {needed : Bool} (h : Fits .expression t.padded) :
    Fits .expression (t.shielded needed) := by
  cases needed
  · exact h
  · exact .parenthesized h

theorem joins_shielded {needed : Bool} (h : Assembled .expression t) :
    (t.shielded needed).joins = false := by
  have hj : t.padded.joins = false := (joins_padded t).trans (joins_of_assembled h)
  cases needed
  · exact hj
  · simp [shielded, joins_node, Node.joins, Node.children, hj]

theorem unwrapped_shielded {needed : Bool} : (t.shielded needed).unwrapped = t.unwrapped := by
  cases needed
  · exact unwrapped_padded t
  · exact (unwrapped_parenthesized ..).trans (unwrapped_padded t)

/-- An expression with the parentheses that are printed around it as a statement. -/
def statementPadded (t : Tree) : Tree :=
  t.shielded (Render.startsLikeStatement t)

theorem fits_statement (h : Composed .expression t) (pos : Nat) :
    Fits .statement (.node pos (.expressionStatement t.statementPadded)) := by
  have hf := fits_of_composed h
  rw [statementPadded, shielded]
  split
  · have hopens {w : Word} (hw : w ≠ ⟨.mark, "("⟩) :
        ¬Opens (.node 0 (.parenthesized t.padded)) w :=
      fun ho => hw (Option.some.inj ho).symm
    refine .expressionStatement (.parenthesized hf) (hopens (by decide)) (hopens (by decide)) ?_
    rintro ⟨x, hx⟩
    cases hx
  · next hs =>
    have hopens {w : Word} (hw : w ∈ [⟨.mark, "\x7b"⟩, ⟨.identifier, "function"⟩,
        ⟨.identifier, "let"⟩]) : ¬t.padded.Opens w :=
      fun ho => hs (startsLikeStatement_of_opens h ho hw)
    refine .expressionStatement hf (hopens (by decide)) (hopens (by decide)) ?_
    rintro ⟨x, hx⟩
    exact hopens (by decide) (by rw [Opens, hx]; rfl : t.padded.Opens ⟨.identifier, "let"⟩)

theorem render_statementPadded (h : Composed .expression t) (pos depth : Nat) :
    Render.statement depth (.node pos (.expressionStatement t.statementPadded)) =
      Render.statement depth (.node pos (.expressionStatement t)) := by
  have hstarts : Render.startsLikeStatement t.statementPadded = false := by
    cases fits_statement h pos with
    | expressionStatement he hb hf _ => exact startsLikeStatement_eq_false he hb hf
  have hprint := (padsAlike t).expression h.assembled depth 0
  rw [render_statement rfl, render_statement rfl, Render.sentence, Render.sentence, hstarts]
  cases hs : Render.startsLikeStatement t
  · rw [statementPadded, shielded, hs, if_neg (by simp), hprint]
  · rw [statementPadded, shielded, hs, if_pos rfl, render_node, Render.bare, hprint]
    rfl

theorem joins_statementPadded (h : Composed .expression t) : t.statementPadded.joins = false :=
  joins_shielded h.assembled

theorem unwrapped_statementPadded (t : Tree) : t.statementPadded.unwrapped = t.unwrapped :=
  unwrapped_shielded

/-! ### Printing and reading -/

/-- The tokens of a printed text in which no number is glued to a point. -/
theorem scan_printed {ps : List Piece} {ns : List String} (hp : Printed ps ns false) :
    ∃ eof, Token.scan (text ps) = .ok (tokens 0 false ps ++ [eof]) ∧ eof.kind = .endOfFile := by
  have hloose : Loose ps := by simpa using hp.loose [] trivial trivial
  exact ⟨_, scan_text hp.valid (apart_of_loose hloose hp.glued_eq), rfl⟩

theorem ends_of_endOfFile {eof : Token} (h : eof.kind = .endOfFile) : Ends [eof] := by
  intro u us hu
  cases hu
  exact .inl h

/-- What fits as an expression is read back from its text as it is. -/
theorem readsAll_of_fits_expression (hf : Fits .expression t) (hj : t.joins = false) :
    ∃ e, ReadsAll Grammar.expression (text (Render.expression 0 0 t)) e ∧ e.bare = t.bare := by
  have hp : Printed (Render.expression 0 0 t) t.numerals false := hj ▸ (prints t).expression hf 0
  obtain ⟨eof, hscan, heof⟩ := scan_printed hp
  obtain ⟨e, he, hbare⟩ := ((readsBack t).expression hf).expression
    (spells_tokens _ 0 false [eof]) (ends_of_endOfFile heof)
  exact ⟨e, ⟨_, eof, hscan, heof, he⟩, hbare⟩

/-- What fits as a statement is read back from its text as it is. -/
theorem readsAll_of_fits_statement (hf : Fits .statement t) (hj : t.joins = false) :
    ∃ e, ReadsAll Grammar.statement t.render e ∧ e.bare = t.bare := by
  have hp : Printed (Render.statement 0 t) t.numerals false := hj ▸ (prints t).statement hf 0
  obtain ⟨eof, hscan, heof⟩ := scan_printed hp
  have helse : take? (·.isWord "else") [eof] = none := by
    simp [take?_cons_eq_none, Token.isWord, heof]
  obtain ⟨e, he, hbare⟩ := (readsBack t).statement hf (spells_tokens _ 0 false [eof]) fun _ => helse
  exact ⟨e, ⟨_, eof, hscan, heof, he⟩, hbare⟩

/-- Alone, an expression is printed as an expression. -/
theorem render_of_topIs (h : t.topIs Node.isStatement = false) :
    t.render = text (Render.expression 0 0 t) := by
  match t, h with
  | .absent, _ | .dangling, _ => simp [render, Render.statement, Render.expression]
  | .node pos top, h =>
    have h : top.isStatement = false := h
    simp [render, Render.statement, h, render_node]

theorem render_of_composed (h : Composed .expression t) :
    t.render = text (Render.expression 0 0 t) :=
  render_of_topIs (by cases h.assembled <;> rfl)

theorem readsAll_expression (h : Composed .expression t) :
    ∃ e, ReadsAll Grammar.expression t.render e ∧ e.unwrapped = t.unwrapped := by
  obtain ⟨e, he, hbare⟩ := readsAll_of_fits_expression (fits_of_composed h)
    ((joins_padded t).trans (joins_of_assembled h.assembled))
  rw [(padsAlike t).expression h.assembled, ← render_of_composed h] at he
  refine ⟨e, he, ?_⟩
  rw [← unwrapped_bare, hbare, unwrapped_bare, unwrapped_padded]

theorem readsAll_statement (h : Composed .expression t) (pos : Nat) :
    ∃ start e, ReadsAll Grammar.statement (render (.node pos (.expressionStatement t)))
        (.node start (.expressionStatement e)) ∧ e.unwrapped = t.unwrapped := by
  obtain ⟨s, hs, hbare⟩ := readsAll_of_fits_statement (fits_statement h pos)
    (by simp [joins_node, Node.joins, Node.children, joins_statementPadded h])
  rw [render, render_statementPadded h] at hs
  obtain ⟨start, e, rfl, he⟩ : ∃ start e, s = .node start (.expressionStatement e) ∧
      e.bare = t.statementPadded.bare := by
    cases s with
    | absent | dangling =>
      rw [bare_node] at hbare
      cases hbare
    | node start top =>
      rw [bare_node, bare_node, node.injEq] at hbare
      cases top <;> simp_all [Node.map]
  refine ⟨start, e, hs, ?_⟩
  rw [← unwrapped_bare, he, unwrapped_bare, unwrapped_statementPadded]

/-- **The printer adds every parenthesis that an expression needs.**  The text of an expression is
read as that expression, up to parentheses, and with a semicolon behind it as a statement that
consists of it. -/
theorem readsAll_printed (h : Composed .expression t) (pos : Nat) :
    (∃ e, ReadsAll Grammar.expression t.render e ∧ e.unwrapped = t.unwrapped) ∧
    ∃ start e, ReadsAll Grammar.statement (render (.node pos (.expressionStatement t)))
        (.node start (.expressionStatement e)) ∧ e.unwrapped = t.unwrapped :=
  ⟨readsAll_expression h, readsAll_statement h pos⟩

/-- A difference below a product, an object at the left edge, and two signs side by side. -/
theorem readsAll_product : ∃ t : Tree, Composed .expression t ∧
    t.render = "(\x7b\x7d - a) * - -b" ∧
    render (.node 0 (.expressionStatement t)) = "((\x7b\x7d - a) * - -b);" ∧
    (∃ e, ReadsAll Grammar.expression t.render e ∧ e.unwrapped = t.unwrapped) ∧
    ∃ start e, ReadsAll Grammar.statement (render (.node 0 (.expressionStatement t)))
        (.node start (.expressionStatement e)) ∧ e.unwrapped = t.unwrapped := by
  have name (x : String) (h : Word.isKnown ⟨.identifier, x⟩ = true)
      (hr : Token.isReserved x = false) : Assembled .expression (.node 0 (.identifier x)) :=
    .identifier (isBindable_of_isKnown h hr)
  have hdifference : Assembled .expression (.node 0 (.binary (.node 0 (.object [])) "-"
      (.node 0 (.identifier "a")))) :=
    .binary (by decide) (.object (by simp)) (name "a" (by decide) (by decide))
  have hsigns : Assembled .expression (.node 0 (.unary "-" (.node 0 (.unary "-"
      (.node 0 (.identifier "b")))))) :=
    .unary (by decide) (.unary (by decide) (name "b" (by decide) (by decide)))
  have h : Composed .expression (.node 0 (.binary _ "*" _)) :=
    ⟨.binary (by decide) hdifference hsigns, by simp [AssignsPlaces, Node.children],
      by simp [Node.children]⟩
  exact ⟨_, h, by decide +kernel, by decide +kernel, readsAll_printed h 0⟩

end

end Tree

end DebugGuard
