import DebugGuard.Proofs.Script.Neighbours

/-!
# The body of an arrow function

Behind the arrow, the grammar takes a brace for the start of a block.  The printer puts parentheses
around a body that is an object, but an object may also stand deeper at the left edge of the body
(`Render.startsLikeStatement` looks for it there, in statements), and then the text starts with its
brace all the same.  Besides, the grammar assigns to names, members and elements only, so an
expression that assigns to something else has no text that is read as it.

Main statement: `Tree.readsAll_arrow_iff`.
-/

namespace DebugGuard

open Grammar Piece

/-- Parentheses around an expression. -/
def Node.isParenthesized {α : Type} : Node α → Bool
  | .parenthesized _ => true
  | _ => false

namespace Tree

variable {phrase : Phrase} {b e t target v : Tree} {top : Node Tree} {params : List String}
  {op source : String} {depth pos start : Nat}

/-! ### Expressions that are put together -/

namespace Assembled

theorem render_property (h : Assembled .property t) :
    Render.propertyOf depth t = Render.expression depth 0 t := by
  cases h with
  | property => rw [render_node, Render.bare, Render.propertyOf]

/-- The first word of such an expression can start an expression. -/
theorem heads (h : Assembled phrase t) (hphrase : phrase = .expression) :
    Heads (Render.expression depth 0 t) := by
  have behind {ps qs rs : List Piece} (h : Heads ps) : Heads (ps ++ qs ++ rs) :=
    (h.append qs).append rs
  induction h with
  | identifier hx =>
    rw [render_node, Render.bare]
    exact ⟨_, _, rfl, by simp [Word.starts, hx.2]⟩
  | @literal _ v =>
    rw [render_node, Render.bare]
    cases v with
    | boolean value => cases value <;> exact ⟨_, _, rfl, by decide⟩
    | null => exact ⟨_, _, rfl, by decide⟩
    | _ => exact ⟨_, _, rfl, rfl⟩
  | unary hop =>
    have hall : ∀ op ∈ Operator.unaryMarks ++ Operator.unaryWords,
        (Word.operator op).starts = true := by decide
    rw [render_node, Render.bare]
    exact ⟨_, _, rfl, hall _ hop⟩
  | call _ _ ih | element _ _ ih | conditional _ _ _ ih =>
    rw [render_node, Render.bare]
    exact behind ((ih rfl).within _)
  | member _ _ _ ih | binary _ _ _ ih | assignment _ _ _ ih =>
    rw [render_node, Render.bare]
    exact ((ih rfl).within _).append _
  | object =>
    rw [render_node, Render.bare]
    split <;> exact ⟨_, _, rfl, by decide⟩
  | array | functionExpression | parenthesized =>
    rw [render_node, Render.bare]
    exact ⟨_, _, rfl, by decide⟩
  | property => cases hphrase

theorem shows (h : Assembled phrase t) : Shows (Render.expression depth 0 t) t := by
  induction h with
  | identifier hx =>
    rw [render_node, Render.bare]
    exact shows_node (by simp) (by simp) (.name hx.1 .nil trivial)
  | literal hv =>
    rw [render_node, Render.bare]
    exact literal_shows (valid_literal hv)
  | unary hop he ih => exact render_node ▸ unary_shows hop (he.heads rfl) ih
  | binary hop _ _ ihl ihr =>
    obtain ⟨_, hp⟩ := Option.isSome_iff_exists.1 hop
    exact render_node ▸ binary_shows (Operator.mem_binary hp) ihl ihr
  | conditional _ _ _ ihc ihy ihn => exact render_node ▸ conditional_shows ihc ihy ihn
  | assignment hop _ _ iht ihv => exact render_node ▸ assignment_shows hop iht ihv
  | call _ _ ihc ihargs => exact render_node ▸ call_shows ihc ihargs
  | @member _ o x ho _ hx iho =>
    have hend : endsWhole (Render.expression depth Strength.call o) = o.isPlainNumber := by
      cases ho <;> exact endsWhole_operand rfl
    exact render_node ▸ member_shows iho hend hx
  | element _ _ iho ihi => exact render_node ▸ element_shows iho ihi
  | array _ ih => exact render_node ▸ array_shows ih
  | object hps ih =>
    exact render_node ▸ object_shows fun p hp => (hps p hp).render_property ▸ ih p hp
  | functionExpression hn hp =>
    refine render_node ▸ functionExpression_shows hn hp ?_
    rw [render_block rfl]
    exact (prints _).statement (.block (by simp)) depth
  | parenthesized _ ih => exact render_node ▸ parenthesized_shows ih
  | property hk hv ih =>
    rw [← (Assembled.property hk hv).render_property]
    exact keyed_shows (fun hq => valid_key (hk hq)) ih

end Assembled

/-- What such expressions are put together from: phrases of their kind, and the empty blocks of
functions. -/
def Ingredient (t : Tree) : Prop :=
  (∃ phrase, Assembled phrase t) ∨ ∃ pos, t = .node pos (.block [])

/-- The parts of an ingredient are ingredients, and their texts stand in its text. -/
theorem Ingredient.child {c : Tree} (h : Ingredient (.node pos top)) (hc : c ∈ top.children) :
    Ingredient c ∧ Render.expression depth 0 c <:+: Render.bare depth top := by
  obtain ⟨_, h⟩ | ⟨_, h⟩ := h
  swap
  · cases h
    cases hc
  cases h with
  | identifier | literal => cases hc
  | unary _ he | parenthesized he | member he =>
    refine ⟨.inl ⟨.expression, ?_⟩, infix_child rfl hc⟩
    exact List.mem_singleton.1 hc ▸ he
  | binary _ hl hr | element hl hr | assignment _ hl hr =>
    refine ⟨.inl ⟨.expression, ?_⟩, infix_child rfl hc⟩
    rcases List.mem_pair.1 hc with rfl | rfl
    · exact hl
    · exact hr
  | conditional hc' hy hn =>
    refine ⟨.inl ⟨.expression, ?_⟩, infix_child rfl hc⟩
    simp only [Node.children, List.mem_cons, List.not_mem_nil, or_false] at hc
    rcases hc with rfl | rfl | rfl
    · exact hc'
    · exact hy
    · exact hn
  | call hc' hargs =>
    refine ⟨.inl ⟨.expression, ?_⟩, infix_child rfl hc⟩
    rcases List.mem_cons.1 hc with rfl | hc
    · exact hc'
    · exact hargs c hc
  | array hes => exact ⟨.inl ⟨_, hes c hc⟩, infix_child rfl hc⟩
  | @object _ ps hps =>
    have hc : c ∈ ps := hc
    have hp := hps c hc
    refine ⟨.inl ⟨_, hp⟩, ?_⟩
    rw [← hp.render_property, Render.bare, if_neg (by simpa using List.ne_nil_of_mem hc),
      render_properties]
    exact (infix_commas (List.mem_map_of_mem hc)).trans
      ⟨[mark "\x7b", space], [space, mark "\x7d"], by simp⟩
  | functionExpression =>
    obtain rfl := List.mem_singleton.1 hc
    refine ⟨.inr ⟨_, rfl⟩, ?_⟩
    rw [render_node, Render.bare]
    exact List.nil_infix
  | property _ hv =>
    obtain rfl := List.mem_singleton.1 hc
    refine ⟨.inl ⟨_, hv⟩, ?_⟩
    rw [Render.bare, Render.property, if_neg (by simp)]
    exact (infix_within _).trans ⟨[_, mark ":", space], [], by rw [List.append_nil]; rfl⟩

/-! ### What is assigned to -/

/-- The nodes of a tree without its parentheses are those that are no parentheses. -/
theorem nodes_unwrapped (t : Tree) : t.unwrapped.nodes =
    (t.nodes.filter fun n => !n.isParenthesized).map fun n => n.map unwrapped := by
  induction t using Tree.induct with
  | absent => rfl
  | dangling => rfl
  | node pos top ih =>
    rw [nodes_node]
    by_cases hp : ∃ e, top = .parenthesized e
    · obtain ⟨e, rfl⟩ := hp
      rw [unwrapped_parenthesized, ih e (by simp [Node.children])]
      simp [Node.isParenthesized, Node.children]
    · have hp : ∀ e, top ≠ .parenthesized e := fun e he => hp ⟨e, he⟩
      have hkeep : (!top.isParenthesized) = true := by
        cases top <;> first | rfl | exact absurd rfl (hp _)
      rw [unwrapped_node hp, nodes_node, Node.children_map, List.flatMap_map,
        List.filter_cons, if_pos hkeep, List.map_cons, List.filter_flatMap, List.map_flatMap,
        List.flatMap_congr ih]

theorem Fits.assignsPlaces (h : Fits phrase t) : t.AssignsPlaces := by
  intro target op v hn
  obtain ⟨_, hpart, -⟩ := (Part.phrase h).exists_of_mem hn
  obtain ⟨_, hf⟩ := hpart.fits rfl rfl nofun
  cases hf with
  | assignment _ _ ha => exact ha

/-- Up to parentheses, what is assigned to shows on top. -/
theorem isAssignable_of_unwrapped (ht : t.topIs Node.isAssignable = true)
    (heq : t.unwrapped = target.unwrapped) (hp : target.topIs Node.isParenthesized = false) :
    target.topIs Node.isAssignable = true := by
  match t, ht with
  | .node _ top, ht =>
    have ht : top.isAssignable = true := ht
    rw [unwrapped_node (by rintro e rfl; cases ht)] at heq
    match target, heq, hp with
    | .node _ top', heq, hp =>
      rw [unwrapped_node (by rintro e rfl; cases hp), node.injEq] at heq
      show top'.isAssignable = true
      rw [← Node.isAssignable_map unwrapped, ← heq.2, Node.isAssignable_map, ht]

/-- The text of an assignment stands in the text of the whole expression. -/
theorem Assembled.infix_of_mem (h : Assembled phrase t) (depth : Nat)
    (hn : .assignment target op v ∈ t.nodes) : op ∈ Operator.assigning ∧
      Render.bare depth (.assignment target op v) <:+: Render.expression depth 0 t := by
  obtain ⟨⟨_, hpart⟩, hstands⟩ := infix_of_nested Ingredient.child (.inl ⟨_, h⟩) hn
  refine ⟨?_, hstands⟩
  rcases hpart with ⟨_, hpart⟩ | ⟨_, heq⟩
  · cases hpart with
    | assignment hop => exact hop
  · cases heq

section

variable {ps : List Piece} {ns : List String}

/-- Nothing in parentheses is assigned to, or the text would not be read at all. -/
theorem Assembled.not_isParenthesized (h : Assembled phrase t)
    (hprinted : Printed ps ns false) (hstands : Render.expression 0 0 t <:+: ps)
    (hread : ReadsAll Grammar.expression (text ps) e) (hn : .assignment target op v ∈ t.nodes) :
    target.topIs Node.isParenthesized = false := by
  obtain ⟨hop, hwithin⟩ := h.infix_of_mem 0 hn
  by_contra hp
  have hpair : [mark ")", space, .word (.operator op)] <:+:
      Render.bare 0 (.assignment target op v) := by
    match target, hp with
    | .node pos' (.parenthesized inner), _ =>
      rw [Render.bare, render_expression (by simp only [strength, Node.strength]; decide),
        render_node, Render.bare]
      exact ⟨mark "(" :: Render.expression 0 0 inner,
        space :: Render.expression 0 Strength.assignment v, by simp⟩
  obtain ⟨u, w, hu, hw, -, -, hassign⟩ :=
    hread.meets hprinted (hpair.trans (hwithin.trans hstands))
  have hmark : ∀ op ∈ Operator.assigning, Word.operator op = ⟨.mark, op⟩ := by decide
  rw [hmark op hop, Token.word, Word.mk.injEq] at hw
  rw [Token.word, Word.mk.injEq] at hu
  have := hassign (by simp [isAssigning, hw, hop])
  simp [Token.endsPlace, Token.isMark, hu] at this

/-- What is read as the expression, up to parentheses, assigns to places only.  A target without
parentheses of its own shows in what is read; one with parentheses need not, so the text decides. -/
theorem assignsPlaces_of_readsAll (h : Assembled phrase t)
    (hprinted : Printed ps ns false) (hstands : Render.expression 0 0 t <:+: ps)
    (hread : ReadsAll Grammar.expression (text ps) e)
    (hpart : t.unwrapped.nodes ⊆ e.unwrapped.nodes) : t.AssignsPlaces := by
  intro target op v hn
  have hp := h.not_isParenthesized hprinted hstands hread hn
  have hmem : .assignment target.unwrapped op v.unwrapped ∈ e.unwrapped.nodes := by
    refine hpart ?_
    rw [nodes_unwrapped]
    exact List.mem_map.2 ⟨_, List.mem_filter.2 ⟨hn, rfl⟩, rfl⟩
  rw [nodes_unwrapped] at hmem
  obtain ⟨n, hn', heq⟩ := List.mem_map.1 hmem
  cases n <;> simp only [Node.map, reduceCtorEq, Node.assignment.injEq] at heq
  exact isAssignable_of_unwrapped (hread.fits.assignsPlaces _ _ _ (List.mem_filter.1 hn').1) heq.1 hp

end

/-! ### Bodies -/

/-- An expression with the parentheses that are printed around it as the body of an arrow
function. -/
def bodyPadded (t : Tree) : Tree :=
  t.shielded (t.topIs Node.isObject)

theorem arrowBody_of_object (h : b.topIs Node.isObject = true) :
    Render.arrowBody depth b = mark "(" :: Render.expression depth 0 b ++ [mark ")"] := by
  match b, h with
  | .node pos (.object ps), _ =>
    simp [Render.arrowBody, render_node, Node.isBlock, Node.isObject, Render.inParens]

theorem Assembled.isBlock_eq_false (h : Assembled phrase t) : t.topIs Node.isBlock = false := by
  cases h <;> rfl

theorem arrowBody_bodyPadded (h : Assembled .expression b) :
    Render.arrowBody depth b = Render.expression depth 0 b.bodyPadded := by
  have hpads := (padsAlike b).expression h depth 0
  rw [bodyPadded, shielded]
  split
  · next ho => rw [arrowBody_of_object ho, render_node, Render.bare, hpads]
  · next ho => rw [arrowBody_of_bare h.isBlock_eq_false (by simpa using ho), hpads]

theorem infix_arrowBody (h : Assembled .expression b) :
    Render.expression depth 0 b <:+: Render.arrowBody depth b := by
  cases ho : b.topIs Node.isObject
  · rw [arrowBody_of_bare h.isBlock_eq_false ho]
  · rw [arrowBody_of_object ho]
    exact ⟨[mark "("], [mark ")"], rfl⟩

theorem arrowBody_shows (h : Assembled .expression b) : Shows (Render.arrowBody depth b) b := by
  cases ho : b.topIs Node.isObject
  · rw [arrowBody_of_bare h.isBlock_eq_false ho]
    exact h.shows
  · rw [arrowBody_of_object ho]
    exact .solid (by decide) (h.shows.close (by decide) (by decide))

/-- The text of an expression starts with the word that the expression opens with. -/
theorem head_of_opens {w : Word} (hf : Fits .expression t) (ho : t.Opens w) (depth : Nat) :
    (Render.expression depth 0 t).head? = some (.word w) := by
  obtain ⟨u, rest, hu⟩ := render_eq_word depth hf
  have hs := spells_tokens (Render.expression depth 0 t) 0 false []
  obtain ⟨hopening, -⟩ := spells_opening hf hs
  obtain ⟨ws, hws⟩ := List.head?_eq_some_iff.1 ho
  rw [hws] at hopening
  rw [hu] at hs hopening
  obtain ⟨x, s, hx, rfl, -⟩ := hs
  rw [hx, List.map_cons, List.cons_prefix_cons] at hopening
  rw [hu, hopening.1]
  rfl

theorem not_opens_bodyPadded (h : Assembled .expression b) (hplaces : b.AssignsPlaces)
    (hhead : b.topIs Node.isObject = true ∨
      (Render.expression 0 0 b).head? ≠ some (mark "\x7b")) :
    ¬b.bodyPadded.Opens ⟨.mark, "\x7b"⟩ := by
  intro ho
  rw [bodyPadded, shielded] at ho
  split at ho
  · exact absurd (Option.some.inj ho) (by decide)
  · next hobject =>
    have := head_of_opens ((fitsPadded hplaces).expression h) ho 0
    rw [(padsAlike b).expression h] at this
    exact (hhead.resolve_left hobject) this

/-- Where the text of a body starts with a brace, the arrow function is read with a block. -/
theorem isBlock_of_readsAll {rest : List Piece} {ns : List String} {body : Tree}
    (hparams : ∀ x ∈ params, IsBindable x)
    (hprinted : Printed (Render.bare 0 (.arrow params b)) ns false)
    (hbrace : Render.arrowBody 0 b = mark "\x7b" :: rest) {params' : List String}
    (hread : ReadsAll Grammar.expression (text (Render.bare 0 (.arrow params b)))
      (.node start (.arrow params' body))) : body.topIs Node.isBlock = true := by
  obtain ⟨ts, eof, hscan, -, he⟩ := hread
  obtain ⟨eof', hscan', -⟩ := scan_printed hprinted
  obtain rfl := Except.ok.inj (hscan.symm.trans hscan')
  have hs := spells_tokens (Render.bare 0 (.arrow params b)) 0 false [eof']
  generalize tokens 0 false (Render.bare 0 (.arrow params b)) ++ [eof'] = ts at he hs
  rw [Render.bare, hbrace] at hs
  obtain ⟨s, hps, hrest⟩ := spells_append.1 hs
  obtain ⟨w, s', hw, hbody⟩ := spells_mark (spells_space.1 hrest)
  obtain ⟨u, _, hu, -⟩ := spells_mark (spells_space.1 hbody)
  obtain ⟨harrow, hps⟩ := arrowParameters_of_spells hparams hps (by rw [hw.1]; exact hw.2)
  -- the parameters and the arrow can only be read as they are printed
  rcases takes_expression.1 he with ⟨-, he⟩ | ⟨hno, -⟩
  swap
  · rw [harrow] at hno
    cases hno
  obtain ⟨_, s₂, hps₂, w₂, s₃, hw₂, body', r, hblock, heq, -⟩ := takes_arrow.1 he
  cases heq
  obtain rfl := (hps.unique hps₂).2
  obtain ⟨rfl, rfl⟩ := List.cons.inj (hw.1.symm.trans hw₂.1)
  rw [if_pos (by rw [hu.1]; exact hu.2)] at hblock
  obtain ⟨_, _, _, _, _, _, rfl, -⟩ := takes_block.1 hblock
  rfl

/-- **The body of an arrow function stays an expression, unless a brace leads it.**  An arrow
function comes back from its text with an expression for its body, up to parentheses, if and only if
its body is an object or has no brace in front, and assigns to names, members and elements only. -/
theorem readsAll_arrow_iff (hparams : ∀ x ∈ params, IsBindable x) (h : Assembled .expression b)
    (pos : Nat) :
    (∃ start body, ReadsAll Grammar.expression (render (.node pos (.arrow params b)))
        (.node start (.arrow params body)) ∧ body.topIs Node.isBlock = false ∧
          body.unwrapped = b.unwrapped) ↔
      (b.topIs Node.isObject = true ∨ (Render.expression 0 0 b).head? ≠ some (mark "\x7b")) ∧
        ∀ target op v, .assignment target op v ∈ b.nodes → target.topIs Node.isAssignable = true := by
  have hjoins {body : Tree} (hj : body.joins = false) :
      (Tree.node pos (.arrow params body)).joins = false := by
    simp [joins_node, Node.joins, Node.children, hj]
  rw [render_of_topIs rfl, render_node]
  constructor
  · rintro ⟨start, body, hread, hblock, hbody⟩
    have hshows : Shows (Render.bare 0 (.arrow params b)) (.node pos (.arrow params b)) :=
      arrow_shows hparams (arrowBody_shows h)
    rw [Shows, hjoins (joins_of_assembled h)] at hshows
    -- the text has been read, so it has no brace in front of the body and assigns to places
    refine ⟨?_, assignsPlaces_of_readsAll h hshows ?_ hread ?_⟩
    · by_contra! hbrace
      obtain ⟨rest, hrest⟩ := List.head?_eq_some_iff.1 hbrace.2
      have hrest : Render.arrowBody 0 b = mark "\x7b" :: rest := by
        rw [arrowBody_of_bare h.isBlock_eq_false (by simpa using hbrace.1), hrest]
      rw [isBlock_of_readsAll hparams hshows hrest hread] at hblock
      cases hblock
    · exact (infix_arrowBody h).trans
        ⟨Render.arrowParameters params ++ [space, mark "=>", space], [], by simp [Render.bare]⟩
    · rw [← hbody, unwrapped_node (by simp)]
      exact nodes_subset (by simp [Node.map, Node.children])
  · rintro ⟨hhead, hplaces⟩
    -- with the printed parentheses put in, the arrow function fits the grammar
    have hf : Fits .expression b.bodyPadded := fits_shielded ((fitsPadded hplaces).expression h)
    have ho := not_opens_bodyPadded h hplaces hhead
    have hrender : Render.bare 0 (.arrow params b) =
        Render.expression 0 0 (.node pos (.arrow params b.bodyPadded)) := by
      rw [render_node, Render.bare, Render.bare, arrowBody_bodyPadded h,
        arrowBody_of_expression hf ho]
    obtain ⟨e, he, hbare⟩ := readsAll_of_fits_expression (t := .node pos (.arrow params b.bodyPadded))
      (.arrow hparams hf ho) (hjoins (joins_shielded h))
    obtain ⟨start, body, rfl, hbody⟩ : ∃ start body, e = .node start (.arrow params body) ∧
        body.bare = b.bodyPadded.bare := by
      cases e with
      | absent | dangling => cases hbare
      | node start top =>
        rw [bare_node, bare_node, node.injEq] at hbare
        cases top <;> simp_all [Node.map]
    refine ⟨start, body, hrender ▸ he, ?_, ?_⟩
    · rw [topIs_of_bare (p := Node.isBlock) (fun f n => by cases n <;> rfl) hbody,
        hf.isBlock_eq_false]
    · rw [← unwrapped_bare, hbody, unwrapped_bare, bodyPadded, unwrapped_shielded]

/-- A member of an object for a body: the braces of the object are read as a block. -/
theorem member_of_object_lost : ∃ b, Assembled .expression b ∧
    render (.node 0 (.arrow ["x"] b)) = "x => \x7b\x7d.a" ∧
    ¬∃ start body, ReadsAll Grammar.expression (render (.node 0 (.arrow ["x"] b)))
      (.node start (.arrow ["x"] body)) ∧ body.topIs Node.isBlock = false ∧
        body.unwrapped = b.unwrapped := by
  have hx : ∀ x ∈ ["x"], IsBindable x := by
    intro x hmem
    obtain rfl := List.mem_singleton.1 hmem
    exact isBindable_of_isKnown (by decide) (by decide)
  have hobject : Assembled .expression (.node 0 (.object [])) := .object (by simp)
  have hb : Assembled .expression (.node 0 (.member (.node 0 (.object [])) "a")) :=
    .member hobject rfl (Word.valid_of_isKnown (by decide))
  refine ⟨_, hb, by decide +kernel, fun hback => ?_⟩
  rcases ((readsAll_arrow_iff hx hb 0).1 hback).1 with hobject | hhead
  · cases hobject
  · exact hhead (by decide +kernel)

end Tree

end DebugGuard
