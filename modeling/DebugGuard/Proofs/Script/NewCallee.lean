import DebugGuard.Proofs.Script.Neighbours

/-!
# The callee of `new`

The printer writes the callee of `new` as it is: calls, accesses and `new` itself bind equally
tightly.  The grammar takes the word `new` with the first arguments behind it.  So a call in the
callee loses its arguments to `new` (`Tree.regrouped` is what the text is read as), and a second
`new` right behind the first one is refused.

Main statement: `Tree.readsAll_construct_iff`.
-/

namespace DebugGuard

open Grammar Piece

namespace Tree

/-- An expression of names, accesses, calls, `new` and parentheses in any nesting. -/
inductive Linked : Tree → Prop
  | identifier {pos x} (hx : IsBindable x) : Linked (.node pos (.identifier x))
  | call {pos c args} (hc : Linked c) (hargs : ∀ a ∈ args, Linked a) :
      Linked (.node pos (.call c args))
  | construct {pos c args} (hc : Linked c) (hargs : ∀ a ∈ args, Linked a) :
      Linked (.node pos (.construct c args))
  | member {pos o x} (ho : Linked o) (hx : IsSpelled x) : Linked (.node pos (.member o x))
  | element {pos o i} (ho : Linked o) (hi : Linked i) : Linked (.node pos (.element o i))
  | parenthesized {pos e} (he : Linked e) : Linked (.node pos (.parenthesized e))

variable {p : Tree → Prop} {t c e : Tree} {top : Node Tree} {args : List Tree} {depth pos : Nat}

/-- Whatever `new` is applied to satisfies `p`. -/
def NewOn (p : Tree → Prop) (t : Tree) : Prop :=
  ∀ d ds, .construct d ds ∈ t.nodes → p d

theorem NewOn.child (h : NewOn p (.node pos top)) (hc : c ∈ top.children) : NewOn p c :=
  fun d ds hmem => h d ds (nodes_subset hc hmem)

theorem newOn_node (htop : ∀ d ds, top = .construct d ds → p d)
    (h : ∀ c ∈ top.children, NewOn p c) : NewOn p (.node pos top) := by
  intro d ds hmem
  rcases mem_nodes_node.1 hmem with heq | ⟨c, hc, hmem⟩
  · exact htop d ds heq.symm
  · exact h c hc d ds hmem

namespace Linked

theorem child (h : Linked (.node pos top)) (hc : c ∈ top.children) : Linked c := by
  cases h <;> simp only [Node.children, List.mem_cons, List.not_mem_nil, or_false] at hc
  case call hc' hargs => exact hc.elim (· ▸ hc') (hargs c)
  case construct hc' hargs => exact hc.elim (· ▸ hc') (hargs c)
  case member ho _ => exact hc ▸ ho
  case element ho hi => exact hc.elim (· ▸ ho) (· ▸ hi)
  case parenthesized he => exact hc ▸ he

theorem strong (h : Linked t) : Strength.call ≤ t.strength := by
  cases h <;> (simp only [strength, Node.strength]; decide)

theorem joins_eq_false (h : Linked t) : t.joins = false := by
  induction h with
  | @member _ o x ho hx ih =>
    have hplain : o.isPlainNumber = false := by cases ho <;> rfl
    simp [joins_node, Node.joins, Node.children, hplain, ih]
  | _ => simp_all [joins_node, Node.joins, Node.children]

theorem shows (h : Linked t) : Shows (Render.expression depth 0 t) t := by
  induction h with
  | identifier hx =>
    rw [render_node, Render.bare]
    exact shows_node (by simp) (by simp) (.name hx.1 .nil trivial)
  | call _ _ ihc ihargs => exact render_node ▸ call_shows ihc ihargs
  | construct _ _ ihc ihargs => exact render_node ▸ construct_shows ihc ihargs
  | @member _ o x ho hx iho =>
    have hend : endsWhole (Render.expression depth Strength.call o) = o.isPlainNumber := by
      cases ho <;> exact endsWhole_operand rfl
    exact render_node ▸ member_shows iho hend hx
  | element _ _ iho ihi => exact render_node ▸ element_shows iho ihi
  | parenthesized _ ihe => exact render_node ▸ parenthesized_shows ihe

/-- Where `new` is applied to paths, the expression fits the grammar. -/
theorem fits (h : Linked t) (hnew : t.NewOn (·.isPath = true)) : Fits .expression t := by
  induction h with
  | identifier hx => exact .identifier hx.1 (.inr hx.2)
  | call hc hargs ihc ihargs =>
    exact .call (ihc (hnew.child (by simp [Node.children]))) hc.strong fun a ha =>
      ihargs a ha (hnew.child (by simp [Node.children, ha]))
  | construct hc hargs ihc ihargs =>
    exact .construct (ihc (hnew.child (by simp [Node.children]))) (hnew _ _ mem_nodes) fun a ha =>
      ihargs a ha (hnew.child (by simp [Node.children, ha]))
  | member ho hx iho => exact .member (iho (hnew.child (by simp [Node.children]))) ho.strong hx
  | element ho hi iho ihi =>
    exact .element (iho (hnew.child (by simp [Node.children]))) ho.strong
      (ihi (hnew.child (by simp [Node.children])))
  | parenthesized he ihe => exact .parenthesized (ihe (hnew.child (by simp [Node.children])))

end Linked

/-! ### Two `new` side by side -/

/-- The text of the expression starts with the word `new`. -/
def startsNew : Tree → Bool
  | .node _ (.construct ..) => true
  | .node _ (.call c _) => startsNew c
  | .node _ (.member o _) => startsNew o
  | .node _ (.element o _) => startsNew o
  | _ => false

theorem render_of_startsNew (h : Linked t) (hnew : t.startsNew = true) (depth : Nat) :
    ∃ rest, Render.expression depth 0 t = name "new" :: rest := by
  induction h with
  | identifier | parenthesized => cases hnew
  | construct => exact ⟨_, by rw [render_node, Render.bare]; rfl⟩
  | call hc _ ih | member hc _ ih | element hc _ ih =>
    obtain ⟨rest, hrest⟩ := ih hnew
    exact ⟨_, by rw [render_node, Render.bare, render_expression hc.strong, hrest]; rfl⟩

/-- The text of `new` with its callee stands in the text of the whole expression. -/
theorem Linked.infix_of_mem (h : Linked t) (depth : Nat) {d : Tree} {ds : List Tree}
    (hd : .construct d ds ∈ t.nodes) :
    Linked d ∧ Render.bare depth (.construct d ds) <:+: Render.expression depth 0 t := by
  obtain ⟨⟨_, hnew⟩, hstands⟩ :=
    infix_of_nested (fun h hc => ⟨h.child hc, infix_child (by cases h <;> rfl) hc⟩) h hd
  exact ⟨hnew.child (by simp [Node.children]), hstands⟩

/-- A text with two `new` side by side is refused. -/
theorem newOn_of_readsAll (h : Linked t)
    (hread : ReadsAll Grammar.expression (text (Render.expression 0 0 t)) e) :
    t.NewOn (·.startsNew = false) := by
  intro d ds hd
  by_contra hnew
  obtain ⟨hlinked, hstands⟩ := h.infix_of_mem 0 hd
  obtain ⟨rest, hrest⟩ := render_of_startsNew hlinked (by simpa using hnew) 0
  -- the callee starts with the word, too
  have hpair : [name "new", space, name "new"] <:+: Render.bare 0 (.construct d ds) := by
    rw [Render.bare, render_expression hlinked.strong, hrest]
    exact ⟨[], _, rfl⟩
  have hp : Printed (Render.expression 0 0 t) t.numerals false := h.joins_eq_false ▸ h.shows
  obtain ⟨u, v, hu, hv, hbreak, hmeets⟩ := hread.meets hp (hpair.trans hstands)
  have isNew {u : Token} (hu : u.word = ⟨.identifier, "new"⟩) : u.isWord "new" = true := by
    rw [Token.word, Word.mk.injEq] at hu
    simp [Token.isWord, hu]
  exact absurd (hmeets.1 (isNew hu) (isNew hv)) (by simp [hbreak])

/-! ### What the text is read as -/

/-- The expression with the word `new` in front, which belongs to the first call. -/
def renewed : Tree → Tree
  | .node pos (.call c args) =>
    if c.isPath then .node pos (.construct c args) else .node pos (.call (renewed c) args)
  | .node pos (.member o x) => .node pos (.member (renewed o) x)
  | .node pos (.element o i) => .node pos (.element (renewed o) i)
  | t => t

/-- The expression as its text is read: each `new` belongs to the first call behind it. -/
def regrouped (t : Tree) : Tree :=
  t.fold id fun pos _ top => match top with
    | .construct c args =>
      if c.isPath then .node pos (.construct c args) else .node pos (.call (renewed c) args)
    | top => .node pos top

theorem regrouped_construct : regrouped (.node pos (.construct c args)) =
    if c.regrouped.isPath then .node pos (.construct c.regrouped (args.map regrouped))
    else .node pos (.call (renewed c.regrouped) (args.map regrouped)) :=
  fold_node ..

theorem regrouped_node (h : ∀ c args, top ≠ .construct c args) :
    regrouped (.node pos top) = .node pos (top.map regrouped) := by
  rw [regrouped, fold_node]
  cases top <;> first | rfl | exact absurd rfl (h _ _)

theorem isPath_regrouped (t : Tree) : t.regrouped.isPath = t.isPath := by
  induction t using Tree.induct with
  | absent => rfl
  | dangling => rfl
  | node pos top ih =>
    cases top with
    | construct c args =>
      rw [regrouped_construct]
      split <;> rfl
    | member o x | element o i =>
      rw [regrouped_node (by simp)]
      exact ih o (by simp [Node.children])
    | _ => rw [regrouped_node (by simp)]; rfl

theorem startsNew_regrouped (h : t.startsNew = false) : t.regrouped.startsNew = false := by
  induction t using Tree.induct with
  | absent => rfl
  | dangling => rfl
  | node pos top ih =>
    cases top with
    | construct => cases h
    | call o | member o | element o =>
      rw [regrouped_node (by simp)]
      exact ih o (by simp [Node.children]) h
    | _ => rw [regrouped_node (by simp)]; rfl

/-- A linked expression of the grammar with the given text. -/
structure PrintsAs (t : Tree) (ps : Nat → List Piece) : Prop where
  linked : Linked t
  fits : Fits .expression t
  render : ∀ depth, Render.expression depth 0 t = ps depth

namespace PrintsAs

variable {ps qs : Nat → List Piece} {o i : Tree} {x : String} {f : Tree → Tree}

theorem member (h : PrintsAs o ps) (hx : IsSpelled x) (pos : Nat) :
    PrintsAs (.node pos (.member o x)) fun depth => ps depth ++ [mark ".", name x] := by
  refine ⟨.member h.linked hx, .member h.fits h.linked.strong hx, fun depth => ?_⟩
  rw [render_node, Render.bare, render_expression h.linked.strong, h.render]

theorem element (h : PrintsAs o ps) (hi : PrintsAs i qs) (pos : Nat) :
    PrintsAs (.node pos (.element o i)) fun depth => ps depth ++ mark "[" :: qs depth ++ [mark "]"] := by
  refine ⟨.element h.linked hi.linked, .element h.fits h.linked.strong hi.fits, fun depth => ?_⟩
  rw [render_node, Render.bare, render_expression h.linked.strong, h.render, hi.render]

theorem expressions (hargs : ∀ a ∈ args, PrintsAs (f a) fun depth => Render.expression depth 0 a)
    (depth : Nat) : Render.expressions depth (args.map f) = Render.expressions depth args := by
  rw [render_expressions, render_expressions, List.map_map]
  exact List.map_congr_left fun a ha => (hargs a ha).render depth

theorem call (h : PrintsAs c ps)
    (hargs : ∀ a ∈ args, PrintsAs (f a) fun depth => Render.expression depth 0 a) (pos : Nat) :
    PrintsAs (.node pos (.call c (args.map f))) fun depth =>
      ps depth ++ mark "(" :: commas (Render.expressions depth args) ++ [mark ")"] := by
  refine ⟨.call h.linked ?_, .call h.fits h.linked.strong ?_, fun depth => ?_⟩
  · simpa using fun a ha => (hargs a ha).linked
  · simpa using fun a ha => (hargs a ha).fits
  · rw [render_node, Render.bare, render_expression h.linked.strong, h.render, expressions hargs]

theorem construct (h : PrintsAs c ps) (hpath : c.isPath = true)
    (hargs : ∀ a ∈ args, PrintsAs (f a) fun depth => Render.expression depth 0 a) (pos : Nat) :
    PrintsAs (.node pos (.construct c (args.map f))) fun depth => name "new" :: space ::
      ps depth ++ mark "(" :: commas (Render.expressions depth args) ++ [mark ")"] := by
  refine ⟨.construct h.linked ?_, .construct h.fits hpath ?_, fun depth => ?_⟩
  · simpa using fun a ha => (hargs a ha).linked
  · simpa using fun a ha => (hargs a ha).fits
  · rw [render_node, Render.bare, render_expression h.linked.strong, h.render, expressions hargs]

end PrintsAs

theorem renewed_printsAs (h : Linked c) (hf : Fits .expression c) (hpath : c.isPath = false)
    (hnew : c.startsNew = false) :
    PrintsAs c.renewed fun depth => name "new" :: space :: Render.expression depth 0 c := by
  have same {args : List Tree} (h : ∀ a ∈ args, Linked a ∧ Fits .expression a) :
      ∀ a ∈ args, PrintsAs (id a) fun depth => Render.expression depth 0 a :=
    fun a ha => ⟨(h a ha).1, (h a ha).2, fun _ => rfl⟩
  induction h with
  | identifier | parenthesized => cases hpath
  | construct => cases hnew
  | @call pos c args hc hargs ih =>
    cases hf with
    | call hcf _ hargsf =>
      have hargs := same fun a ha => ⟨hargs a ha, hargsf a ha⟩
      rw [renewed]
      split
      · next hpath =>
        have hself : PrintsAs c fun depth => Render.expression depth 0 c := ⟨hc, hcf, fun _ => rfl⟩
        have := hself.construct hpath hargs pos
        simpa [render_node, Render.bare, render_expression hc.strong] using this
      · next hpath =>
        have := (ih hcf (by simpa using hpath) hnew).call hargs pos
        simpa [render_node, Render.bare, render_expression hc.strong] using this
  | @member pos o x ho hx ih =>
    cases hf with
    | member hof =>
      have := (ih hof hpath hnew).member hx pos
      simpa [renewed, render_node, Render.bare, render_expression ho.strong] using this
  | @element pos o i ho hi ih =>
    cases hf with
    | element hof _ hif =>
      have hself : PrintsAs i fun depth => Render.expression depth 0 i := ⟨hi, hif, fun _ => rfl⟩
      have := (ih hof hpath hnew).element hself pos
      simpa [renewed, render_node, Render.bare, render_expression ho.strong] using this

theorem regrouped_printsAs (h : Linked t) (hnew : t.NewOn (·.startsNew = false)) :
    PrintsAs t.regrouped fun depth => Render.expression depth 0 t := by
  induction h with
  | identifier hx =>
    rw [regrouped_node (by simp)]
    exact ⟨.identifier hx, .identifier hx.1 (.inr hx.2), fun _ => rfl⟩
  | @call pos c args hc hargs ihc ihargs =>
    have hargs : ∀ a ∈ args, PrintsAs a.regrouped fun depth => Render.expression depth 0 a :=
      fun a ha => ihargs a ha (hnew.child (by simp [Node.children, ha]))
    have := (ihc (hnew.child (by simp [Node.children]))).call hargs pos
    rw [regrouped_node (by simp)]
    simpa [render_node, Render.bare, render_expression hc.strong, Node.map] using this
  | @construct pos c args hc hargs ihc ihargs =>
    have ihc := ihc (hnew.child (by simp [Node.children]))
    have ihargs : ∀ a ∈ args, PrintsAs a.regrouped fun depth => Render.expression depth 0 a :=
      fun a ha => ihargs a ha (hnew.child (by simp [Node.children, ha]))
    rw [regrouped_construct]
    split
    · next hpath =>
      have := ihc.construct hpath ihargs pos
      simpa [render_node, Render.bare, render_expression hc.strong] using this
    · next hpath =>
      -- the arguments behind the callee are those of a call, as `new` has taken others
      have hstarts := startsNew_regrouped (hnew _ _ mem_nodes)
      have := (renewed_printsAs ihc.linked ihc.fits (by simpa using hpath) hstarts).call ihargs pos
      simpa [render_node, Render.bare, render_expression hc.strong, ihc.render] using this
  | @member pos o x ho hx ih =>
    have := (ih (hnew.child (by simp [Node.children]))).member hx pos
    rw [regrouped_node (by simp)]
    simpa [render_node, Render.bare, render_expression ho.strong, Node.map] using this
  | @element pos o i ho hi iho ihi =>
    have := (iho (hnew.child (by simp [Node.children]))).element
      (ihi (hnew.child (by simp [Node.children]))) pos
    rw [regrouped_node (by simp)]
    simpa [render_node, Render.bare, render_expression ho.strong, Node.map] using this
  | @parenthesized pos e he ih =>
    have ih := ih (hnew.child (by simp [Node.children]))
    rw [regrouped_node (by simp)]
    refine ⟨.parenthesized ih.linked, .parenthesized ih.fits, fun depth => ?_⟩
    simp [render_node, Render.bare, Node.map, ih.render]

/-- The text is read as the expression itself only if `new` is applied to paths. -/
theorem newOn_of_unwrapped (h : Linked t) (heq : t.regrouped.unwrapped = t.unwrapped) :
    t.NewOn (·.isPath = true) := by
  have several {args : List Tree} (hall : ∀ a ∈ args, a.regrouped.unwrapped = a.unwrapped →
      a.NewOn (·.isPath = true))
      (heq : (args.map regrouped).map unwrapped = args.map unwrapped) :
      ∀ a ∈ args, a.NewOn (·.isPath = true) := by
    rw [List.map_map, List.map_inj_left] at heq
    exact fun a ha => hall a ha (heq a ha)
  induction h with
  | identifier => exact newOn_node (by simp) (by simp [Node.children])
  | call hc hargs ihc ihargs =>
    rw [regrouped_node (by simp), Node.map, unwrapped_node (by simp), unwrapped_node (by simp)] at heq
    simp only [Node.map, node.injEq, Node.call.injEq, true_and] at heq
    refine newOn_node (by simp) ?_
    simpa [Node.children] using ⟨ihc heq.1, several ihargs heq.2⟩
  | construct hc hargs ihc ihargs =>
    rw [regrouped_construct] at heq
    split at heq
    · next hpath =>
      rw [unwrapped_node (by simp), unwrapped_node (by simp)] at heq
      simp only [Node.map, node.injEq, Node.construct.injEq, true_and] at heq
      refine newOn_node ?_ (by simpa [Node.children] using ⟨ihc heq.1, several ihargs heq.2⟩)
      rintro _ _ ⟨⟩
      rwa [isPath_regrouped] at hpath
    · rw [unwrapped_node (by simp), unwrapped_node (by simp)] at heq
      cases heq
  | member ho hx ih =>
    rw [regrouped_node (by simp), Node.map, unwrapped_node (by simp), unwrapped_node (by simp)] at heq
    simp only [Node.map, node.injEq, Node.member.injEq, true_and, and_true] at heq
    exact newOn_node (by simp) (by simpa [Node.children] using ih heq)
  | element ho hi iho ihi =>
    rw [regrouped_node (by simp), Node.map, unwrapped_node (by simp), unwrapped_node (by simp)] at heq
    simp only [Node.map, node.injEq, Node.element.injEq, true_and] at heq
    exact newOn_node (by simp) (by simpa [Node.children] using ⟨iho heq.1, ihi heq.2⟩)
  | parenthesized he ih =>
    rw [regrouped_node (by simp), Node.map, unwrapped_parenthesized, unwrapped_parenthesized] at heq
    exact newOn_node (by simp) (by simpa [Node.children] using ih heq)

/-- **The callee of `new` stays what it is, if it is a chain of accesses to something primary.**  An
expression with `new` comes back from its text, up to parentheses, if and only if nowhere in it `new`
is applied to something else. -/
theorem readsAll_construct_iff (hc : Linked c) (hargs : ∀ a ∈ args, Linked a) (pos : Nat) :
    (∃ start callee args', ReadsAll Grammar.expression (render (.node pos (.construct c args)))
        (.node start (.construct callee args')) ∧ callee.unwrapped = c.unwrapped ∧
          args'.map unwrapped = args.map unwrapped) ↔
      ∀ d ds, .construct d ds ∈ (Tree.node pos (.construct c args)).nodes → d.isPath = true := by
  have h : Linked (.node pos (.construct c args)) := .construct hc hargs
  rw [render_of_topIs rfl]
  constructor
  · rintro ⟨start, callee, args', hread, hcallee, hargs'⟩
    -- the text is also that of the regrouped tree, which the grammar gives back as it is
    have hprints := regrouped_printsAs h (newOn_of_readsAll h hread)
    obtain ⟨e, he, hbare⟩ := readsAll_of_fits_expression hprints.fits hprints.linked.joins_eq_false
    rw [hprints.render] at he
    obtain rfl := hread.unique he
    refine newOn_of_unwrapped h ?_
    rw [← unwrapped_bare, ← hbare, unwrapped_bare, unwrapped_node (by simp),
      unwrapped_node (by simp), Node.map, Node.map, hcallee, hargs']
  · intro hpath
    obtain ⟨e, he, hbare⟩ := readsAll_of_fits_expression (h.fits hpath) h.joins_eq_false
    obtain ⟨start, callee, args', rfl⟩ :
        ∃ start callee args', e = .node start (.construct callee args') := by
      cases e with
      | absent | dangling => cases hbare
      | node start top =>
        rw [bare_node, bare_node, node.injEq] at hbare
        cases top <;> simp_all [Node.map]
    have heq := congrArg unwrapped hbare
    rw [unwrapped_bare, unwrapped_bare, unwrapped_node (by simp), unwrapped_node (by simp)] at heq
    simp only [Node.map, node.injEq, Node.construct.injEq, true_and] at heq
    exact ⟨start, callee, args', he, heq⟩

/-- Two calls behind `new`: the first one is taken for the call that `new` makes. -/
theorem construct_call_lost : ∃ c, Linked c ∧ render (.node 0 (.construct c [])) = "new f()()" ∧
    ¬∃ start callee args', ReadsAll Grammar.expression (render (.node 0 (.construct c [])))
      (.node start (.construct callee args')) ∧ callee.unwrapped = c.unwrapped ∧
        args'.map unwrapped = List.map unwrapped [] := by
  have hf : Linked (.node 0 (.identifier "f")) :=
    .identifier (isBindable_of_isKnown (by decide) (by decide))
  have hc : Linked (.node 0 (.call _ [])) := .call hf (by simp)
  refine ⟨_, hc, by decide +kernel, fun hback => ?_⟩
  have hpath := (readsAll_construct_iff hc (by simp) 0).1 hback _ _ mem_nodes
  cases hpath

end Tree

end DebugGuard
