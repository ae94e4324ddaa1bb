import DebugGuard.Proofs.Script.ExpressionReadback

/-!
# Printed statements are read back

Main statements:

* `readBack`: a tree that fits is read back from its printed words, as the phrase that it is;
* `script_of_spells`: so are the statements of a script, one after the other.

What makes a printed statement the one that is read is its first word (`takes_statement_of_word`)
or, for an expression, its left edge.
-/

namespace DebugGuard

open Cursor Grammar Piece

variable {b : Bool} {depth : Nat} {ts s r : List Token} {t : Tree}

namespace Tree

/-! ### In front of a statement -/

/-- A printed expression begins with a word. -/
theorem render_eq_word (depth : Nat) (hf : Fits .expression t) :
    ∃ w rest, Render.expression depth 0 t = .word w :: rest := by
  induction t using Tree.induct with
  | absent => cases hf
  | dangling => cases hf
  | node pos top ih =>
    rcases leads_of_fits hf with hedge | ⟨first, hmem, v, hl⟩
    swap
    · obtain ⟨w, rest, hw⟩ := ih first hmem hl.fits
      obtain ⟨gap, more, -, hrender⟩ := hl.render depth
      exact ⟨w, rest ++ (gap ++ .word v :: more), by rw [hrender, hw]; simp⟩
    rw [render_node]
    cases hf with
    | call | member | element | binary | assignment | conditional => cases hedge
    | @literal _ v =>
      rw [Render.bare]
      cases v with
      | boolean value => cases value <;> exact ⟨_, _, rfl⟩
      | _ => exact ⟨_, _, rfl⟩
    | @object _ ps =>
      rw [Render.bare]
      split <;> exact ⟨_, _, rfl⟩
    | @arrow _ params | @arrowBlock _ params =>
      rw [Render.bare]
      rcases params with _ | ⟨_, _ | ⟨_, _⟩⟩ <;> exact ⟨_, _, rfl⟩
    | _ => rw [Render.bare]; exact ⟨_, _, rfl⟩

/-- A printed expression does not break the line in front of it. -/
theorem afterBreak_of_spells (hf : Fits .expression t)
    (hs : Spells b (Render.expression depth 0 t) ts r) : (current ts).afterBreak = b := by
  obtain ⟨w, rest, hw⟩ := render_eq_word depth hf
  rw [hw] at hs
  obtain ⟨u, s, rfl, -, hb, -⟩ := hs
  exact hb

/-- The token in front of a printed expression is no other word than the one it opens with. -/
theorem word_ne_of_not_opens {w : Word} (hf : Fits .expression t) (ho : ¬t.Opens w)
    (hs : Spells b (Render.expression depth 0 t) ts r) : (current ts).word ≠ w := by
  obtain ⟨u, us, ws, rfl, hw, -⟩ := exists_opening hf hs
  rintro rfl
  exact ho (by rw [Opens, hw.eq]; rfl)

theorem starts_current (hf : Fits .expression t)
    (hs : Spells b (Render.expression depth 0 t) ts r) :
    (current ts).word.starts = true := by
  obtain ⟨u, us, rfl, hu⟩ := spells_starts hf hs
  exact hu

/-- The text of an expression starts with a brace or the word `function` only if the expression
does. -/
theorem startsLikeStatement_eq_false (hf : Fits .expression t) (hb : ¬t.Opens ⟨.mark, "\x7b"⟩)
    (hw : ¬t.Opens ⟨.identifier, "function"⟩) : Render.startsLikeStatement t = false := by
  induction t using Tree.induct with
  | absent => cases hf
  | dangling => cases hf
  | node pos top ih =>
    have first (o : Tree) (v : Word) (ho : Fits .expression o) (hmem : o ∈ top.children)
        (heq : opening (.node pos top) = follow o o.opening v) :
        Render.startsLikeStatement o = false := by
      have hhead (w : Word) : o.Opens w → Opens (.node pos top) w := by
        obtain ⟨u, us, hu⟩ := opening_spec ho
        intro h
        rw [Opens, heq, follow]
        rw [Opens, hu.eq] at h
        split <;> simpa [hu.eq] using h
      exact ih o hmem ho (fun h => hb (hhead _ h)) fun h => hw (hhead _ h)
    cases hf with
    | @call _ c _ hc | @conditional _ c _ _ hc =>
      rw [Render.startsLikeStatement]
      exact first c _ hc (by simp [Node.children]) rfl
    | @member _ o _ ho | @element _ o _ ho =>
      rw [Render.startsLikeStatement]
      exact first o _ ho (by simp [Node.children]) rfl
    | @binary _ l _ _ _ _ hl =>
      rw [Render.startsLikeStatement]
      exact first l _ hl (by simp [Node.children]) rfl
    | @assignment _ t _ _ _ ht =>
      rw [Render.startsLikeStatement]
      exact first t _ ht (by simp [Node.children]) rfl
    | object => exact absurd rfl hb
    | @functionExpression _ name => cases name <;> exact absurd rfl hw
    | _ => rfl

/-- A printed semicolon ends a statement. -/
theorem semicolon_of_spells (h : Spells b [Piece.mark ";"] ts r) :
    Ends ts ∧ Takes (semicolon ts) () r := by
  obtain ⟨t, s, ht, rfl⟩ := spells_mark h
  exact ⟨ends_of_mark ht (by decide), takes_semicolon.2 (.inl ⟨t, ht⟩)⟩

/-! ### Imports -/

theorem importClauses_names {names : List Tree} (h : ∀ t ∈ names, IsImportName t) :
    Render.importClauses names = if names.isEmpty then []
      else [Piece.mark "\x7b" :: space :: commas (names.map fun t => (Render.nameClause t).getD []) ++
        [space, Piece.mark "\x7d"]] := by
  have halone : names.filterMap Render.aloneClause = [] := by
    refine List.filterMap_eq_nil_iff.2 fun t ht => ?_
    obtain ⟨_, _, _, rfl, -⟩ := h t ht
    rfl
  have hnamed : names.filterMap Render.nameClause =
      names.map fun t => (Render.nameClause t).getD [] := by
    refine List.filterMap_eq_map_iff_forall_eq_some.2 fun t ht => ?_
    obtain ⟨_, _, _, rfl, -⟩ := h t ht
    rfl
  simp [Render.importClauses, halone, hnamed]

theorem importClauses_default {pos : Nat} {x : String} {rest : List Tree} :
    Render.importClauses (.node pos (.importDefault x) :: rest) =
      [Piece.name x] :: Render.importClauses rest := by
  have halone : Render.aloneClause (.node pos (.importDefault x)) = some [Piece.name x] := rfl
  have hnamed : Render.nameClause (.node pos (.importDefault x)) = none := rfl
  simp only [Render.importClauses, List.filterMap_cons, halone, hnamed]
  split <;> rfl

theorem takes_importName_of_spells (h : IsImportName t) (hs : Spells b ((Render.nameClause t).getD []) ts r)
    (hr : ∃ u s, Front (·.isMark ",") r u s ∨ Front (·.isMark "\x7d") r u s) :
    ∃ e, Takes (importName ts) e r ∧ e.bare = t.bare ∧ take? (·.isMark "\x7d") ts = none := by
  obtain ⟨pos, imported, bound, rfl, hi, hb⟩ := h
  rw [Render.nameClause, top?, Option.getD_some] at hs
  have hclose {n : Token} {s : List Token} (hn : Front (·.kind = .identifier) ts n s) :
      take? (·.isMark "\x7d") ts = none := by
    rw [hn.1]
    have := of_decide_eq_true hn.2
    exact take?_cons_of_neg (by simp [Token.isMark, this])
  by_cases heq : imported = bound
  · subst heq
    rw [if_pos (by simp)] at hs
    obtain ⟨n, s, hn, rfl, rfl⟩ := spells_anyName hs
    have has : take? (·.isWord "as") s = none := by
      obtain ⟨u, s', hu | hu⟩ := hr
      all_goals
        rw [hu.1]
        exact take?_cons_of_neg (by simp [Token.isWord, (Token.kind_of_isMark hu.2).1])
    exact ⟨_, takes_importName.2 ⟨n, s, hn, .inl ⟨has, rfl, rfl⟩⟩, by simp [Node.map], hclose hn⟩
  · rw [if_neg (by simpa using heq)] at hs
    obtain ⟨n, s, hn, rfl, hrest⟩ := spells_anyName hs
    obtain ⟨w, s', hw, hrest⟩ := spells_name (spells_space.1 hrest)
    obtain ⟨x, s'', hx, rfl, rfl⟩ := spells_bindable (hb.resolve_left (Ne.symm heq))
      (spells_space.1 hrest)
    exact ⟨_, takes_importName.2 ⟨n, s, hn, .inr ⟨w, s', hw, x, _, hx, rfl, rfl⟩⟩,
      by simp [Node.map], hclose hn⟩

theorem importNames_of_spells {names : List Tree} {clause : List Piece}
    (hn : (∃ t, names = [t] ∧ IsImportAll t) ∨ ∀ t ∈ names, IsImportName t)
    (hc : Render.importClauses names = [clause]) (hs : Spells b clause ts r) :
    (current ts).kind = .mark ∧ ∃ es, Takes (importNames ts) es r ∧ es.map bare = names.map bare := by
  have hkind {m : String} {u : Token} {s : List Token} (hu : Front (·.isMark m) ts u s) :
      (current ts).kind = .mark := by
    rw [hu.1]
    exact (Token.kind_of_isMark hu.2).1
  rcases hn with ⟨t, rfl, pos, x, rfl, hx⟩ | hn
  · obtain rfl : [Piece.mark "*", space, Piece.name "as", space, Piece.name x] = clause := by
      simpa [Render.importClauses, Render.aloneClause, Render.nameClause, top?] using hc
    obtain ⟨u, s, hu, hrest⟩ := spells_mark hs
    obtain ⟨w, s', hw, hrest⟩ := spells_name (spells_space.1 hrest)
    obtain ⟨n, s'', hn, rfl, rfl⟩ := spells_bindable hx (spells_space.1 hrest)
    exact ⟨hkind hu, _, takes_importNames.2 (.inl ⟨u, s, hu, w, s', hw, n, _, hn, rfl, rfl⟩),
      by simp [Node.map]⟩
  · rw [importClauses_names hn] at hc
    split at hc
    · cases hc
    cases hc
    obtain ⟨u, s, hu, hrest⟩ := spells_mark hs
    obtain ⟨s', hinner, hclose⟩ := spells_append.1 (spells_space.1 hrest)
    obtain ⟨c, s'', hc, rfl⟩ := spells_mark (spells_space.1 hclose)
    obtain ⟨es, hitems, hmap⟩ := items_of_commas
      (fun t ht _ _ _ hs hr => takes_importName_of_spells (hn t ht) hs hr) (by decide) hinner hc
    refine ⟨hkind hu, es, takes_importNames.2 (.inr ⟨?_, u, s, hu, es, _, hitems, rfl, rfl⟩), hmap⟩
    rw [hu.1]
    exact take?_cons_of_neg (Token.isMark_of_ne (by decide) hu.2)

theorem importSource_of_spells {source : String} (start : Nat) (es : List Tree)
    (hs : Spells b [space, Piece.name "from", space, Piece.string source, Piece.mark ";"] ts r) :
    take? (·.isMark ",") ts = none ∧
      Takes (importSource start es ts) (.node start (.importFrom es source)) r := by
  obtain ⟨w, s, hw, hrest⟩ := spells_name (spells_space.1 hs)
  obtain ⟨t, s', ht, rfl, hend⟩ := spells_string (spells_space.1 hrest)
  obtain ⟨-, hsemi⟩ := semicolon_of_spells hend
  refine ⟨?_, takes_importSource.2 ⟨w, s, hw, t, s', ht, r, hsemi, rfl, rfl⟩⟩
  rw [hw.1]
  exact take?_cons_of_neg (Token.isMark_of_isWord hw.2 ",")

theorem exists_clause {names : List Tree} (hne : names ≠ [])
    (hn : (∃ t, names = [t] ∧ IsImportAll t) ∨ ∀ t ∈ names, IsImportName t) :
    ∃ clause, Render.importClauses names = [clause] := by
  rcases hn with ⟨t, rfl, pos, x, rfl, -⟩ | hn
  · exact ⟨_, rfl⟩
  · rw [importClauses_names hn, if_neg (by simpa using hne)]
    exact ⟨_, rfl⟩

theorem importStatement_of_spells {pos : Nat} {first rest : List Tree} {source : String}
    (hfirst : first = [] ∨ ∃ s, first = [s] ∧ IsImportDefault s)
    (hrest : (∃ s, rest = [s] ∧ IsImportAll s) ∨ ∀ s ∈ rest, IsImportName s)
    (hs : Spells b (Render.importStatement (first ++ rest) source) ts r) :
    ∃ e, Takes (importStatement ts) e r ∧
      e.bare = bare (.node pos (.importFrom (first ++ rest) source)) := by
  rw [Render.importStatement] at hs
  split at hs
  · next hempty =>
    obtain ⟨rfl, rfl⟩ : first = [] ∧ rest = [] := by simpa using hempty
    obtain ⟨w, s, hw, hrest⟩ := spells_name hs
    obtain ⟨t, s', ht, rfl, hend⟩ := spells_string (spells_space.1 hrest)
    obtain ⟨-, hsemi⟩ := semicolon_of_spells hend
    have hkind : (current s).kind = .string := by
      rw [ht.1]
      exact of_decide_eq_true ht.2
    exact ⟨_, takes_importStatement.2 ⟨w, s, hw, .inl ⟨hkind, t, s', ht,
      r, hsemi, rfl, rfl⟩⟩, by simp [Node.map]⟩
  next hne =>
  simp only [List.cons_append] at hs
  obtain ⟨w, s, hw, hs⟩ := spells_name hs
  obtain ⟨s', hclauses, hsource⟩ := spells_append.1 (spells_space.1 hs)
  rcases hfirst with rfl | ⟨_, rfl, pos', x, rfl, hx⟩
  · obtain ⟨clause, hc⟩ := exists_clause (by simpa using hne) hrest
    rw [List.nil_append, hc] at hclauses
    obtain ⟨hkind, es, hes, hmap⟩ := importNames_of_spells hrest hc hclauses
    obtain ⟨-, hsource⟩ := importSource_of_spells (Cursor.start ts) es hsource
    exact ⟨_, takes_importStatement.2 ⟨w, s, hw, .inr (.inr ⟨by simp [hkind],
      es, s', hes, _, r, hsource, rfl, rfl⟩)⟩, by simp [Node.map, hmap]⟩
  rw [List.singleton_append, importClauses_default] at hclauses
  have hname {s₁ : List Token} {n : Token} (hn : Front Token.isName s n s₁) :
      (current s).kind = .identifier := by
    rw [hn.1]
    exact (Token.kind_of_isName hn.2).1
  rcases eq_or_ne rest [] with rfl | hne
  · obtain ⟨n, s₁, hn, rfl, rfl⟩ := spells_bindable hx hclauses
    obtain ⟨hcomma, hsource⟩ := importSource_of_spells (Cursor.start ts)
      [.node (Cursor.start s) (.importDefault n.text)] hsource
    exact ⟨_, takes_importStatement.2 ⟨w, s, hw, .inr (.inl ⟨hname hn, n, s₁, hn,
      .inl ⟨hcomma, _, r, hsource, rfl, rfl⟩⟩)⟩, by simp [Node.map]⟩
  · obtain ⟨clause, hc⟩ := exists_clause hne hrest
    rw [hc] at hclauses
    obtain ⟨n, s₁, hn, rfl, hrest'⟩ := spells_bindable hx hclauses
    obtain ⟨c, s₂, hcomma, hclause⟩ := spells_mark hrest'
    obtain ⟨-, es, hes, hmap⟩ := importNames_of_spells hrest hc (spells_space.1 hclause)
    obtain ⟨-, hsource⟩ := importSource_of_spells (Cursor.start ts)
      (.node (Cursor.start s) (.importDefault n.text) :: es) hsource
    exact ⟨_, takes_importStatement.2 ⟨w, s, hw, .inr (.inl ⟨hname hn, n, s₁, hn,
      .inr ⟨c, s₂, hcomma, es, s', hes, _, r, hsource, rfl, rfl⟩⟩)⟩, by simp [Node.map, hmap]⟩

/-- What follows the first word of an import makes no call or access of it. -/
theorem next_of_importStatement {e : Tree} (h : Takes (importStatement ts) e r) :
    ∃ w s, Front (·.isWord "import") ts w s ∧ s ≠ [] ∧
      ¬((current s).isMark "(" = true ∨ (current s).isMark "." = true) := by
  obtain ⟨w, s, hw, h⟩ := takes_importStatement.1 h
  have hnot {p : Token → Bool} {u : Token} {s' : List Token} (hu : Front p s u s')
      (hp : u.isMark "(" = false ∧ u.isMark "." = false) : s ≠ [] ∧
        ¬((current s).isMark "(" = true ∨ (current s).isMark "." = true) := by
    rw [hu.1]
    exact ⟨by simp, by simp [current, hp]⟩
  refine ⟨w, s, hw, ?_⟩
  rcases h with ⟨-, t, s', ht, -⟩ | ⟨-, n, s', hn, -⟩ | ⟨-, es, s', hes, -⟩
  · have := of_decide_eq_true ht.2
    exact hnot ht (by simp [Token.isMark, this])
  · exact hnot hn (by simp [Token.isMark, (Token.kind_of_isName hn.2).1])
  · rcases takes_importNames.1 hes with ⟨u, s', hu, -⟩ | ⟨-, u, s', hu, -⟩
    · exact hnot hu ⟨Token.isMark_of_ne (by decide) hu.2, Token.isMark_of_ne (by decide) hu.2⟩
    · exact hnot hu ⟨Token.isMark_of_ne (by decide) hu.2, Token.isMark_of_ne (by decide) hu.2⟩

/-! ### The first word of a statement -/

/-- The word in front decides which statement is read. -/
theorem takes_statement_of_word {e : Tree} {w : Token} {x : String}
    (hw : Front (·.isWord x) ts w s) (hs : s ≠ []) : Takes (statement ts) e r ↔
      if x = "import" ∧ ¬((current s).isMark "(" ∨ (current s).isMark ".") then
        Takes (importStatement ts) e r
      else if x = "export" then Takes (exportStatement ts) e r
      else if x = "const" ∨ x = "var" then Takes (varDeclaration ts) e r
      else if x = "let" ∧ (current s).kind = .identifier then Takes (varDeclaration ts) e r
      else if x = "function" then Takes (functionDeclaration ts) e r
      else if x = "if" then Takes (ifStatement ts) e r
      else if x = "return" then Takes (returnStatement ts) e r
      else if x = "throw" then Takes (throwStatement ts) e r
      else Takes (expressionStatement ts) e r := by
  obtain ⟨rfl, hx⟩ := hw
  obtain ⟨hk, rfl⟩ := Token.kind_of_isWord hx
  have hcurrent : current (w :: s) = w := rfl
  have hnext : next (w :: s) = current s := by
    cases s with
    | nil => exact absurd rfl hs
    | cons u us => rfl
  have hword (y : String) : w.isWord y = true ↔ w.text = y := by simp [Token.isWord, hk]
  have hmark (m : String) : w.isMark m = false := Token.isMark_of_isWord hx m
  rw [takes_statement]
  simp only [hcurrent, hnext, hmark, hword, Bool.false_eq_true, if_false, Bool.and_eq_true,
    Bool.or_eq_true, Bool.not_eq_true', ← Bool.not_eq_true, decide_eq_true_eq]

theorem render_statement {pos : Nat} {top : Node Tree} (h : top.isStatement = true) :
    Render.statement depth (.node pos top) = Render.sentence depth top := by
  rw [Render.statement, if_pos h]

/-- An expression that fits as a statement does not start like a declaration with `let`. -/
theorem next_of_let {c : Token} (hf : Fits .expression t) (hl : ¬t.opensLet)
    (hs : Spells b (Render.expression depth 0 t) ts r) (hr : Front (·.isMark ";") r c s)
    (hlet : (current ts).word = ⟨.identifier, "let"⟩) : (next ts).kind ≠ .identifier := by
  obtain ⟨u, us, ws, rfl, hw, hnext, hatom⟩ := exists_opening hf hs
  have hword : u.word = ⟨.identifier, "let"⟩ := hlet
  cases ws with
  | nil =>
    obtain rfl := hatom (hw.alone rfl (by rw [hword]))
    rw [hr.1]
    simp [next, (Token.kind_of_isMark hr.2).1]
  | cons v ws =>
    cases us with
    | nil => simp at hnext
    | cons v' us =>
      rw [List.map_cons, List.cons_prefix_cons] at hnext
      obtain ⟨rfl, -⟩ := hnext
      obtain rfl : ws = [] := by
        have := hw.short
        simpa using this
      intro hk
      have hk : v'.kind = .identifier := hk
      refine hl ⟨v'.text, ?_⟩
      rw [hw.eq, hword, Token.word, hk]

theorem readsStatement_of_expression {pos : Nat} {e : Tree} (hf : Fits .expression e)
    (hb : ¬e.Opens ⟨.mark, "\x7b"⟩) (hw : ¬e.Opens ⟨.identifier, "function"⟩) (hl : ¬e.opensLet)
    (ih : ReadsExpression e) : ReadsStatement (.node pos (.expressionStatement e)) := by
  intro depth b ts r hs _
  rw [render_statement rfl, Render.sentence, startsLikeStatement_eq_false hf hb hw,
    Render.inParens, if_neg (by simp)] at hs
  obtain ⟨s, he, hend⟩ := spells_append.1 hs
  obtain ⟨hends, hsemi⟩ := semicolon_of_spells hend
  obtain ⟨x, hx, hbare⟩ := ih he hends
  have hstarts := starts_current hf he
  have hother (w : Word) (hw : w.starts = false) : (current ts).word ≠ w := by
    rintro rfl
    rw [hw] at hstarts
    cases hstarts
  have hmark (m : String) (hm : (current ts).word ≠ ⟨.mark, m⟩) : (current ts).isMark m = false := by
    by_contra h
    exact hm ((current ts).word_of_isMark (Bool.not_eq_false _ ▸ h))
  have hword (x : String) (hx : (current ts).word ≠ ⟨.identifier, x⟩) :
      (current ts).isWord x = false := by
    by_contra h
    exact hx ((current ts).word_of_isWord (Bool.not_eq_false _ ▸ h))
  obtain ⟨c, s', hc, -⟩ := spells_mark hend
  have hlet : ((current ts).isWord "let" && (next ts).kind = .identifier : Bool) = false := by
    rw [Bool.and_eq_false_iff, decide_eq_false_iff_not]
    by_contra h
    rw [not_or, Bool.not_eq_false, not_not] at h
    exact next_of_let hf hl he hc ((current ts).word_of_isWord h.1) h.2
  refine ⟨.node (Cursor.start ts) (.expressionStatement x), takes_statement.2 ?_,
    by simp [Node.map, hbare]⟩
  simp only [hlet, hmark "\x7b" (word_ne_of_not_opens hf hb he), hmark ";" (hother _ (by decide)),
    hword "function" (word_ne_of_not_opens hf hw he), hword "import" (hother _ (by decide)),
    hword "export" (hother _ (by decide)), hword "const" (hother _ (by decide)),
    hword "var" (hother _ (by decide)), hword "if" (hother _ (by decide)),
    hword "return" (hother _ (by decide)), hword "throw" (hother _ (by decide)), Bool.false_and,
    Bool.or_false, Bool.false_eq_true, if_false]
  exact takes_expressionStatement.2 ⟨x, s, hx, r, hsemi, rfl, rfl⟩

/-! ### Declarations -/

/-- The declarator is read. -/
def ReadsDeclarator (keyword : VarKeyword) (t : Tree) : Prop :=
  ∀ ⦃depth b ts r⦄, Spells b (Render.declaratorOf depth t) ts r →
    (∃ u s, Front (·.isMark ",") r u s ∨ Front (·.isMark ";") r u s) →
    ∃ n s init, Front Token.isName ts n s ∧ Takes (initializer keyword s) init r ∧
      bare (.node 0 (.declarator n.text init)) = t.bare

theorem ends_of_item {m : String} (hm : m ∈ [")", "]", "\x7d", ",", ";", ":"])
    (h : ∃ u s, Front (·.isMark ",") r u s ∨ Front (·.isMark m) r u s) : Ends r := by
  obtain ⟨u, s, hu | hu⟩ := h
  · exact ends_of_mark hu (by decide)
  · exact ends_of_mark hu hm

theorem readsDeclarator {pos : Nat} {keyword : VarKeyword} {name : String} {init : Tree}
    (hf : Fits (.declarator keyword) (.node pos (.declarator name init)))
    (ih : Fits .expression init → ReadsExpression init) :
    ReadsDeclarator keyword (.node pos (.declarator name init)) := by
  intro depth b ts r hs hr
  have hends : Ends r := ends_of_item (by decide) hr
  rw [Render.declaratorOf] at hs
  cases hf with
  | uninitialized hn hk =>
    obtain ⟨n, s, hn', rfl, rfl⟩ := spells_bindable hn hs
    exact ⟨n, s, .absent, hn', takes_initializer.2 (.inr ⟨hends.mark (by decide), hk, rfl, rfl⟩), by
      simp [Node.map]⟩
  | declarator hn hi =>
    have hfilled : init.isFilled = true := by
      cases init with
      | absent => cases hi
      | _ => rfl
    rw [if_pos hfilled, render_expression (assignment_le_strength init)] at hs
    obtain ⟨n, s, hn', rfl, hrest⟩ := spells_bindable hn hs
    obtain ⟨u, s', hu, hrest⟩ := spells_mark (spells_space.1 hrest)
    obtain ⟨x, hx, hbare⟩ := ih hi (spells_space.1 hrest) hends
    exact ⟨n, s, x, hn', takes_initializer.2 (.inl ⟨u, s', hu, x, r, hx, rfl, rfl⟩), by
      simp [Node.map, hbare]⟩

theorem takes_declarators_of_spells {keyword : VarKeyword} {d : Tree} {ds : List Tree}
    {c : Token} (hds : ∀ e ∈ d :: ds, ReadsDeclarator keyword e)
    (hs : Spells b (commas ((d :: ds).map (Render.declaratorOf depth))) ts r)
    (hr : Front (·.isMark ";") r c s) :
    (current ts).kind = .identifier ∧
      ∃ es, Takes (declarators keyword ts) es r ∧ es.map bare = (d :: ds).map bare := by
  have hname {n : Token} {s : List Token} (hn : Front Token.isName ts n s) :
      (current ts).kind = .identifier := by
    rw [hn.1]
    exact (Token.kind_of_isName hn.2).1
  induction ds generalizing d b ts with
  | nil =>
    obtain ⟨n, s', init, hn, hinit, hbare⟩ := hds d List.mem_cons_self hs ⟨c, s, .inr hr⟩
    have hcomma : take? (·.isMark ",") r = none := by
      rw [hr.1]
      exact take?_cons_of_neg (Token.isMark_of_ne (by decide) hr.2)
    refine ⟨hname hn, _, takes_declarators.2 ⟨n, s', hn, init, r, hinit, .inl ⟨hcomma, rfl, rfl⟩⟩, ?_⟩
    simpa using hbare
  | cons e ds ih =>
    obtain ⟨s₁, hd, hrest⟩ := spells_append.1 hs
    obtain ⟨u, s₂, hu, hrest⟩ := spells_mark hrest
    obtain ⟨n, s', init, hn, hinit, hbare⟩ := hds d List.mem_cons_self hd ⟨u, s₂, .inl hu⟩
    obtain ⟨-, es, hes, hmap⟩ := ih (fun x hx => hds x (List.mem_cons_of_mem _ hx))
      (spells_space.1 hrest) (by
        intro n s hn
        rw [hn.1]
        exact (Token.kind_of_isName hn.2).1)
    refine ⟨hname hn, _, takes_declarators.2 ⟨n, s', hn, init, s₁, hinit, .inr ⟨u, s₂, hu, es, r, hes,
      rfl, rfl⟩⟩, ?_⟩
    rw [List.map_cons, List.map_cons, hmap]
    congr 1

theorem keyword?_of_text {w : Token} {keyword : VarKeyword} (h : w.isWord keyword.text = true) :
    keyword? w = some keyword := by
  have htext := (Token.kind_of_isWord h).2
  cases keyword <;> simp [keyword?, htext, VarKeyword.text]

theorem varDeclaration_of_spells {pos : Nat} {keyword : VarKeyword} {ds : List Tree}
    (hne : ds ≠ []) (hds : ∀ d ∈ ds, ReadsDeclarator keyword d)
    (hs : Spells b (Render.sentence depth (.varDeclaration keyword ds)) ts r) :
    ∃ w s, Front (·.isWord keyword.text) ts w s ∧ (current s).kind = .identifier ∧
      ∃ e, Takes (varDeclaration ts) e r ∧ e.bare = bare (.node pos (.varDeclaration keyword ds)) := by
  rw [Render.sentence, render_declarators] at hs
  obtain ⟨w, s, hw, hrest⟩ := spells_name hs
  obtain ⟨s', hlist, hend⟩ := spells_append.1 (spells_space.1 hrest)
  obtain ⟨c, s'', hc, -⟩ := spells_mark hend
  obtain ⟨-, hsemi⟩ := semicolon_of_spells hend
  obtain ⟨d, ds, rfl⟩ := List.exists_cons_of_ne_nil hne
  obtain ⟨hkind, es, hes, hmap⟩ := takes_declarators_of_spells hds hlist hc
  have hkey : keyword? w = some keyword := keyword?_of_text hw.2
  refine ⟨w, s, hw, hkind, .node (Cursor.start ts) (.varDeclaration keyword es),
    takes_varDeclaration.2 ⟨w, s, ⟨hw.1, by simp [hkey]⟩, es, s', ?_, r, hsemi, ?_, rfl⟩,
    by simp [Node.map, hmap]⟩
  · rwa [hkey, Option.getD_some]
  · rw [hkey, Option.getD_some]

theorem functionDeclaration_of_spells {pos : Nat} {name : String} {params : List String}
    {body : Tree} (hn : IsBindable name) (hp : ∀ x ∈ params, IsBindable x)
    (hb : ReadsStatement body) (ht : body.topIs Node.isBlock = true)
    (hs : Spells b (Render.sentence depth (.functionDeclaration name params body)) ts r) :
    ∃ w s, Front (·.isWord "function") ts w s ∧ s ≠ [] ∧ ∃ e, Takes (functionDeclaration ts) e r ∧
      e.bare = bare (.node pos (.functionDeclaration name params body)) := by
  rw [Render.sentence] at hs
  simp only [List.cons_append] at hs
  obtain ⟨w, s, hw, hrest⟩ := spells_name hs
  obtain ⟨n, s', hn', rfl, htail⟩ := spells_bindable hn (spells_space.1 hrest)
  obtain ⟨s'', hlist, hblock⟩ := spells_append.1 htail
  have hparams := takes_parameters_of_spells hp hlist
  obtain ⟨e, he, hbare⟩ := takes_block_of_spells hb ht (spells_space.1 hblock)
  refine ⟨w, s, hw, by rw [hn'.1]; simp, _, takes_functionDeclaration.2 ⟨w, s, hw, n, s', hn', params,
    s'', hparams, e, r, he, rfl, rfl⟩, by simp [Node.map, hbare]⟩

theorem exportDeclaration_of_spells {pos : Nat} {d : Tree}
    (ih : ∀ ⦃b ts r⦄, Spells b (Render.statement depth d) ts r → ∃ w s, w.kind = .identifier ∧
      ts = w :: s ∧ w.text ≠ "default" ∧ ∃ e,
        (if (keyword? w).isSome then Takes (varDeclaration ts) e r
          else w.text = "function" ∧ Takes (functionDeclaration ts) e r) ∧ e.bare = d.bare)
    (hs : Spells b (Render.sentence depth (.exportDeclaration d)) ts r) :
    ∃ w s, Front (·.isWord "export") ts w s ∧ s ≠ [] ∧ ∃ e, Takes (exportStatement ts) e r ∧
      e.bare = bare (.node pos (.exportDeclaration d)) := by
  rw [Render.sentence] at hs
  obtain ⟨w, s, hw, hrest⟩ := spells_name hs
  obtain ⟨u, s', hu, rfl, hne, e, he, hbare⟩ := ih (spells_space.1 hrest)
  refine ⟨w, u :: s', hw, by simp, _, takes_exportStatement.2 ⟨w, _, hw, .inr ⟨?_, e, r, he, rfl, rfl⟩⟩,
    by simp [Node.map, hbare]⟩
  exact take?_cons_of_neg (by simp [Token.isWord, hne])

theorem kind_of_declarators {keyword : VarKeyword} {d : Tree} {ds : List Tree} {ps : List Piece}
    (hf : Fits (.declarator keyword) d)
    (hs : Spells b (commas ((d :: ds).map (Render.declaratorOf depth)) ++ ps) ts r) :
    (current ts).kind = .identifier := by
  have hd : ∃ x more, Render.declaratorOf depth d = Piece.name x :: more := by
    cases hf <;> exact ⟨_, _, by rw [Render.declaratorOf]⟩
  obtain ⟨x, more, hd⟩ := hd
  have hfirst : ∃ rest, commas ((d :: ds).map (Render.declaratorOf depth)) = Piece.name x :: rest := by
    cases ds with
    | nil => exact ⟨more, hd⟩
    | cons e ds =>
      refine ⟨more ++ Piece.mark "," :: space :: commas ((e :: ds).map (Render.declaratorOf depth)), ?_⟩
      rw [← List.cons_append, ← hd]
      rfl
  obtain ⟨rest, hfirst⟩ := hfirst
  rw [hfirst] at hs
  obtain ⟨t, s, ht, -⟩ := spells_anyName hs
  rw [ht.1]
  exact of_decide_eq_true ht.2

/-- A declaration is read by its own phrase. -/
theorem declaration_of_spells {d : Tree} (hf : Fits .statement d)
    (ht : d.topIs Node.isDeclaration = true) (ih : ReadsStatement d) ⦃b : Bool⦄
    ⦃ts r : List Token⦄ (hs : Spells b (Render.statement depth d) ts r) :
    ∃ w s, w.kind = .identifier ∧ ts = w :: s ∧ w.text ≠ "default" ∧ ∃ e,
      (if (keyword? w).isSome then Takes (varDeclaration ts) e r
        else w.text = "function" ∧ Takes (functionDeclaration ts) e r) ∧ e.bare = d.bare := by
  have hclosed : d.endsOpen = true → take? (·.isWord "else") r = none := by
    intro h
    match d, ht with
    | .node _ (.varDeclaration ..), _ | .node _ (.functionDeclaration ..), _ => simp [endsOpen] at h
  obtain ⟨e, he, hbare⟩ := ih hs hclosed
  cases hf with
  | @varDeclaration _ keyword ds hne hds =>
    rw [render_statement rfl, Render.sentence, render_declarators] at hs
    obtain ⟨w, s, hw, hrest⟩ := spells_name hs
    obtain ⟨d, ds, rfl⟩ := List.exists_cons_of_ne_nil hne
    have hkind := kind_of_declarators (hds d List.mem_cons_self) (spells_space.1 hrest)
    have hkey : keyword? w = some keyword := keyword?_of_text hw.2
    have hs : s ≠ [] := by
      rintro rfl
      cases hkind
    refine ⟨w, s, (Token.kind_of_isWord hw.2).1, hw.1, ?_, e, ?_, hbare⟩
    · rw [(Token.kind_of_isWord hw.2).2]
      cases keyword <;> decide
    · rw [hkey, if_pos (Option.isSome_some ..)]
      have := (takes_statement_of_word hw hs).1 he
      cases keyword <;> simpa [VarKeyword.text, hkind] using this
  | functionDeclaration hn hp hb ht =>
    rw [render_statement rfl, Render.sentence] at hs
    simp only [List.cons_append] at hs
    obtain ⟨w, s, hw, hrest⟩ := spells_name hs
    obtain ⟨n, s', hn', -⟩ := spells_bindable hn (spells_space.1 hrest)
    have htext := (Token.kind_of_isWord hw.2).2
    refine ⟨w, s, (Token.kind_of_isWord hw.2).1, hw.1, by rw [htext]; decide, e, ?_, hbare⟩
    have := (takes_statement_of_word hw (by rw [hn'.1]; simp)).1 he
    simpa [keyword?, htext] using this
  | _ => cases ht

/-! ### The other statements -/

theorem exportDefault_of_spells {pos : Nat} {e : Tree} (hf : Fits .expression e)
    (ho : e.Opens ⟨.identifier, "function"⟩ → e.topIs Node.isFunction = true)
    (ih : ReadsExpression e)
    (ihb : ∀ x params body, e.top? = some (.functionExpression x params body) →
      Fits .statement body → ReadsStatement body)
    (hs : Spells b (Render.sentence depth (.exportDefault e)) ts r) :
    ∃ w s, Front (·.isWord "export") ts w s ∧ s ≠ [] ∧ ∃ e', Takes (exportStatement ts) e' r ∧
      e'.bare = bare (.node pos (.exportDefault e)) := by
  rw [Render.sentence, render_expression (assignment_le_strength e)] at hs
  obtain ⟨w, s, hw, hrest⟩ := spells_name hs
  obtain ⟨d, s', hd, hrest⟩ := spells_name (spells_space.1 hrest)
  obtain ⟨s'', hvalue, hend⟩ := spells_append.1 (spells_space.1 hrest)
  obtain ⟨hends, hsemi⟩ := semicolon_of_spells hend
  have hread : ∃ x, (if atWord "function" s' then Takes (functionExpression s') x s''
      else Takes (expression s') x s'') ∧ x.bare = e.bare := by
    split
    · next hword =>
      have hopens : e.Opens ⟨.identifier, "function"⟩ := by
        by_contra h
        exact word_ne_of_not_opens hf h hvalue ((current s').word_of_isWord hword)
      cases hf with
      | functionExpression hn hp hb ht =>
        rw [render_node] at hvalue
        exact (functionExpression_of_spells hn hp (ihb _ _ _ rfl hb) ht hvalue).2
      | @arrow _ params _ hp | @arrowBlock _ params _ hp =>
        rcases params with _ | ⟨x, _ | ⟨_, _⟩⟩
        · simp [Opens, opening] at hopens
        · obtain rfl : x = "function" := by simpa [Opens, opening] using hopens
          exact absurd (hp _ List.mem_cons_self).2 (by decide)
        · simp [Opens, opening] at hopens
      | _ => simp [topIs, top?, Node.isFunction] at ho; exact absurd hopens ho
    · obtain ⟨x, hx, hbare⟩ := ih hvalue hends
      exact ⟨x, hx, hbare⟩
  obtain ⟨x, hx, hbare⟩ := hread
  exact ⟨w, s, hw, by rw [hd.1]; simp, _, takes_exportStatement.2 ⟨w, s, hw, .inl ⟨d, s', hd, x, s'', hx,
    r, hsemi, rfl, rfl⟩⟩, by simp [Node.map, hbare]⟩

/-- A value on the line of its keyword, and the semicolon behind it. -/
theorem value_of_spells {e : Tree} (hf : Fits .expression e) (ih : ReadsExpression e)
    (hs : Spells false (Render.expression depth 0 e ++ [Piece.mark ";"]) ts r) :
    ts ≠ [] ∧ ((current ts).isMark ";" || endsStatement (current ts)) = false ∧
      (current ts).afterBreak = false ∧ ∃ x s, Takes (expression ts) x s ∧
        Takes (semicolon s) () r ∧ x.bare = e.bare := by
  obtain ⟨s, hvalue, hend⟩ := spells_append.1 hs
  obtain ⟨hends, hsemi⟩ := semicolon_of_spells hend
  obtain ⟨x, hx, hbare⟩ := ih hvalue hends
  have hbreak := afterBreak_of_spells hf hvalue
  have hstarts := starts_current hf hvalue
  refine ⟨by rintro rfl; exact absurd hstarts (by decide), ?_, hbreak, x, s, hx, hsemi, hbare⟩
  have hmark (m : String) (hm : Word.starts ⟨.mark, m⟩ = false) : (current ts).isMark m = false := by
    by_contra h
    rw [(current ts).word_of_isMark (Bool.not_eq_false _ ▸ h), hm] at hstarts
    cases hstarts
  have hfile : (current ts).isEnd = false := by
    by_contra h
    have hk : (current ts).kind = .endOfFile := by simpa [Token.isEnd] using h
    rw [Token.word, hk] at hstarts
    cases hstarts
  rw [hmark ";" (by decide), endsStatement, hmark "\x7d" (by decide), hfile, hbreak]
  rfl

theorem returnStatement_of_spells {pos : Nat} {e : Tree}
    (h : e = .absent ∨ Fits .expression e ∧ ReadsExpression e)
    (hs : Spells b (Render.sentence depth (.returnStatement e)) ts r) :
    ∃ w s, Front (·.isWord "return") ts w s ∧ s ≠ [] ∧ ∃ e', Takes (returnStatement ts) e' r ∧
      e'.bare = bare (.node pos (.returnStatement e)) := by
  rw [Render.sentence] at hs
  obtain ⟨w, s, hw, hrest⟩ := spells_name hs
  rcases h with rfl | ⟨hf, ih⟩
  · obtain ⟨c, s', hc, rfl⟩ := spells_mark hrest
    have hsemi : Takes (semicolon s) () s' := takes_semicolon.2 (.inl ⟨c, hc⟩)
    have hcurrent : (current s).isMark ";" = true := by rw [hc.1]; exact hc.2
    exact ⟨w, s, hw, by rw [hc.1]; simp, _, takes_returnStatement.2 ⟨w, s, hw, .inl ⟨by
      rw [hcurrent, Bool.true_or], s', hsemi, rfl, rfl⟩⟩, by simp [Node.map]⟩
  · have hfilled : e.isFilled = true := by cases hf <;> rfl
    rw [if_pos hfilled] at hrest
    obtain ⟨hne, hgo, -, x, s', hx, hsemi, hbare⟩ := value_of_spells hf ih (spells_space.1 hrest)
    exact ⟨w, s, hw, hne, _, takes_returnStatement.2 ⟨w, s, hw, .inr ⟨hgo, x, s', hx, r, hsemi, rfl,
      rfl⟩⟩, by simp [Node.map, hbare]⟩

theorem throwStatement_of_spells {pos : Nat} {e : Tree} (hf : Fits .expression e)
    (ih : ReadsExpression e) (hs : Spells b (Render.sentence depth (.throwStatement e)) ts r) :
    ∃ w s, Front (·.isWord "throw") ts w s ∧ s ≠ [] ∧ ∃ e', Takes (throwStatement ts) e' r ∧
      e'.bare = bare (.node pos (.throwStatement e)) := by
  rw [Render.sentence] at hs
  obtain ⟨w, s, hw, hrest⟩ := spells_name hs
  obtain ⟨hne, -, hbreak, x, s', hx, hsemi, hbare⟩ := value_of_spells hf ih (spells_space.1 hrest)
  exact ⟨w, s, hw, hne, _, takes_throwStatement.2 ⟨w, s, hw, hbreak, x, s', hx, r, hsemi, rfl, rfl⟩,
    by simp [Node.map, hbare]⟩

/-- The `else` behind the statement is that of the `if` itself, since no `if` inside is open. -/
theorem ifStatement_of_spells {pos : Nat} {c y n : Tree}
    (ihc : ReadsExpression c) (ihy : ReadsStatement y)
    (hn : n = .absent ∧ take? (·.isWord "else") r = none ∨
      n.isFilled = true ∧ y.endsOpen = false ∧
        ∀ ⦃b ts⦄, Spells b (Render.statement depth n) ts r →
          ∃ e, Takes (statement ts) e r ∧ e.bare = n.bare)
    (hs : Spells b (Render.sentence depth (.ifElse c y n)) ts r) :
    ∃ w s, Front (·.isWord "if") ts w s ∧ s ≠ [] ∧ ∃ e, Takes (ifStatement ts) e r ∧
      e.bare = bare (.node pos (.ifElse c y n)) := by
  rw [Render.sentence] at hs
  simp only [List.cons_append, List.append_assoc] at hs
  obtain ⟨w, s, hw, hrest⟩ := spells_name hs
  obtain ⟨a, s₁, ha, hrest⟩ := spells_mark (spells_space.1 hrest)
  obtain ⟨s₂, hcond, hrest⟩ := spells_append.1 hrest
  obtain ⟨z, s₃, hz, hrest⟩ := spells_mark hrest
  obtain ⟨s₄, hyes, hno⟩ := spells_append.1 (spells_space.1 hrest)
  obtain ⟨c', hc, hbc⟩ := ihc hcond (ends_of_mark hz (by decide))
  refine ⟨w, s, hw, by rw [ha.1]; simp, ?_⟩
  rcases hn with ⟨rfl, hopen⟩ | ⟨hfilled, hclosed, ihn⟩
  · obtain rfl : s₄ = r := hno
    obtain ⟨y', hy, hby⟩ := ihy hyes fun _ => hopen
    exact ⟨_, takes_ifStatement.2 ⟨w, s, hw, a, s₁, ha, c', s₂, hc, z, s₃, hz, y', _, hy,
      .inl ⟨hopen, rfl, rfl⟩⟩, by simp [Node.map, hbc, hby]⟩
  · rw [if_pos hfilled] at hno
    have hno : ∃ b, Spells b (Piece.name "else" :: space :: Render.statement depth n) s₄ r := by
      split at hno <;> exact ⟨_, hno⟩
    obtain ⟨_, hno⟩ := hno
    obtain ⟨v, s₅, hv, hrest⟩ := spells_name hno
    obtain ⟨y', hy, hby⟩ := ihy hyes fun h => absurd h (by simp [hclosed])
    obtain ⟨n', hn, hbn⟩ := ihn (spells_space.1 hrest)
    exact ⟨_, takes_ifStatement.2 ⟨w, s, hw, a, s₁, ha, c', s₂, hc, z, s₃, hz, y', s₄, hy,
      .inr ⟨v, s₅, hv, n', r, hn, rfl, rfl⟩⟩, by simp [Node.map, hbc, hby, hbn]⟩

/-! ### Lines -/

/-- A statement may start with the word. -/
def beginsStatement (w : Word) : Bool :=
  w.starts || [⟨.mark, "\x7b"⟩, ⟨.mark, ";"⟩, ⟨.identifier, "import"⟩, ⟨.identifier, "export"⟩,
    ⟨.identifier, "const"⟩, ⟨.identifier, "let"⟩, ⟨.identifier, "var"⟩, ⟨.identifier, "function"⟩,
    ⟨.identifier, "if"⟩, ⟨.identifier, "return"⟩, ⟨.identifier, "throw"⟩].contains w

theorem begins_current (hf : Fits .statement t) (hs : Spells b (Render.statement depth t) ts r) :
    beginsStatement (current ts).word = true := by
  have word (w : Word) (hw : beginsStatement w = true) {qs : List Piece}
      (h : Spells b (.word w :: qs) ts r) : beginsStatement (current ts).word = true := by
    obtain ⟨u, s, rfl, rfl, -⟩ := h
    exact hw
  cases hf with
  | expressionStatement he hb hw hl =>
    rw [render_statement rfl, Render.sentence, startsLikeStatement_eq_false he hb hw,
      Render.inParens, if_neg (by simp)] at hs
    obtain ⟨s, hs, -⟩ := spells_append.1 hs
    rw [beginsStatement, starts_current he hs, Bool.true_or]
  | block =>
    rw [render_statement rfl, Render.sentence, Render.braces] at hs
    split at hs <;> exact word ⟨.mark, "\x7b"⟩ (by decide) hs
  | importFrom =>
    rw [render_statement rfl, Render.sentence, Render.importStatement] at hs
    split at hs <;> exact word ⟨.identifier, "import"⟩ (by decide) hs
  | @varDeclaration _ keyword =>
    rw [render_statement rfl, Render.sentence] at hs
    exact word ⟨.identifier, keyword.text⟩ (by cases keyword <;> decide) hs
  | _ =>
    rw [render_statement rfl, Render.sentence] at hs
    exact word _ (by decide) hs

theorem else_of_lines {body : List Tree} (hf : ∀ t ∈ body, Fits .statement t)
    (hs : Spells b (Render.lines depth body) ts r) (hr : take? (·.isWord "else") r = none) :
    take? (·.isWord "else") ts = none := by
  cases body with
  | nil =>
    rw [Render.lines] at hs
    rwa [show ts = r from hs]
  | cons t body =>
    rw [Render.lines] at hs
    obtain ⟨s, hs, -⟩ := spells_append.1 hs
    have hbegin := begins_current (hf t List.mem_cons_self) (spells_indent.1 hs)
    cases ts with
    | nil => rfl
    | cons u us =>
      refine take?_cons_of_neg ?_
      by_contra h
      rw [show current (u :: us) = u from rfl, u.word_of_isWord (Bool.not_eq_false _ ▸ h)] at hbegin
      exact absurd hbegin (by decide)

/-- Lines of statements, in front of what is no `else`, are read one after the other. -/
theorem lines_of_spells {body : List Tree} (hf : ∀ t ∈ body, Fits .statement t)
    (ih : ∀ t ∈ body, ReadsStatement t) (hr : take? (·.isWord "else") r = none)
    (hs : Spells b (Render.lines depth body) ts r) :
    body = [] ∧ ts = r ∨ ∃ t rest e s, body = t :: rest ∧ Takes (statement ts) e s ∧
      e.bare = t.bare ∧ Spells true (Render.lines depth rest) s r ∧
      take? (·.isMark "\x7d") ts = none ∧ atEnd ts = false := by
  cases body with
  | nil =>
    rw [Render.lines] at hs
    exact .inl ⟨rfl, hs⟩
  | cons t rest =>
    rw [Render.lines] at hs
    obtain ⟨s, hs, hrest⟩ := spells_append.1 hs
    have hrest := spells_lineFeed.1 hrest
    have helse := else_of_lines (fun x hx => hf x (List.mem_cons_of_mem _ hx)) hrest hr
    have hbegin := begins_current (hf t List.mem_cons_self) (spells_indent.1 hs)
    obtain ⟨e, he, hbare⟩ := ih t List.mem_cons_self (spells_indent.1 hs) fun _ => helse
    refine .inr ⟨t, rest, e, s, rfl, he, hbare, hrest, ?_, ?_⟩
    · cases ts with
      | nil => rfl
      | cons u us =>
        refine take?_cons_of_neg ?_
        by_contra h
        rw [show current (u :: us) = u from rfl,
          u.word_of_isMark (Bool.not_eq_false _ ▸ h)] at hbegin
        exact absurd hbegin (by decide)
    · by_contra h
      have hk : (current ts).kind = .endOfFile := by simpa [atEnd, Token.isEnd] using h
      rw [Token.word, hk] at hbegin
      simp [beginsStatement, Word.starts] at hbegin

theorem takes_statements_of_spells {body : List Tree} {u : Token}
    (hf : ∀ t ∈ body, Fits .statement t) (ih : ∀ t ∈ body, ReadsStatement t)
    (hu : Front (·.isMark "\x7d") s u r) (hs : Spells b (Render.lines depth body) ts s) :
    ∃ es, Takes (statements ts) es r ∧ es.map bare = body.map bare := by
  induction body generalizing b ts with
  | nil =>
    rw [Render.lines] at hs
    obtain rfl : ts = s := hs
    exact ⟨[], takes_statements.2 (.inl ⟨u, r, hu, rfl, rfl⟩), rfl⟩
  | cons t body ihs =>
    have helse : take? (·.isWord "else") s = none := by
      rw [hu.1]
      exact take?_cons_of_neg (by simp [Token.isWord, (Token.kind_of_isMark hu.2).1])
    obtain ⟨h, -⟩ | ⟨_, _, e, s₁, heq, he, hbare, hrest, hbrace, hend⟩ :=
      lines_of_spells hf ih helse hs
    · cases h
    cases heq
    obtain ⟨es, hes, hmap⟩ := ihs (fun x hx => hf x (List.mem_cons_of_mem _ hx))
      (fun x hx => ih x (List.mem_cons_of_mem _ hx)) hrest
    exact ⟨e :: es, takes_statements.2 (.inr ⟨hbrace, hend, e, s₁, he, es, r, hes, rfl, rfl⟩),
      by simp [hbare, hmap]⟩

theorem block_of_spells {pos : Nat} {body : List Tree} (hf : ∀ t ∈ body, Fits .statement t)
    (ih : ∀ t ∈ body, ReadsStatement t)
    (hs : Spells b (Render.sentence depth (.block body)) ts r) :
    (current ts).isMark "\x7b" = true ∧
      ∃ e, Takes (block ts) e r ∧ e.bare = bare (.node pos (.block body)) := by
  rw [Render.sentence] at hs
  have hparts : ∃ t s b s' u, Front (·.isMark "\x7b") ts t s ∧
      Spells b (Render.lines (depth + 1) body) s s' ∧ Front (·.isMark "\x7d") s' u r := by
    rw [Render.braces] at hs
    split at hs
    · next hempty =>
      obtain rfl := List.isEmpty_iff.1 hempty
      obtain ⟨t, s, ht, hs⟩ := spells_mark hs
      obtain ⟨u, s', hu, rfl⟩ := spells_mark hs
      exact ⟨t, s, false, s, u, ht, by rw [Render.lines]; rfl, hu⟩
    · obtain ⟨t, s, ht, hs⟩ := spells_mark hs
      obtain ⟨s', hinner, hclose⟩ := spells_append.1 (spells_lineFeed.1 hs)
      obtain ⟨u, s'', hu, rfl⟩ := spells_mark (spells_indent.1 hclose)
      exact ⟨t, s, true, s', u, ht, hinner, hu⟩
  obtain ⟨t, s, b, s', u, ht, hinner, hu⟩ := hparts
  obtain ⟨es, hes, hmap⟩ := takes_statements_of_spells hf ih hu hinner
  exact ⟨by rw [ht.1]; exact ht.2, _, takes_block.2 ⟨t, s, ht, es, r, hes, rfl, rfl⟩,
    by simp [Node.map, hmap]⟩

/-! ### All phrases -/

/-- The tree is read back as each phrase that it fits. -/
structure ReadsBack (t : Tree) : Prop where
  expression : Fits .expression t → Readable t
  property : Fits .property t → ReadsProperty t
  declarator : ∀ keyword, Fits (.declarator keyword) t → ReadsDeclarator keyword t
  statement : Fits .statement t → ReadsStatement t
  body : ∀ x params body, t.top? = some (.functionExpression x params body) →
    Fits .statement body → ReadsStatement body

theorem takes_key_of_spells (key : String) (quoted : Bool) {ps : List Piece}
    (hs : Spells b ((if quoted then Piece.string key else .word (.key key)) :: ps) ts r) :
    ∃ s, Takes (propertyKey ts) (key, quoted) s ∧ ∃ b, Spells b ps s r := by
  cases quoted with
  | true =>
    obtain ⟨t, s, ht, rfl, hrest⟩ := spells_string hs
    exact ⟨s, takes_propertyKey.2 (.inl ⟨t, s, ht, rfl, rfl⟩), _, hrest⟩
  | false =>
    obtain ⟨t, s, rfl, ht, -, hrest⟩ := hs
    have hkind : t.kind = .number ∨ t.kind = .identifier := by
      rw [show t.kind = (Word.key key).kind from (Word.mk.inj ht).1, Word.key]
      split <;> simp
    have hstring : take? (·.kind = .string) (t :: s) = none := by
      refine take?_cons_of_neg ?_
      rcases hkind with h | h <;> simp [h]
    refine ⟨s, takes_propertyKey.2 (.inr ⟨hstring, t, s, ⟨rfl, by simpa using hkind⟩, ?_, rfl⟩), _,
      hrest⟩
    rw [show t.text = key from (Word.mk.inj ht).2]

theorem readsProperty {pos : Nat} {top : Node Tree} (hf : Fits .property (.node pos top))
    (ih : ∀ c ∈ top.children, ReadsBack c) : ReadsProperty (.node pos top) := by
  intro depth b ts r hs hr
  have hends : Ends r := ends_of_item (by decide) hr
  rw [Render.propertyOf.eq_def] at hs
  cases hf with
  | @shorthand _ pos' key hk =>
    obtain ⟨s, hkey, _, rfl⟩ := takes_key_of_spells key false hs
    have hcolon : take? (·.isMark ":") s = none := by
      obtain ⟨u, s', hu | hu⟩ := hr
      all_goals
        rw [hu.1]
        exact take?_cons_of_neg (Token.isMark_of_ne (by decide) hu.2)
    exact ⟨_, takes_property.2 ⟨_, s, hkey, .inr ⟨hcolon, rfl, rfl, rfl⟩⟩, by simp [Node.map]⟩
  | @property _ key quoted v hk hv =>
    dsimp only at hs
    rw [Render.property, if_neg (by simp), render_expression (assignment_le_strength v)] at hs
    obtain ⟨s, hkey, _, hrest⟩ := takes_key_of_spells _ _ hs
    obtain ⟨c, s', hc, hrest⟩ := spells_mark hrest
    obtain ⟨x, hx, hbare⟩ := ((ih v (by simp [Node.children])).expression hv).expression
      (spells_space.1 hrest) hends
    exact ⟨_, takes_property.2 ⟨_, s, hkey, .inl ⟨c, s', hc, x, r, hx, rfl, rfl⟩⟩,
      by simp [Node.map, hbare]⟩

theorem readsStatement {pos : Nat} {top : Node Tree} (hf : Fits .statement (.node pos top))
    (ih : ∀ c ∈ top.children, ReadsBack c) : ReadsStatement (.node pos top) := by
  have expression {c : Tree} (hc : c ∈ top.children) (hf : Fits .expression c) :
      ReadsExpression c := ((ih c hc).expression hf).expression
  have statement {c : Tree} (hc : c ∈ top.children) (hf : Fits .statement c) :
      ReadsStatement c := (ih c hc).statement hf
  cases hf with
  | expressionStatement he hb hw hl =>
    exact readsStatement_of_expression he hb hw hl (expression (by simp [Node.children]) he)
  | importFrom hfirst hrest =>
    intro depth b ts r hs _
    rw [render_statement rfl, Render.sentence] at hs
    obtain ⟨e, he, hbare⟩ := importStatement_of_spells hfirst hrest hs
    obtain ⟨w, s, hw, hne, hnext⟩ := next_of_importStatement he
    refine ⟨e, (takes_statement_of_word hw hne).2 ?_, hbare⟩
    rwa [if_pos ⟨rfl, hnext⟩]
  | @exportDeclaration _ d hd ht =>
    intro depth b ts r hs _
    rw [render_statement rfl] at hs
    obtain ⟨w, s, hw, hne, e, he, hbare⟩ := exportDeclaration_of_spells
      (declaration_of_spells hd ht (statement (by simp [Node.children]) hd)) hs
    exact ⟨e, (takes_statement_of_word hw hne).2 (by simpa using he), hbare⟩
  | @exportDefault _ e he ho =>
    intro depth b ts r hs _
    rw [render_statement rfl] at hs
    have hread := ih e (by simp [Node.children])
    obtain ⟨w, s, hw, hne, e, he, hbare⟩ := exportDefault_of_spells he ho
      (hread.expression he).expression hread.body hs
    exact ⟨e, (takes_statement_of_word hw hne).2 (by simpa using he), hbare⟩
  | @varDeclaration _ keyword ds hne hds =>
    intro depth b ts r hs _
    rw [render_statement rfl] at hs
    obtain ⟨w, s, hw, hkind, e, he, hbare⟩ := varDeclaration_of_spells hne
      (fun d hd => (ih d (by simpa [Node.children] using hd)).declarator keyword (hds d hd)) hs
    have hs : s ≠ [] := by
      rintro rfl
      cases hkind
    refine ⟨e, (takes_statement_of_word hw hs).2 ?_, hbare⟩
    cases keyword <;> simpa [VarKeyword.text, hkind] using he
  | @functionDeclaration _ name params body hn hp hb ht =>
    intro depth b ts r hs _
    rw [render_statement rfl] at hs
    obtain ⟨w, s, hw, hne, e, he, hbare⟩ := functionDeclaration_of_spells hn hp
      (statement (by simp [Node.children]) hb) ht hs
    exact ⟨e, (takes_statement_of_word hw hne).2 (by simpa using he), hbare⟩
  | @block _ body hs =>
    intro depth b ts r hts _
    rw [render_statement rfl] at hts
    obtain ⟨hmark, e, he, hbare⟩ := block_of_spells hs
      (fun t ht => statement (by simpa [Node.children] using ht) (hs t ht)) hts
    refine ⟨e, takes_statement.2 ?_, hbare⟩
    rwa [if_pos hmark]
  | @ifOnly _ c y hc hy =>
    intro depth b ts r hs hopen
    rw [render_statement rfl] at hs
    obtain ⟨w, s, hw, hne, e, he, hbare⟩ := ifStatement_of_spells
      (expression (by simp [Node.children]) hc) (statement (by simp [Node.children]) hy)
      (.inl ⟨rfl, hopen rfl⟩) hs
    exact ⟨e, (takes_statement_of_word hw hne).2 (by simpa using he), hbare⟩
  | @ifElse _ c y n hc hy hn ho =>
    intro depth b ts r hs hopen
    rw [render_statement rfl] at hs
    have hopen : n.endsOpen = true → take? (·.isWord "else") r = none := by
      intro h
      refine hopen ?_
      rw [endsOpen]
      · exact h
      · rintro rfl
        cases hn
    obtain ⟨w, s, hw, hne, e, he, hbare⟩ := ifStatement_of_spells
      (expression (by simp [Node.children]) hc) (statement (by simp [Node.children]) hy)
      (.inr ⟨by cases hn <;> rfl, ho, fun _ _ hs => statement (by simp [Node.children]) hn hs hopen⟩)
      hs
    exact ⟨e, (takes_statement_of_word hw hne).2 (by simpa using he), hbare⟩
  | returnOnly =>
    intro depth b ts r hs _
    rw [render_statement rfl] at hs
    obtain ⟨w, s, hw, hne, e, he, hbare⟩ := returnStatement_of_spells (.inl rfl) hs
    exact ⟨e, (takes_statement_of_word hw hne).2 (by simpa using he), hbare⟩
  | @returnStatement _ e he =>
    intro depth b ts r hs _
    rw [render_statement rfl] at hs
    obtain ⟨w, s, hw, hne, e, he, hbare⟩ := returnStatement_of_spells
      (.inr ⟨he, expression (by simp [Node.children]) he⟩) hs
    exact ⟨e, (takes_statement_of_word hw hne).2 (by simpa using he), hbare⟩
  | @throwStatement _ e he =>
    intro depth b ts r hs _
    rw [render_statement rfl] at hs
    obtain ⟨w, s, hw, hne, e, he, hbare⟩ := throwStatement_of_spells he
      (expression (by simp [Node.children]) he) hs
    exact ⟨e, (takes_statement_of_word hw hne).2 (by simpa using he), hbare⟩
  | emptyStatement =>
    intro depth b ts r hs _
    rw [render_statement rfl, Render.sentence] at hs
    obtain ⟨t, s, ht, rfl⟩ := spells_mark hs
    have hsemi : (current ts).isMark ";" = true := by rw [ht.1]; exact ht.2
    refine ⟨.node (Cursor.start ts) .emptyStatement, takes_statement.2 ?_, by simp [Node.map]⟩
    dsimp only
    rw [if_neg (by simp [Token.isMark_of_ne (by decide : ";" ≠ "\x7b") hsemi]), if_pos hsemi]
    exact ⟨t, s, ht, rfl, rfl⟩

/-- Printed trees are read back. -/
theorem readsBack (t : Tree) : ReadsBack t := by
  induction t using Tree.induct with
  | absent => exact ⟨nofun, nofun, nofun, nofun, nofun⟩
  | dangling => exact ⟨nofun, nofun, nofun, nofun, nofun⟩
  | node pos top ih =>
    refine ⟨fun hf => ?_, fun hf => readsProperty hf ih, fun keyword hf => ?_,
      fun hf => readsStatement hf ih, fun x params body htop hf => ?_⟩
    · exact expression_readable hf (fun c hc => (ih c hc).expression)
        (fun c hc => (ih c hc).property) fun c hc => (ih c hc).statement
    · cases hf with
      | uninitialized hn hk => exact readsDeclarator (.uninitialized hn hk) nofun
      | declarator hn hi =>
        exact readsDeclarator (.declarator hn hi) fun hi =>
          ((ih _ (by simp [Node.children])).expression hi).expression
    · cases htop
      exact (ih body (by simp [Node.children])).statement hf

/-- The printed statements of a script are read back. -/
theorem script_of_spells {body : List Tree} (hf : ∀ t ∈ body, Fits .statement t)
    (hr : atEnd r = true) (hs : Spells b (Render.lines depth body) ts r) :
    ∃ es, script ts = .ok es ∧ es.map bare = body.map bare := by
  induction body generalizing b ts with
  | nil =>
    rw [Render.lines] at hs
    obtain rfl : ts = r := hs
    exact ⟨[], script_eq_ok.2 (.inl ⟨hr, rfl⟩), rfl⟩
  | cons t body ihs =>
    have helse : take? (·.isWord "else") r = none := by
      cases r with
      | nil => rfl
      | cons u r =>
        have hk : u.kind = .endOfFile := by simpa [atEnd, current, Token.isEnd] using hr
        exact take?_cons_of_neg (by simp [Token.isWord, hk])
    obtain ⟨h, -⟩ | ⟨_, _, e, s₁, heq, he, hbare, hrest, -, hend⟩ :=
      lines_of_spells hf (fun x hx => (readsBack x).statement (hf x hx)) helse hs
    · cases h
    cases heq
    obtain ⟨es, hes, hmap⟩ := ihs (fun x hx => hf x (List.mem_cons_of_mem _ hx)) hrest
    exact ⟨e :: es, script_eq_ok.2 (.inr ⟨hend, e, s₁, he, es, hes, rfl⟩), by simp [hbare, hmap]⟩

end Tree

end DebugGuard
