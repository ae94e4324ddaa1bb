import DebugGuard.Proofs.Script.Sound

/-!
# Which tokens stand side by side

In whatever the grammar reads, no word `new` follows another one on its line, and an assigning mark
stands behind a name or a closing bracket only (`Token.Meets`).

A phrase is known by its first token and by its last one (`Cursor.Knit`), so that phrases which are
read one after the other can be put together without a look into them.  Most phrases are put
together with a mark or a word between them that meets everything.

Main statement: `Grammar.meets_of_expression`, by one induction over the grammar.
-/

namespace DebugGuard

open Cursor Grammar

namespace Token

variable {t u : Token} {m : String}

/-- What may be assigned to ends with such a token. -/
def endsPlace (t : Token) : Bool :=
  t.kind = .identifier || t.isMark "]"

/-- The two tokens may stand side by side. -/
def Meets (t u : Token) : Prop :=
  (t.isWord "new" = true → u.isWord "new" = true → u.afterBreak = true) ∧
    (isAssigning u = true → t.endsPlace = true)

/-- The token is not the word `new`. -/
def NotNew (t : Token) : Prop :=
  t.isWord "new" = false

/-- The token may stand behind any other one. -/
def Plain (t : Token) : Prop :=
  t.NotNew ∧ isAssigning t = false

theorem isAssigning_eq_false (h : t.kind ≠ .mark) : isAssigning t = false := by
  simp [isAssigning, h]

theorem notNew_of_isMark (h : t.isMark m = true) : t.NotNew := by
  simp [NotNew, isWord, (kind_of_isMark h).1]

theorem plain_of_isMark (h : t.isMark m = true) (hm : m ∉ Operator.assigning) : t.Plain := by
  refine ⟨notNew_of_isMark h, ?_⟩
  simp [isAssigning, (kind_of_isMark h).2, hm]

theorem plain_of_isWord {w : String} (h : t.isWord w = true) (hw : w ≠ "new") : t.Plain := by
  obtain ⟨hk, ht⟩ := kind_of_isWord h
  exact ⟨by simp [NotNew, isWord, ht, hw], isAssigning_eq_false (by simp [hk])⟩

theorem plain_of_isName (h : t.isName = true) : t.Plain := by
  obtain ⟨hk, hr⟩ := kind_of_isName h
  refine ⟨?_, isAssigning_eq_false (by simp [hk])⟩
  have hnew : t.text ≠ "new" := by
    intro hnew
    rw [hnew] at hr
    exact absurd hr (by decide)
  simp [NotNew, isWord, hnew]

theorem plain_of_isUnary (h : isUnary t = true) : t.Plain := by
  simp only [isUnary, Bool.or_eq_true, Bool.and_eq_true, decide_eq_true_eq,
    List.contains_eq_mem] at h
  have hmarks : ∀ m ∈ Operator.unaryMarks, m ∉ Operator.assigning := by decide
  have hwords : ∀ w ∈ Operator.unaryWords, w ≠ "new" := by decide
  rcases h with ⟨hk, ht⟩ | ⟨hk, ht⟩
  · exact plain_of_isMark (m := t.text) (by simp [isMark, hk]) (hmarks _ ht)
  · exact plain_of_isWord (w := t.text) (by simp [isWord, hk]) (hwords _ ht)

theorem plain_of_mayOperate {p : Nat} (h : mayOperate t = true)
    (hp : Operator.precedence? t.text = some p) : t.Plain := by
  have hall : ∀ op ∈ Operator.assigning, Operator.precedence? op = none := by decide
  simp only [mayOperate, Bool.or_eq_true, decide_eq_true_eq] at h
  rcases h with (hk | hw) | hw
  · refine plain_of_isMark (m := t.text) (by simp [isMark, hk]) fun hmem => ?_
    rw [hall _ hmem] at hp
    cases hp
  · exact plain_of_isWord hw (by decide)
  · exact plain_of_isWord hw (by decide)

theorem plain_of_keyword? (h : (keyword? t).isSome = true) : t.Plain := by
  have htext : t.text ∈ ["const", "let", "var"] := by
    unfold keyword? at h
    split at h
    · simp_all
    split at h
    · simp_all
    split at h <;> simp_all
  have hall : ∀ w ∈ ["const", "let", "var"], w ≠ "new" ∧ w ∉ Operator.assigning := by decide
  obtain ⟨hnew, hassign⟩ := hall _ htext
  exact ⟨by simp [NotNew, isWord, hnew], by simp [isAssigning, hassign]⟩

end Token

namespace Cursor

open Token

variable {P Q : Token → Prop} {p : Token → Bool} {ts s r : List Token} {t : Token} {α : Type}

/-- Tokens have been taken from `ts` that may stand side by side, and `r` is left.  The first one of
them does not assign, and `Q` holds of the last one. -/
def Knit (Q : Token → Prop) (ts r : List Token) : Prop :=
  ∃ ws last, ts = ws ++ last :: r ∧ (ws ++ [last]).IsChain Meets ∧
    isAssigning (current ts) = false ∧ Q last

namespace Knit

theorem mono (h : Knit P ts r) (hPQ : ∀ t, P t → Q t) : Knit Q ts r := by
  obtain ⟨ws, last, heq, hchain, hfirst, hlast⟩ := h
  exact ⟨ws, last, heq, hchain, hfirst, hPQ last hlast⟩

theorem any (h : Knit P ts r) : Knit (fun _ => True) ts r :=
  h.mono fun _ _ => trivial

theorem length_lt (h : Knit Q ts r) : r.length < ts.length := by
  obtain ⟨ws, last, rfl, -⟩ := h
  rw [List.length_append, List.length_cons]
  omega

theorem single (ht : Front p ts t r) (ha : isAssigning t = false) (hq : Q t) : Knit Q ts r := by
  obtain ⟨rfl, -⟩ := ht
  exact ⟨[], t, rfl, List.isChain_singleton t, ha, hq⟩

/-- Two phrases, unless the word `new` ends the first one and starts the second one. -/
theorem trans (h : Knit P ts s) (h' : Knit Q s r) (hnew : ∀ t, P t → t.isWord "new" = true →
    (current s).isWord "new" = true → (current s).afterBreak = true) : Knit Q ts r := by
  obtain ⟨ws, last, rfl, hchain, hfirst, hlast⟩ := h
  obtain ⟨us, last', rfl, hchain', hfirst', hlast'⟩ := h'
  refine ⟨ws ++ last :: us, last', by simp, ?_, hfirst, hlast'⟩
  have hmeets : Meets last (current (us ++ last' :: r)) :=
    ⟨hnew last hlast, fun ha => absurd hfirst' (by simp [ha])⟩
  have hcut : ws ++ last :: us ++ [last'] = (ws ++ [last]) ++ (us ++ [last']) := by simp
  rw [hcut]
  refine hchain.append hchain' ?_
  intro x hx y hy
  obtain rfl : last = x := by simpa using hx
  cases us with
  | nil =>
    obtain rfl : last' = y := by simpa using hy
    exact hmeets
  | cons u us =>
    obtain rfl : u = y := by simpa using hy
    exact hmeets

theorem next (h : Knit NotNew ts s) (h' : Knit Q s r) : Knit Q ts r :=
  h.trans h' fun t ht hnew => absurd hnew (by simp [show t.isWord "new" = false from ht])

theorem behind (h : Knit P ts s) (ht : Front p s t r) (hplain : Plain t) (hq : Q t) :
    Knit Q ts r := by
  refine h.trans (single ht hplain.2 hq) fun _ _ _ hnew => ?_
  have hnot : t.isWord "new" = false := hplain.1
  rw [ht.1] at hnew
  exact absurd (hnot.symm.trans hnew) (by decide)

theorem mark {m : String} (h : Knit P ts s) (ht : Front (·.isMark m) s t r)
    (hm : m ∉ Operator.assigning) : Knit NotNew ts r :=
  h.behind ht (plain_of_isMark ht.2 hm) (notNew_of_isMark ht.2)

theorem word {w : String} (h : Knit P ts s) (ht : Front (·.isWord w) s t r) (hw : w ≠ "new") :
    Knit NotNew ts r :=
  h.behind ht (plain_of_isWord ht.2 hw) (plain_of_isWord ht.2 hw).1

theorem name (h : Knit P ts s) (ht : Front Token.isName s t r) : Knit NotNew ts r :=
  h.behind ht (plain_of_isName ht.2) (plain_of_isName ht.2).1

/-- A value behind what it is assigned to. -/
theorem assign (h : Knit (fun t => t.endsPlace = true) ts s) (ht : Front isAssigning s t r) :
    Knit NotNew ts r := by
  obtain ⟨ws, last, rfl, hchain, hfirst, hlast⟩ := h
  obtain ⟨rfl, ht⟩ := ht
  have hmark : t.NotNew := by
    simp only [isAssigning, Bool.and_eq_true, decide_eq_true_eq] at ht
    simp [NotNew, isWord, ht.1]
  refine ⟨ws ++ [last], t, by simp, ?_, hfirst, hmark⟩
  refine hchain.append (List.isChain_singleton t) ?_
  intro x hx y hy
  obtain rfl : last = x := by simpa using hx
  obtain rfl : t = y := by simpa using hy
  refine ⟨fun _ hnew => ?_, fun _ => hlast⟩
  exact absurd ((show t.isWord "new" = false from hmark).symm.trans hnew) (by decide)

end Knit

theorem knit_mark {m : String} (ht : Front (·.isMark m) ts t r) (hm : m ∉ Operator.assigning) :
    Knit NotNew ts r :=
  .single ht (plain_of_isMark ht.2 hm).2 (notNew_of_isMark ht.2)

theorem knit_word {w : String} (ht : Front (·.isWord w) ts t r) (hw : w ≠ "new") :
    Knit NotNew ts r :=
  .single ht (plain_of_isWord ht.2 hw).2 (plain_of_isWord ht.2 hw).1

theorem knit_name (ht : Front Token.isName ts t r) : Knit NotNew ts r :=
  .single ht (plain_of_isName ht.2).2 (plain_of_isName ht.2).1

/-- The last token of a statement in front of `r`: no `new`, unless the statement ends by itself. -/
def Stops (r : List Token) (t : Token) : Prop :=
  t.isWord "new" = true → endsStatement (current r) = true

theorem stops_of_notNew (h : t.NotNew) : Stops r t :=
  fun hnew => absurd ((show t.isWord "new" = false from h).symm.trans hnew) (by decide)

theorem Knit.semicolon (h : Knit P ts s) (hs : Takes (semicolon s) () r) :
    Knit (Stops r) ts r := by
  rcases takes_semicolon.1 hs with ⟨t, ht⟩ | ⟨-, hend, rfl⟩
  · exact (h.mark ht (by decide)).mono fun _ => stops_of_notNew
  · exact h.mono fun _ _ _ => hend

/-- Something behind a statement. -/
theorem Knit.line (h : Knit (Stops s) ts s) (h' : Knit Q s r) : Knit Q ts r := by
  refine h.trans h' fun t hstops ht hnew => ?_
  have hend := hstops ht
  have hk := (kind_of_isWord hnew).1
  simpa [endsStatement, isMark, isEnd, hk] using hend

/-- Items between commas, behind a mark. -/
theorem Knit.items {close : String} {item : List Token → α → List Token → Prop} {xs : List α}
    (n : Nat) (hitem : ∀ us x v, us.length ≤ n → item us x v → Knit (fun _ => True) us v)
    (hclose : close ∉ Operator.assigning) (h : Knit NotNew ts s) (hxs : Items close item s xs r)
    (hn : s.length ≤ n) : Knit NotNew ts r := by
  induction hxs with
  | nil ht => exact h.mark ht hclose
  | last _ hx _ ht => exact (h.next (hitem _ _ _ hn hx)).mark ht hclose
  | more _ hx ht _ ih =>
    have hitem := hitem _ _ _ hn hx
    have hcomma := hitem.mark ht (by decide)
    exact ih (h.next hcomma) (Nat.le_trans (Nat.le_of_lt hcomma.length_lt) hn)

end Cursor

namespace Grammar

open Token DebugGuard.Tree

variable {ts ts₀ s r : List Token} {e : Tree} {P : Token → Prop}

/-! ### Phrases without expressions -/

theorem importName_knit (h : Takes (importName ts) e r) : Knit (fun _ => True) ts r := by
  obtain ⟨n, s, hn, h⟩ := takes_importName.1 h
  have hk : n.kind = .identifier := by simpa using hn.2
  have hn : Knit (fun _ => True) ts s := .single hn (isAssigning_eq_false (by simp [hk])) trivial
  rcases h with ⟨-, rfl, rfl⟩ | ⟨t, s', ht, b, s'', hb, rfl, rfl⟩
  · exact hn
  · exact ((hn.word ht (by decide)).name hb).any

theorem importSource_knit {start : Nat} {specifiers : List Tree} (h₀ : Knit P ts₀ ts)
    (h : Takes (importSource start specifiers ts) e r) : Knit (Stops r) ts₀ r := by
  obtain ⟨w, s, hw, t, s', ht, s'', hs, rfl, rfl⟩ := takes_importSource.1 h
  have hk : t.kind = .string := by simpa using ht.2
  have ht : Knit (fun _ => True) s s' := .single ht (isAssigning_eq_false (by simp [hk])) trivial
  exact ((h₀.word hw (by decide)).next ht).semicolon hs

theorem importNames_knit {xs : List Tree} (h : Takes (importNames ts) xs r) :
    Knit NotNew ts r := by
  rcases takes_importNames.1 h with ⟨t, s, ht, w, s', hw, b, s'', hb, rfl, rfl⟩ |
    ⟨-, t, s, ht, xs, s', hxs, rfl, rfl⟩
  · exact ((knit_mark ht (by decide)).word hw (by decide)).name hb
  · exact .items s.length (fun _ _ _ _ => importName_knit) (by decide) (knit_mark ht (by decide)) hxs
      (Nat.le_refl _)

theorem importStatement_knit (h : Takes (importStatement ts) e r) : Knit (Stops r) ts r := by
  obtain ⟨w, s, hw, h⟩ := takes_importStatement.1 h
  have hw := knit_word hw (by decide)
  rcases h with ⟨-, t, s', ht, s'', hs, rfl, rfl⟩ | ⟨-, b, s', hb, h⟩ |
    ⟨-, xs, s', hxs, e, s'', he, rfl, rfl⟩
  · have hk : t.kind = .string := by simpa using ht.2
    have ht : Knit (fun _ => True) s s' := .single ht (isAssigning_eq_false (by simp [hk])) trivial
    exact (hw.next ht).semicolon hs
  · have hb := hw.name hb
    rcases h with ⟨-, e, s'', he, rfl, rfl⟩ | ⟨c, s₂, hc, xs, s₃, hxs, e, s₄, he, rfl, rfl⟩
    · exact importSource_knit hb he
    · exact importSource_knit ((hb.mark hc (by decide)).next (importNames_knit hxs)) he
  · exact importSource_knit (hw.next (importNames_knit hxs)) he

theorem parameters_knit {xs : List String} (h : Takes (parameters ts) xs r) : Knit NotNew ts r := by
  obtain ⟨t, s, ht, ns, s', hns, rfl, rfl⟩ := takes_parameters.1 h
  exact .items s.length (fun _ _ _ _ h => (knit_name h).any) (by decide) (knit_mark ht (by decide))
    hns (Nat.le_refl _)

theorem arrowParameters_knit {xs : List String} (h : Takes (arrowParameters ts) xs r) :
    Knit NotNew ts r := by
  rcases takes_arrowParameters.1 h with ⟨-, h⟩ | ⟨-, n, s, hn, rfl, rfl⟩
  · exact parameters_knit h
  · exact knit_name hn

theorem propertyKey_knit {k : String × Bool} (h : Takes (propertyKey ts) k r) :
    Knit (fun _ => True) ts r := by
  rcases takes_propertyKey.1 h with ⟨t, s, ht, rfl, rfl⟩ | ⟨-, t, s, ht, rfl, rfl⟩
  · have hk : t.kind = .string := by simpa using ht.2
    exact .single ht (isAssigning_eq_false (by simp [hk])) trivial
  · have hk : t.kind = .number ∨ t.kind = .identifier := by simpa using ht.2
    exact .single ht (isAssigning_eq_false (by rcases hk with hk | hk <;> simp [hk])) trivial

/-! ### Statements and expressions -/

/-- The last token of an expression: that of a place, if the expression may be assigned to. -/
def EndsLike (e : Tree) (t : Token) : Prop :=
  e.topIs Node.isAssignable = true → t.endsPlace = true

theorem endsLike_of_topIs {t : Token} (h : e.topIs Node.isAssignable = false) : EndsLike e t :=
  fun ha => absurd (h.symm.trans ha) (by decide)

theorem plain_of_atom? {t : Token} (h : (atom? t).isSome = true) (pos : Nat) :
    t.Plain ∧ EndsLike ((atom? t).elim .absent (.node pos)) t := by
  obtain ⟨top, htop⟩ := Option.isSome_iff_exists.1 h
  rw [htop, Option.elim_some]
  rw [atom?] at htop
  split at htop
  · next hk =>
    cases htop
    exact ⟨⟨by simp [NotNew, isWord, hk], isAssigning_eq_false (by simp [hk])⟩,
      endsLike_of_topIs rfl⟩
  · next hk =>
    cases htop
    exact ⟨⟨by simp [NotNew, isWord, hk], isAssigning_eq_false (by simp [hk])⟩,
      endsLike_of_topIs rfl⟩
  · next hk =>
    have hnew : t.text ≠ "new" := by
      intro hnew
      rw [hnew] at htop
      exact absurd htop (by simp [Token.isReserved, Token.reservedWords])
    exact ⟨⟨by simp [NotNew, isWord, hnew], isAssigning_eq_false (by simp [hk])⟩,
      fun _ => by simp [endsPlace, hk]⟩
  · cases htop

/-- Statements and expressions of fewer than `n` tokens are knit. -/
structure KnitBelow (n : Nat) : Prop where
  statement {ts r : List Token} {e : Tree} (hn : ts.length < n) (h : Takes (statement ts) e r) :
    Knit (Stops r) ts r
  expression {ts r : List Token} {e : Tree} (hn : ts.length < n) (h : Takes (expression ts) e r) :
    Knit (fun _ => True) ts r

section

variable {n : Nat} (ih : KnitBelow n)

include ih

theorem arguments_knit {args : List Tree} (hlen : ts.length ≤ n) (h₀ : Knit P ts₀ ts)
    (h : Takes (arguments ts) args r) : Knit NotNew ts₀ r := by
  obtain ⟨t, s, ht, xs, s', hxs, rfl, rfl⟩ := takes_arguments.1 h
  have hs : s.length < n := Nat.lt_of_lt_of_le (knit_mark ht (by decide)).length_lt hlen
  exact .items (n - 1) (fun us x v hus hx => ih.expression (by omega) hx) (by decide)
    (h₀.mark ht (by decide)) hxs (by omega)

theorem statements_knit {body : List Tree} (hlen : ts.length < n) (h₀ : Knit (Stops ts) ts₀ ts)
    (h : Takes (statements ts) body r) : Knit NotNew ts₀ r := by
  induction body generalizing ts with
  | nil =>
    rcases takes_statements.1 h with ⟨t, s, ht, -, rfl⟩ | ⟨-, -, e, s, -, more, s', -, heq, -⟩
    · exact h₀.mark ht (by decide)
    · cases heq
  | cons e body ihb =>
    rcases takes_statements.1 h with ⟨t, s, -, heq, -⟩ | ⟨-, -, e, s, he, more, s', hmore, heq, rfl⟩
    · cases heq
    · cases heq
      have he := ih.statement hlen he
      exact ihb (Nat.lt_trans he.length_lt hlen) (h₀.line he) hmore

theorem block_knit (hlen : ts.length ≤ n) (h : Takes (block ts) e r) : Knit NotNew ts r := by
  obtain ⟨t, s, ht, body, s', hbody, rfl, rfl⟩ := takes_block.1 h
  have ht := knit_mark ht (by decide)
  exact statements_knit ih (Nat.lt_of_lt_of_le ht.length_lt hlen)
    (ht.mono fun _ => stops_of_notNew) hbody

theorem function_knit {params : List String} {body : Tree} (hlen : ts.length ≤ n)
    (h₀ : Knit NotNew ts₀ ts) (hp : Takes (parameters ts) params s) (hb : Takes (block s) body r) :
    Knit NotNew ts₀ r := by
  have hp := parameters_knit hp
  exact (h₀.next hp).next (block_knit ih (Nat.le_trans (Nat.le_of_lt hp.length_lt) hlen) hb)

theorem functionExpression_knit (hlen : ts.length ≤ n) (h : Takes (functionExpression ts) e r) :
    Knit NotNew ts r := by
  obtain ⟨w, s, hw, h⟩ := takes_functionExpression.1 h
  have hw := knit_word hw (by decide)
  have hs := hw.length_lt
  rcases h with ⟨-, n', s', hn, params, s'', hp, body, s₃, hb, rfl, rfl⟩ |
    ⟨-, params, s', hp, body, s'', hb, rfl, rfl⟩
  · have hname := hw.name hn
    exact function_knit ih (Nat.le_trans (Nat.le_of_lt hname.length_lt) hlen) hname hp hb
  · exact function_knit ih (by omega) hw hp hb

theorem property_knit (hlen : ts.length ≤ n) (h : Takes (property ts) e r) :
    Knit (fun _ => True) ts r := by
  obtain ⟨k, s, hk, h⟩ := takes_property.1 h
  have hk := propertyKey_knit hk
  rcases h with ⟨c, s', hc, v, s'', hv, rfl, rfl⟩ | ⟨-, -, rfl, rfl⟩
  · have hcolon := hk.mark hc (by decide)
    exact hcolon.next (ih.expression (Nat.lt_of_lt_of_le hcolon.length_lt hlen) hv)
  · exact hk

/-- A primary expression is knit, and does not start with the word `new`. -/
theorem primary_knit (hlen : ts.length ≤ n) (h : Takes (primary ts) e r) :
    Knit (EndsLike e) ts r ∧ (current ts).NotNew := by
  have first {p : Token → Bool} {t : Token} {s : List Token} (ht : Front p ts t s) (hplain : t.Plain) :
      (current ts).NotNew := by
    rw [ht.1]
    exact hplain.1
  rcases takes_primary.1 h with ⟨t, s, ht, rfl, rfl⟩ | ⟨-, ⟨hw, h⟩ |
    ⟨t, s, ht, x, s', hx, c, s'', hc, rfl, rfl⟩ | ⟨t, s, ht, ps, s', hps, rfl, rfl⟩ |
    ⟨t, s, ht, es, s', hes, rfl, rfl⟩⟩
  · obtain ⟨hplain, hends⟩ := plain_of_atom? ht.2 (start ts)
    refine ⟨.single ht hplain.2 hends, ?_⟩
    rw [ht.1]
    exact hplain.1
  · obtain ⟨w, s, hw, -⟩ := takes_functionExpression.1 h
    refine ⟨(functionExpression_knit ih hlen h).mono fun _ _ => endsLike_of_topIs ?_, ?_⟩
    · rcases takes_functionExpression.1 h with ⟨_, _, -, ⟨-, _, _, -, _, _, -, _, _, -, rfl, -⟩ |
        ⟨-, _, _, -, _, _, -, rfl, -⟩⟩ <;> rfl
    · exact first hw (plain_of_isWord hw.2 (by decide))
  · have hopen := knit_mark ht (by decide)
    have hx := ih.expression (Nat.lt_of_lt_of_le hopen.length_lt hlen) hx
    exact ⟨((hopen.next hx).mark hc (by decide)).mono fun _ _ => endsLike_of_topIs rfl,
      first ht (plain_of_isMark ht.2 (by decide))⟩
  · have hopen := knit_mark ht (by decide)
    have hs := Nat.lt_of_lt_of_le hopen.length_lt hlen
    have hps := hopen.items n (fun us x v hus hx => property_knit ih hus hx) (by decide) hps
      (Nat.le_of_lt hs)
    exact ⟨hps.mono fun _ _ => endsLike_of_topIs rfl, first ht (plain_of_isMark ht.2 (by decide))⟩
  · have hopen := knit_mark ht (by decide)
    have hs := Nat.lt_of_lt_of_le hopen.length_lt hlen
    have hes := hopen.items (n - 1) (fun us x v hus hx => ih.expression (by omega) hx) (by decide)
      hes (Nat.le_sub_one_of_lt hs)
    exact ⟨hes.mono fun _ _ => endsLike_of_topIs rfl, first ht (plain_of_isMark ht.2 (by decide))⟩

theorem access_knit {start : Nat} {object : Tree} (hlen : ts.length ≤ n) (h₀ : Knit P ts₀ ts)
    (h : Finds (access? start object ts) e r) : Knit (EndsLike e) ts₀ r := by
  rcases finds_access?.1 h with ⟨d, s, hd, m, s', hm, rfl, rfl⟩ |
    ⟨-, b, s, hb, i, s', hi, c, s'', hc, rfl, rfl⟩
  · have hk : m.kind = .identifier := by simpa using hm.2
    refine (h₀.mark hd (by decide)).next (.single hm (isAssigning_eq_false (by simp [hk])) ?_)
    exact fun _ => by simp [endsPlace, hk]
  · have hs := (knit_mark hb (by decide)).length_lt
    have hi := ih.expression (Nat.lt_of_lt_of_le hs hlen) hi
    refine ((h₀.mark hb (by decide)).next hi).behind hc (plain_of_isMark hc.2 (by decide)) ?_
    exact fun _ => by simp [endsPlace, hc.2]

theorem accessTail_knit {ts₀ ts r : List Token} {object e : Tree} {start : Nat}
    (hlen : ts.length ≤ n) (h₀ : Knit (EndsLike object) ts₀ ts)
    (h : Takes (accessTail start object ts) e r) : Knit (EndsLike e) ts₀ r := by
  rcases takes_accessTail.1 h with ⟨-, rfl, rfl⟩ | ⟨o, s, ho, x, s', hx, rfl, rfl⟩
  · exact h₀
  · have := ho.shorter
    exact accessTail_knit (by omega) (access_knit ih hlen h₀ ho) hx
termination_by ts.length

theorem construct_knit (hlen : ts.length ≤ n) (h : Takes (construct ts) e r) :
    Knit (EndsLike e) ts r := by
  obtain ⟨w, s, hw, o, s', ho, c, s'', hc, h⟩ := takes_construct.1 h
  have hk := (kind_of_isWord hw.2).1
  have hnew : Knit (fun _ => True) ts s := .single hw (isAssigning_eq_false (by simp [hk])) trivial
  have := hnew.length_lt
  -- behind `new` stands something primary, so no other `new`
  obtain ⟨ho, hfirst⟩ := primary_knit ih (by omega) ho
  have := ho.length_lt
  have ho := hnew.trans ho fun _ _ _ hnew => absurd (hfirst.symm.trans hnew) (by decide)
  have hc := accessTail_knit ih (by omega) ho hc
  have := hc.length_lt
  rcases h with ⟨-, args, s₃, hargs, rfl, rfl⟩ | ⟨-, rfl, rfl⟩
  · exact (arguments_knit ih (by omega) hc hargs).mono fun _ _ => endsLike_of_topIs rfl
  · exact hc.mono fun _ _ => endsLike_of_topIs rfl

theorem callTail_knit {ts₀ ts r : List Token} {callee e : Tree} {start : Nat}
    (hlen : ts.length ≤ n) (h₀ : Knit (EndsLike callee) ts₀ ts)
    (h : Takes (callTail start callee ts) e r) : Knit (EndsLike e) ts₀ r := by
  rcases takes_callTail.1 h with ⟨-, args, s, hargs, x, s', hx, rfl, rfl⟩ |
    ⟨-, ⟨-, rfl, rfl⟩ | ⟨o, s, ho, x, s', hx, rfl, rfl⟩⟩
  · have := hargs.shorter
    have hcall : Knit (EndsLike (.node start (.call callee args))) ts₀ s :=
      (arguments_knit ih hlen h₀ hargs).mono fun _ _ => endsLike_of_topIs rfl
    exact callTail_knit (by omega) hcall hx
  · exact h₀
  · have := ho.shorter
    exact callTail_knit (by omega) (access_knit ih hlen h₀ ho) hx
termination_by ts.length

theorem unary_knit {ts r : List Token} {e : Tree} (hlen : ts.length ≤ n)
    (h : Takes (unary ts) e r) : Knit (EndsLike e) ts r := by
  rcases takes_unary.1 h with ⟨op, s, hop, x, s', hx, rfl, rfl⟩ | ⟨-, c, s, hc, x, s', hx, rfl, rfl⟩
  · have hplain := plain_of_isUnary hop.2
    have hop : Knit NotNew ts s := .single hop hplain.2 hplain.1
    have := hop.length_lt
    exact (hop.next (unary_knit (by omega) hx)).mono fun _ _ => endsLike_of_topIs rfl
  · have hc : Knit (EndsLike c) ts s := by
      split at hc
      · exact construct_knit ih hlen hc
      · exact (primary_knit ih hlen hc).1
    exact callTail_knit ih (Nat.le_trans (Nat.le_of_lt hc.length_lt) hlen) hc hx
termination_by ts.length

set_option linter.unusedSectionVars false in
mutual

theorem binary_knit {ts r : List Token} {e : Tree} {least : Nat} (hlen : ts.length ≤ n)
    (h : Takes (binary least ts) e r) : Knit (EndsLike e) ts r := by
  obtain ⟨l, s, hl, x, s', hx, rfl, rfl⟩ := takes_binary.1 h
  have := hl.shorter
  exact binaryTail_knit (by omega) (unary_knit ih hlen hl) hx
termination_by (ts.length, 1)

theorem binaryTail_knit {ts₀ ts r : List Token} {left e : Tree} {start least : Nat}
    (hlen : ts.length ≤ n) (h₀ : Knit (EndsLike left) ts₀ ts)
    (h : Takes (binaryTail start least left ts) e r) : Knit (EndsLike e) ts₀ r := by
  rcases takes_binaryTail.1 h with ⟨-, rfl, rfl⟩ | ⟨op, p, s, hop, x, s', hx, y, s'', hy, rfl, rfl⟩
  · exact h₀
  · obtain ⟨t, ht, rfl, hp, -⟩ := operates_iff.1 hop
    have hplain := plain_of_mayOperate ht.2 hp
    have := ht.length
    have hx := binary_knit (by omega) hx
    have := hx.length_lt
    have hbinary : Knit (EndsLike (.node start (.binary left t.text x))) ts₀ s' :=
      ((h₀.behind ht hplain hplain.1).next hx).mono fun _ _ => endsLike_of_topIs rfl
    exact binaryTail_knit (by omega) hbinary hy
termination_by (ts.length, 0)

end

theorem conditional_knit (hlen : ts.length ≤ n) (h : Takes (conditional ts) e r) :
    Knit (EndsLike e) ts r := by
  obtain ⟨c, s, hc, h⟩ := takes_conditional.1 h
  have hc := binary_knit ih hlen hc
  rcases h with ⟨-, rfl, rfl⟩ | ⟨q, s', hq, y, s₂, hy, k, s₃, hk, n, s₄, hn, rfl, rfl⟩
  · exact hc
  · have hq := hc.mark hq (by decide)
    have hy := hq.next (ih.expression (Nat.lt_of_lt_of_le hq.length_lt hlen) hy)
    have hk := hy.mark hk (by decide)
    have hn := hk.next (ih.expression (Nat.lt_of_lt_of_le hk.length_lt hlen) hn)
    exact hn.mono fun _ _ => endsLike_of_topIs rfl

theorem arrow_knit (hlen : ts.length ≤ n) (h : Takes (arrow ts) e r) :
    Knit (fun _ => True) ts r := by
  obtain ⟨params, s, hp, t, s', ht, body, s'', hb, rfl, rfl⟩ := takes_arrow.1 h
  have hsign := (arrowParameters_knit hp).mark ht (by decide)
  have hlt := Nat.lt_of_lt_of_le hsign.length_lt hlen
  split at hb
  · exact (hsign.next (block_knit ih (Nat.le_of_lt hlt) hb)).any
  · exact hsign.next (ih.expression hlt hb)

theorem expression_knit (hlen : ts.length ≤ n) (h : Takes (expression ts) e r) :
    Knit (fun _ => True) ts r := by
  rcases takes_expression.1 h with ⟨-, h⟩ | ⟨-, t, s, ht, h⟩
  · exact arrow_knit ih hlen h
  · have ht := conditional_knit ih hlen ht
    rcases h with ⟨-, rfl, rfl⟩ | ⟨op, s', hop, ha, v, s'', hv, rfl, rfl⟩
    · exact ht.any
    · have hop := (ht.mono fun _ hends => hends ha).assign hop
      exact hop.next (ih.expression (Nat.lt_of_lt_of_le hop.length_lt hlen) hv)

theorem initializer_knit {keyword : VarKeyword} (hlen : ts.length ≤ n)
    (h₀ : Knit (fun t => t.endsPlace = true) ts₀ ts) (h : Takes (initializer keyword ts) e r) :
    Knit (fun _ => True) ts₀ r := by
  rcases takes_initializer.1 h with ⟨t, s, ht, x, s', hx, rfl, rfl⟩ | ⟨-, -, rfl, rfl⟩
  · have hassign : Front isAssigning ts t s := by
      obtain ⟨hk, htext⟩ := kind_of_isMark ht.2
      exact ⟨ht.1, by simp [isAssigning, hk, htext, Operator.assigning]⟩
    have := ht.length
    exact (h₀.assign hassign).next (ih.expression (by omega) hx)
  · exact h₀.any

theorem declarators_knit {ts₀ ts r : List Token} {keyword : VarKeyword} {ds : List Tree}
    (hlen : ts.length ≤ n) (h₀ : Knit NotNew ts₀ ts) (h : Takes (declarators keyword ts) ds r) :
    Knit (fun _ => True) ts₀ r := by
  obtain ⟨m, s, hm, init, s', hinit, h⟩ := takes_declarators.1 h
  have hk := (kind_of_isName hm.2).1
  have hlt := hm.length
  have hm := h₀.behind hm (plain_of_isName hm.2) (Q := fun t => t.endsPlace = true)
    (by simp [endsPlace, hk])
  have hinit' := initializer_knit ih (by omega) hm hinit
  rcases h with ⟨-, rfl, rfl⟩ | ⟨c, s₂, hc, more, s₃, hmore, rfl, rfl⟩
  · exact hinit'
  · have := hc.length
    have := hinit.bound
    exact declarators_knit (by omega) (hinit'.mark hc (by decide)) hmore
termination_by ts.length

theorem varDeclaration_knit (hlen : ts.length ≤ n) (h : Takes (varDeclaration ts) e r) :
    Knit (Stops r) ts r := by
  obtain ⟨t, s, ht, ds, s', hds, s'', hs, rfl, rfl⟩ := takes_varDeclaration.1 h
  have hplain := plain_of_keyword? ht.2
  have ht : Knit NotNew ts s := .single ht hplain.2 hplain.1
  exact (declarators_knit ih (Nat.le_trans (Nat.le_of_lt ht.length_lt) hlen) ht hds).semicolon hs

theorem functionDeclaration_knit (hlen : ts.length ≤ n) (h : Takes (functionDeclaration ts) e r) :
    Knit NotNew ts r := by
  obtain ⟨w, s, hw, m, s', hm, params, s'', hp, body, s₃, hb, rfl, rfl⟩ :=
    takes_functionDeclaration.1 h
  have hm := (knit_word hw (by decide)).name hm
  exact function_knit ih (Nat.le_trans (Nat.le_of_lt hm.length_lt) hlen) hm hp hb

theorem ifStatement_knit (hlen : ts.length ≤ n) (h : Takes (ifStatement ts) e r) :
    Knit (Stops r) ts r := by
  obtain ⟨w, s, hw, a, s', ha, c, s₂, hc, b, s₃, hb, y, s₄, hy, h⟩ := takes_ifStatement.1 h
  have ha := (knit_word hw (by decide)).mark ha (by decide)
  have hc := ha.next (ih.expression (Nat.lt_of_lt_of_le ha.length_lt hlen) hc)
  have hb := hc.mark hb (by decide)
  have hy := hb.next (ih.statement (Nat.lt_of_lt_of_le hb.length_lt hlen) hy)
  rcases h with ⟨-, rfl, rfl⟩ | ⟨t, s₅, ht, m, s₆, hm, rfl, rfl⟩
  · exact hy
  · have ht := hy.word ht (by decide)
    exact ht.next (ih.statement (Nat.lt_of_lt_of_le ht.length_lt hlen) hm)

/-- An expression behind a word, at the end of a statement. -/
theorem sentence_knit {x : Tree} (hlen : ts₀.length ≤ n) (h₀ : Knit NotNew ts₀ ts)
    (hx : Takes (expression ts) x s) (hs : Takes (semicolon s) () r) : Knit (Stops r) ts₀ r :=
  (h₀.next (ih.expression (Nat.lt_of_lt_of_le h₀.length_lt hlen) hx)).semicolon hs

theorem returnStatement_knit (hlen : ts.length ≤ n) (h : Takes (returnStatement ts) e r) :
    Knit (Stops r) ts r := by
  obtain ⟨w, s, hw, h⟩ := takes_returnStatement.1 h
  have hw := knit_word hw (by decide)
  rcases h with ⟨-, s', hs, rfl, rfl⟩ | ⟨-, x, s', hx, s'', hs, rfl, rfl⟩
  · exact hw.semicolon hs
  · exact sentence_knit ih hlen hw hx hs

theorem throwStatement_knit (hlen : ts.length ≤ n) (h : Takes (throwStatement ts) e r) :
    Knit (Stops r) ts r := by
  obtain ⟨w, s, hw, -, x, s', hx, s'', hs, rfl, rfl⟩ := takes_throwStatement.1 h
  exact sentence_knit ih hlen (knit_word hw (by decide)) hx hs

theorem exportStatement_knit (hlen : ts.length ≤ n) (h : Takes (exportStatement ts) e r) :
    Knit (Stops r) ts r := by
  obtain ⟨w, s, hw, ⟨t, s', ht, x, s₂, hx, s₃, hs₃, rfl, rfl⟩ | ⟨-, d, s', hd, rfl, rfl⟩⟩ :=
    takes_exportStatement.1 h
  · have ht := (knit_word hw (by decide)).word ht (by decide)
    have hlt := Nat.lt_of_lt_of_le ht.length_lt hlen
    split at hx
    · exact (ht.next (functionExpression_knit ih (Nat.le_of_lt hlt) hx)).semicolon hs₃
    · exact sentence_knit ih hlen ht hx hs₃
  · have hw := knit_word hw (by decide)
    have hlt := Nat.le_trans (Nat.le_of_lt hw.length_lt) hlen
    split at hd
    · exact hw.next (varDeclaration_knit ih hlt hd)
    · exact (hw.next (functionDeclaration_knit ih hlt hd.2)).mono fun _ => stops_of_notNew

theorem statement_knit (hlen : ts.length ≤ n) (h : Takes (statement ts) e r) :
    Knit (Stops r) ts r := by
  -- one case for each word that a statement may start with
  replace h := takes_statement.1 h
  dsimp only at h
  split at h
  · exact (block_knit ih hlen h).mono fun _ => stops_of_notNew
  split at h
  · obtain ⟨t, s, ht, rfl, rfl⟩ := h
    exact (knit_mark ht (by decide)).mono fun _ => stops_of_notNew
  split at h
  · exact importStatement_knit h
  split at h
  · exact exportStatement_knit ih hlen h
  split at h
  · exact varDeclaration_knit ih hlen h
  split at h
  · exact varDeclaration_knit ih hlen h
  split at h
  · exact (functionDeclaration_knit ih hlen h).mono fun _ => stops_of_notNew
  split at h
  · exact ifStatement_knit ih hlen h
  split at h
  · exact returnStatement_knit ih hlen h
  split at h
  · exact throwStatement_knit ih hlen h
  · obtain ⟨x, s, hx, s', hs, rfl, rfl⟩ := takes_expressionStatement.1 h
    exact (expression_knit ih hlen hx).semicolon hs

end

theorem knitBelow (n : Nat) : KnitBelow n := by
  induction n with
  | zero => exact ⟨fun h => absurd h (Nat.not_lt_zero _), fun h => absurd h (Nat.not_lt_zero _)⟩
  | succ n ih =>
    exact ⟨fun hn => statement_knit ih (Nat.le_of_lt_succ hn),
      fun hn => expression_knit ih (Nat.le_of_lt_succ hn)⟩

/-- **Tokens that stand side by side.**  In an expression, no word `new` follows another one on its
line, and an assigning mark follows a name or a closing bracket only. -/
theorem meets_of_expression (h : Takes (expression ts) e r) :
    ∃ ws, ts = ws ++ r ∧ ws.IsChain Meets := by
  obtain ⟨ws, last, rfl, hchain, -⟩ := (knitBelow (ts.length + 1)).expression (Nat.lt_succ_self _) h
  exact ⟨ws ++ [last], by simp, hchain⟩

end Grammar

end DebugGuard
