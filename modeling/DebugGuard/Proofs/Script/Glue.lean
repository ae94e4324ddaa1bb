import DebugGuard.Proofs.Script.Part
import DebugGuard.Proofs.Script.Printed
import DebugGuard.Proofs.Script.StatementReadback

/-!
# What printed trees consist of

The words of a printed tree are such that the scanner knows, its numerals are those of the tree, and
no word runs into the next but where the tree accesses a member of a plain number (`Tree.joins`).
-/

namespace DebugGuard

open Piece

/-! ### Operators -/

theorem valid_operator {op : String}
    (h : op ∈ Operator.unaryMarks ++ Operator.unaryWords ++ Operator.binary ++ Operator.assigning) :
    (Word.operator op).Valid ∧ (Word.operator op).kind ≠ .number ∧ Word.operator op ≠ ⟨.mark, "."⟩ := by
  have hall : ∀ op ∈ Operator.unaryMarks ++ Operator.unaryWords ++ Operator.binary ++
      Operator.assigning, (Word.operator op).isKnown = true ∧ (Word.operator op).kind ≠ .number ∧
        Word.operator op ≠ ⟨.mark, "."⟩ := by decide +kernel
  obtain ⟨hk, hrest⟩ := hall op h
  exact ⟨Word.valid_of_isKnown hk, hrest⟩

theorem Operator.rank_le (op : String) : (precedence? op).getD 0 ≤ 9 := by
  cases hp : precedence? op with
  | none => exact Nat.zero_le _
  | some p => exact (Grammar.precedence_bounds hp).2

/-! ### Glued accesses -/

namespace Tree

/-- A number of digits alone. -/
def isPlainNumber : Tree → Bool
  | .node _ (.literal (.number s)) => isWhole s.toList
  | _ => false

end Tree

/-- The access of a member of a plain number, whose point would be read as part of the number. -/
def Node.joins : Node Tree → Bool
  | .member o _ => o.isPlainNumber
  | _ => false

namespace Tree

variable {depth pos : Nat} {t : Tree}

/-- Somewhere in the tree, a member of a plain number is accessed. -/
def joins (t : Tree) : Bool :=
  t.nodes.any Node.joins

theorem joins_node {top : Node Tree} :
    joins (.node pos top) = (top.joins || top.children.any joins) := by
  rw [joins, nodes_node, List.any_cons, List.any_flatMap]
  rfl

@[simp] theorem joins_absent : joins .absent = false := rfl

/-- The pieces are those of the tree. -/
def Shows (ps : List Piece) (t : Tree) : Prop :=
  Printed ps t.numerals t.joins

/-- The pieces of a node whose numerals and joins are those of its children. -/
theorem shows_node {ps : List Piece} {top : Node Tree} (hl : ∀ v, top ≠ .literal v)
    (hp : ∀ key quoted v shorthand, top ≠ .property key quoted v shorthand)
    (h : Printed ps (top.children.flatMap numerals) (top.joins || top.children.any joins)) :
    Shows ps (.node pos top) := by
  rw [Shows, numerals_node hl hp, joins_node]
  exact h

/-- The tree is printed as each phrase that it fits. -/
structure Prints (t : Tree) : Prop where
  expression : Fits .expression t → ∀ depth, Shows (Render.expression depth 0 t) t
  property : Fits .property t → ∀ depth, Shows (Render.propertyOf depth t) t
  declarator : ∀ keyword, Fits (.declarator keyword) t →
    ∀ depth, Shows (Render.declaratorOf depth t) t
  statement : Fits .statement t → ∀ depth, Shows (Render.statement depth t) t

theorem render_block {body : Tree} (h : body.topIs Node.isBlock = true) :
    Render.block depth body = Render.statement depth body := by
  match body, h with
  | .node pos (.block ss), _ =>
    simp [Render.statement, Render.block, Node.isStatement, Render.sentence, Render.braced]

theorem printed_names {names : List String} (h : ∀ x ∈ names, IsBindable x) :
    Printed (commas (names.map fun x => [Piece.name x])) [] false := by
  have := Printed.commas (N := fun _ => []) (G := fun _ => false) fun x hx =>
    Printed.name (h x hx).1 .nil trivial
  rwa [Grammar.flatMap_nil, List.any_eq_false.2 (by simp)] at this

theorem printed_parameters {params : List String} (h : ∀ x ∈ params, IsBindable x) :
    Printed (Render.parameters params) [] false :=
  .solid (by decide) ((printed_names h).close (by decide) (by decide))

theorem printed_expressions {es : List Tree}
    (h : ∀ e ∈ es, Shows (Render.expression depth 0 e) e) :
    Printed (commas (Render.expressions depth es)) (es.flatMap numerals) (es.any joins) := by
  rw [render_expressions]
  exact .commas h

theorem block_ends (depth : Nat) (body : Tree) :
    ∃ ps, Render.block depth body = ps ++ [Piece.mark "\x7d"] := by
  have braces (isEmpty : Bool) (lines : List Piece) :
      ∃ ps, Render.braces depth isEmpty lines = ps ++ [Piece.mark "\x7d"] := by
    rw [Render.braces]
    split
    · exact ⟨[Piece.mark "\x7b"], rfl⟩
    · exact ⟨_, List.append_cons ..⟩
  cases body with
  | absent | dangling => exact ⟨[Piece.mark "\x7b"], rfl⟩
  | node _ top =>
    rw [Render.block]
    cases top with
    | block | program => exact braces ..
    | _ => exact ⟨[Piece.mark "\x7b"], rfl⟩

/-- The last word of an operand is a plain number only if the operand is one. -/
theorem endsWhole_operand {top : Node Tree} (h : top.isExpression = true) :
    endsWhole (Render.expression depth Strength.call (.node pos top)) =
      isPlainNumber (.node pos top) := by
  have last {ps : List Piece} {p : Piece} (hp : wholeNumber p = false) :
      endsWhole (ps ++ [p]) = false := by simp [endsWhole, hp]
  rw [Render.expression, Render.inParens]
  split
  · next hs =>
    -- parentheses stand around what binds too loosely
    rw [last rfl]
    cases top with
    | literal => exact absurd (of_decide_eq_true hs) (by simp only [Node.strength]; decide)
    | _ => rfl
  · next hs =>
    cases top with
    | member =>
      rw [Render.bare, List.append_cons]
      exact last rfl
    | call | construct | element | parenthesized | array =>
      rw [Render.bare]
      exact last rfl
    | object ps =>
      rw [Render.bare]
      split
      · rfl
      · rw [List.append_cons _ space]
        exact last rfl
    | functionExpression x params body =>
      obtain ⟨ps, hps⟩ := block_ends depth body
      rw [Render.bare, hps, ← List.cons_append, ← List.append_assoc]
      exact last rfl
    | identifier => rw [Render.bare]; rfl
    | literal v =>
      rw [Render.bare]
      cases v with
      | boolean value => cases value <;> rfl
      | _ => rfl
    | binary l op r =>
      have hle := Operator.rank_le op
      refine absurd (decide_eq_true ?_) hs
      simp only [Node.strength, Strength.operators, Strength.call]
      omega
    | unary | assignment | conditional | arrow =>
      exact absurd (decide_eq_true (by simp only [Node.strength]; decide)) hs
    | _ => cases h

theorem literal_shows {v : Literal} (hv : v.word.Valid) :
    Shows [Render.literal v] (.node pos (.literal v)) := by
  match v, hv with
  | .number s, hv =>
    rw [Shows, numerals_number, joins_node]
    exact .number hv .nil trivial (by simp)
  | .string s, hv =>
    rw [Shows, numerals_literal (by simp), joins_node]
    exact .string .nil
  | .boolean true, hv | .boolean false, hv | .null, hv =>
    rw [Shows, numerals_literal (by simp), joins_node]
    exact .keyword (by decide) .nil trivial

theorem starts_of_render {w : Word} {rest : List Piece} (hf : Fits .expression t)
    (h : Render.expression depth 0 t = .word w :: rest) : w.starts = true := by
  have hs := spells_tokens (Render.expression depth 0 t) 0 false []
  have hstarts := starts_current hf hs
  rwa [h] at hstarts

/-- The first character of an expression carries no mark on. -/
theorem head_of_starts {w : Word} (hv : w.Valid) (hs : w.starts = true) :
    ∃ c r, w.written = c :: r ∧ c ∉ ['=', '>', '&', '|', '?', '/', '*'] := by
  have hall : ['=', '>', '&', '|', '?', '/', '*'].all fun c => decide
      (Scan.isNameStart c = false ∧ c.isDigit = false ∧ c ≠ '.') := by decide
  simp only [List.all_eq_true, decide_eq_true_eq] at hall
  obtain ⟨kind, text⟩ := w
  cases kind with
  | string => exact ⟨'"', _, by simp [Word.written, Text.quoted]; rfl, by decide⟩
  | identifier =>
    obtain ⟨c, r, htext, hc, -⟩ := hv
    refine ⟨c, r, by simp [Word.written, htext], fun hmem => ?_⟩
    rw [(hall c hmem).1] at hc
    cases hc
  | number =>
    obtain ⟨c, r, htext, hc, -⟩ := hv
    refine ⟨c, r, by simp [Word.written, htext], fun hmem => ?_⟩
    obtain ⟨-, hdigit, hpoint⟩ := hall c hmem
    simp [Scan.startsNumeral, hdigit, hpoint] at hc
  | mark =>
    have hm : text ∈ ["(", "[", "\x7b", "!", "-", "+"] := by simpa [Word.starts] using hs
    simp only [List.mem_cons, List.not_mem_nil, or_false] at hm
    rcases hm with rfl | rfl | rfl | rfl | rfl | rfl <;> exact ⟨_, [], rfl, by decide⟩
  | endOfFile => cases hs

/-- The text starts with a word that can start an expression. -/
def Heads (ps : List Piece) : Prop :=
  ∃ w rest, ps = .word w :: rest ∧ w.starts = true

theorem heads_of_fits (hf : Fits .expression t) : Heads (Render.expression depth 0 t) := by
  obtain ⟨w, rest, hw⟩ := render_eq_word depth hf
  exact ⟨w, rest, hw, starts_of_render hf hw⟩

theorem Heads.append {ps : List Piece} (h : Heads ps) (qs : List Piece) : Heads (ps ++ qs) := by
  obtain ⟨w, rest, rfl, hw⟩ := h
  exact ⟨w, rest ++ qs, rfl, hw⟩

theorem Heads.within (h : Heads (Render.expression depth 0 t)) (least : Nat) :
    Heads (Render.expression depth least t) := by
  match t, h with
  | .absent, h | .dangling, h =>
    obtain ⟨w, rest, hw, -⟩ := h
    cases hw
  | .node pos top, h =>
    rw [render_node] at h
    rw [Render.expression, Render.inParens]
    split
    · exact ⟨_, _, rfl, by decide⟩
    · exact h

/-! ### Expressions -/

/-- Parentheses leave the numerals of an expression as they are. -/
theorem Shows.within (h : Shows (Render.expression depth 0 t) t) (least : Nat) :
    Shows (Render.expression depth least t) t := by
  match t, h with
  | .absent, h | .dangling, h => simpa [Render.expression] using h
  | .node pos top, h =>
    rw [render_node] at h
    rw [Render.expression, Render.inParens]
    split
    · exact .solid (by decide) (h.close (by decide) (by decide))
    · exact h

section

variable {op x : String} {o i l r c y n e : Tree} {es args ps : List Tree}

theorem parenthesized_shows (he : Shows (Render.expression depth 0 e) e) :
    Shows (Render.bare depth (.parenthesized e)) (.node pos (.parenthesized e)) := by
  have he := he.close (m := ")") (by decide) (by decide)
  rw [Render.bare]
  exact shows_node (by simp) (by simp) (.solid (by decide)
    (by simpa [Node.joins, Node.children] using he))

theorem array_shows (hes : ∀ e ∈ es, Shows (Render.expression depth 0 e) e) :
    Shows (Render.bare depth (.array es)) (.node pos (.array es)) := by
  have hes := (printed_expressions hes).close (m := "]") (by decide) (by decide)
  rw [Render.bare]
  exact shows_node (by simp) (by simp) (.solid (by decide)
    (by simpa [Node.joins, Node.children] using hes))

theorem member_shows (ho : Shows (Render.expression depth 0 o) o)
    (hend : endsWhole (Render.expression depth Strength.call o) = o.isPlainNumber)
    (hx : IsSpelled x) : Shows (Render.bare depth (.member o x)) (.node pos (.member o x)) := by
  have ho := (ho.within Strength.call).access hx
  rw [hend] at ho
  rw [Render.bare]
  exact shows_node (by simp) (by simp) (by
    simpa [Node.children, Node.joins, Bool.or_comm] using ho)

theorem element_shows (ho : Shows (Render.expression depth 0 o) o)
    (hi : Shows (Render.expression depth 0 i) i) :
    Shows (Render.bare depth (.element o i)) (.node pos (.element o i)) := by
  have hi := hi.close (m := "]") (by decide) (by decide)
  have := (ho.within Strength.call).behind (.solid (m := "[") (by decide) hi) ⟨rfl, by decide⟩
    (by simp [mark])
  rw [Render.bare, List.append_assoc]
  exact shows_node (by simp) (by simp) (by simpa [Node.children, Node.joins] using this)

/-- An operand with arguments behind it. -/
theorem arguments_shows (hc : Shows (Render.expression depth 0 c) c)
    (hargs : ∀ a ∈ args, Shows (Render.expression depth 0 a) a) :
    Printed (Render.expression depth Strength.call c ++ mark "(" ::
        commas (Render.expressions depth args) ++ [mark ")"])
      (c.numerals ++ args.flatMap numerals) (c.joins || args.any joins) := by
  have hargs := (printed_expressions hargs).close (m := ")") (by decide) (by decide)
  have := (hc.within Strength.call).behind (.solid (m := "(") (by decide) hargs) ⟨rfl, by decide⟩
    (by simp [mark])
  rwa [List.append_assoc]

theorem call_shows (hc : Shows (Render.expression depth 0 c) c)
    (hargs : ∀ a ∈ args, Shows (Render.expression depth 0 a) a) :
    Shows (Render.bare depth (.call c args)) (.node pos (.call c args)) := by
  rw [Render.bare]
  exact shows_node (by simp) (by simp) (by
    simpa [Node.children, Node.joins] using arguments_shows hc hargs)

theorem construct_shows (hc : Shows (Render.expression depth 0 c) c)
    (hargs : ∀ a ∈ args, Shows (Render.expression depth 0 a) a) :
    Shows (Render.bare depth (.construct c args)) (.node pos (.construct c args)) := by
  have hnew := Printed.keyword (x := "new") (by decide) (.space (arguments_shows hc hargs))
    Nat.zero_lt_one
  rw [Render.bare]
  exact shows_node (by simp) (by simp) (by simpa [Node.children, Node.joins] using hnew)

theorem unary_shows (hop : op ∈ Operator.unaryMarks ++ Operator.unaryWords)
    (hh : Heads (Render.expression depth 0 e)) (h : Shows (Render.expression depth 0 e) e) :
    Shows (Render.bare depth (.unary op e)) (.node pos (.unary op e)) := by
  obtain ⟨hv, hk, hp⟩ := @valid_operator op (by
    simp only [List.append_assoc, List.mem_append] at hop ⊢
    tauto)
  have h := h.within Strength.unary
  rw [Render.bare]
  refine shows_node (by simp) (by simp) ?_
  suffices Printed (Render.unaryOperator op e ++ Render.expression depth Strength.unary e)
      e.numerals e.joins by simpa [Node.children, Node.joins]
  rw [Render.unaryOperator, List.cons_append]
  split
  · exact .word hv hk hp h.space Nat.zero_lt_one
  · next hgap =>
    refine .word_of_near hv hk h fun qs _ => .inl ?_
    obtain ⟨w, rest, hw, hstarts⟩ := hh.within Strength.unary
    obtain ⟨c, r, hc, hmem⟩ := head_of_starts (h.valid w (by simp [hw])) hstarts
    intro d hd
    obtain rfl : c = d := by
      simpa [hw, Piece.written, hc] using hd
    have hword : op.toList.all Char.isAlpha = false := by
      by_contra ha
      simp [Bool.not_eq_false _ ▸ ha] at hgap
    have hpoint : op ≠ "." := by
      rintro rfl
      exact hp rfl
    simp [Word.endsBefore, Word.operator, hword, hmem, hpoint]

/-- Two operands with an operator between them. -/
theorem operation_shows {ps qs : List Piece} (hop : op ∈ Operator.binary ++ Operator.assigning)
    (hl : Shows ps l) (hr : Shows qs r) :
    Printed (ps ++ space :: .word (.operator op) :: space :: qs) (l.numerals ++ r.numerals)
      (l.joins || r.joins) := by
  obtain ⟨hv, hk, hp⟩ := @valid_operator op (by
    simp only [List.mem_append] at hop ⊢
    tauto)
  exact hl.spaced (.word hv hk hp hr.space Nat.zero_lt_one)

theorem binary_shows (hop : op ∈ Operator.binary) (hl : Shows (Render.expression depth 0 l) l)
    (hr : Shows (Render.expression depth 0 r) r) :
    Shows (Render.bare depth (.binary l op r)) (.node pos (.binary l op r)) := by
  have h := operation_shows (List.mem_append_left _ hop)
    (hl.within (Strength.operators + (Operator.precedence? op).getD 0))
    (hr.within (Strength.operators + (Operator.precedence? op).getD 0 + 1))
  rw [Render.bare]
  exact shows_node (by simp) (by simp) (by simpa [Node.children, Node.joins] using h)

theorem assignment_shows (hop : op ∈ Operator.assigning) (hl : Shows (Render.expression depth 0 l) l)
    (hr : Shows (Render.expression depth 0 r) r) :
    Shows (Render.bare depth (.assignment l op r)) (.node pos (.assignment l op r)) := by
  have h := operation_shows (List.mem_append_right _ hop) (hl.within Strength.call)
    (hr.within Strength.assignment)
  rw [Render.bare]
  exact shows_node (by simp) (by simp) (by simpa [Node.children, Node.joins] using h)

theorem conditional_shows (hc : Shows (Render.expression depth 0 c) c)
    (hy : Shows (Render.expression depth 0 y) y) (hn : Shows (Render.expression depth 0 n) n) :
    Shows (Render.bare depth (.conditional c y n)) (.node pos (.conditional c y n)) := by
  have hyes := Printed.sign (m := "?") (by decide) (by decide)
    (hy.within Strength.assignment).space Nat.zero_lt_one
  have hno := Printed.solid (m := ":") (by decide) (hn.within Strength.assignment).space
  have := ((hc.within (Strength.conditional + 1)).spaced hyes).spaced hno
  rw [Render.bare]
  exact shows_node (by simp) (by simp) (by
    simpa [Node.children, Node.joins, Bool.or_assoc] using this)

theorem object_shows (h : ∀ p ∈ ps, Shows (Render.propertyOf depth p) p) :
    Shows (Render.bare depth (.object ps)) (.node pos (.object ps)) := by
  suffices Printed (Render.bare depth (.object ps)) (ps.flatMap numerals) (ps.any joins) from
    shows_node (by simp) (by simp) (by simpa [Node.children, Node.joins])
  rw [Render.bare]
  split
  · next hempty =>
    obtain rfl := List.isEmpty_iff.1 hempty
    exact .solid (by decide) (.solid (by decide) .nil)
  · rw [render_properties]
    have := (Printed.commas h).spaced (.solid (m := "\x7d") (by decide) .nil)
    exact .solid (by decide) (.space (by simpa using this))

/-- A list of parameters and a body behind it. -/
theorem function_shows {params : List String} {body : Tree} (hp : ∀ x ∈ params, IsBindable x)
    (h : Shows (Render.block depth body) body) :
    Printed (Render.parameters params ++ space :: Render.block depth body) body.numerals body.joins := by
  simpa using (printed_parameters hp).spaced h

theorem functionExpression_shows {name : Option String} {params : List String} {body : Tree}
    (hn : ∀ x ∈ name, IsBindable x) (hp : ∀ x ∈ params, IsBindable x)
    (h : Shows (Render.block depth body) body) :
    Shows (Render.bare depth (.functionExpression name params body))
      (.node pos (.functionExpression name params body)) := by
  have hbody := function_shows hp h
  rw [Render.bare]
  refine shows_node (by simp) (by simp) ?_
  cases name with
  | none =>
    simpa [Node.children, Node.joins] using Printed.keyword (x := "function") (by decide) hbody.space
      Nat.zero_lt_one
  | some x =>
    have := Printed.name (hn x rfl).1 hbody ⟨rfl, by decide⟩
    simpa [Node.children, Node.joins] using Printed.keyword (x := "function") (by decide) this.space
      Nat.zero_lt_one

theorem arrow_shows {params : List String} {body : Tree} (hp : ∀ x ∈ params, IsBindable x)
    (h : Shows (Render.arrowBody depth body) body) :
    Shows (Render.bare depth (.arrow params body)) (.node pos (.arrow params body)) := by
  have hparams : Printed (Render.arrowParameters params) [] false := by
    match params, hp with
    | [x], hp => exact .name (hp x (by simp)).1 .nil trivial
    | [], hp | _ :: _ :: _, hp => exact printed_parameters hp
  have := hparams.spaced (.sign (m := "=>") (by decide) (by decide) h.space Nat.zero_lt_one)
  rw [Render.bare]
  exact shows_node (by simp) (by simp) (by simpa [Node.children, Node.joins] using this)

end

theorem expression_shows {top : Node Tree} (hf : Fits .expression (.node pos top))
    (ih : ∀ c ∈ top.children, Prints c) (depth : Nat) :
    Shows (Render.expression depth 0 (.node pos top)) (.node pos top) := by
  have expression {c : Tree} (hc : c ∈ top.children) (hf : Fits .expression c) :
      Shows (Render.expression depth 0 c) c := (ih c hc).expression hf depth
  rw [render_node]
  cases hf with
  | @identifier _ x hx hr =>
    rw [Render.bare]
    exact shows_node (by simp) (by simp) (.name hx .nil trivial)
  | @literal _ v hv =>
    rw [Render.bare]
    exact literal_shows hv
  | parenthesized he => exact parenthesized_shows (expression (by simp [Node.children]) he)
  | array hes =>
    exact array_shows fun e he => expression (by simpa [Node.children] using he) (hes e he)
  | member ho hs hn =>
    obtain ⟨pos', top', rfl, htop⟩ := ho.covers
    exact member_shows (expression (by simp [Node.children]) ho) (endsWhole_operand htop) hn
  | element ho hs hi =>
    exact element_shows (expression (by simp [Node.children]) ho)
      (expression (by simp [Node.children]) hi)
  | call hc hs hargs =>
    exact call_shows (expression (by simp [Node.children]) hc) fun a ha =>
      expression (by simp [Node.children, ha]) (hargs a ha)
  | construct hc hp hargs =>
    exact construct_shows (expression (by simp [Node.children]) hc) fun a ha =>
      expression (by simp [Node.children, ha]) (hargs a ha)
  | unary hop he hs =>
    exact unary_shows hop (heads_of_fits he) (expression (by simp [Node.children]) he)
  | binary hop hl hr =>
    exact binary_shows (Operator.mem_binary hop) (expression (by simp [Node.children]) hl)
      (expression (by simp [Node.children]) hr)
  | assignment hop ht ha hv =>
    exact assignment_shows hop (expression (by simp [Node.children]) ht)
      (expression (by simp [Node.children]) hv)
  | conditional hc hs hy hn =>
    exact conditional_shows (expression (by simp [Node.children]) hc)
      (expression (by simp [Node.children]) hy) (expression (by simp [Node.children]) hn)
  | object hps =>
    exact object_shows fun p hp => (ih p (by simpa [Node.children] using hp)).property (hps p hp) depth
  | functionExpression hn hp hb ht =>
    refine functionExpression_shows hn hp ?_
    rw [render_block ht]
    exact (ih _ (by simp [Node.children])).statement hb depth
  | arrow hp hb ho =>
    refine arrow_shows hp ?_
    rw [arrowBody_of_expression hb ho]
    exact expression (by simp [Node.children]) hb
  | arrowBlock hp hb ht =>
    refine arrow_shows hp ?_
    rw [arrowBody_of_block ht, render_block ht]
    exact (ih _ (by simp [Node.children])).statement hb depth

/-! ### Properties, declarators and statements -/

theorem printed_key {key : String} {quoted : Bool} {ps : List Piece} {ns : List String} {g : Bool}
    (hk : quoted = false → (Word.key key).Valid) (h : Printed ps ns g) (hh : Halts ps)
    (hp : ps.head? ≠ some (Piece.mark ".")) :
    Printed ((if quoted then Piece.string key else .word (.key key)) :: ps)
      ((if !quoted && (Word.key key).kind = .number then [key] else []) ++ ns) g := by
  cases quoted with
  | true => exact .string h
  | false =>
    have hk := hk rfl
    by_cases hnum : (Word.key key).kind = .number
    · have hword : Word.key key = ⟨.number, key⟩ := by
        rw [← hnum]
        rfl
      rw [hword] at hk
      simpa [hnum, hword, Piece.number] using Printed.number hk h hh hp
    · have hpoint : Word.key key ≠ ⟨.mark, "."⟩ := by
        rw [Word.key]
        split <;> simp
      simpa [hnum] using Printed.word hk hnum hpoint h hh

theorem keyed_shows {key : String} {quoted : Bool} {v : Tree}
    (hk : quoted = false → (Word.key key).Valid) (hv : Shows (Render.expression depth 0 v) v) :
    Shows (Render.propertyOf depth (.node pos (.property key quoted v false)))
      (.node pos (.property key quoted v false)) := by
  rw [Render.propertyOf, Render.property, if_neg (by simp),
    render_expression (assignment_le_strength v), Shows, joins_node, numerals_property]
  have := printed_key hk (.solid (m := ":") (by decide) hv.space) ⟨rfl, by decide⟩ (by simp [mark])
  simpa [Node.joins, Node.children] using this

theorem property_shows {top : Node Tree} (hf : Fits .property (.node pos top))
    (ih : ∀ c ∈ top.children, Prints c) (depth : Nat) :
    Shows (Render.propertyOf depth (.node pos top)) (.node pos top) := by
  cases hf with
  | @shorthand _ pos' key hk =>
    rw [Render.propertyOf, Shows, joins_node, numerals_property]
    have := @printed_key key false [] [] false (fun _ => hk) .nil trivial (by simp)
    simpa [Render.property, Node.joins, Node.children, joins_node] using this
  | property hk hv => exact keyed_shows hk ((ih _ (by simp [Node.children])).expression hv depth)

theorem isFilled_of_fits {phrase : Phrase} (h : Fits phrase t) : t.isFilled = true := by
  cases h <;> rfl

theorem declarator_shows {keyword : VarKeyword} {top : Node Tree}
    (hf : Fits (.declarator keyword) (.node pos top)) (ih : ∀ c ∈ top.children, Prints c)
    (depth : Nat) : Shows (Render.declaratorOf depth (.node pos top)) (.node pos top) := by
  cases hf with
  | uninitialized hn hk =>
    rw [Render.declaratorOf]
    exact shows_node (by simp) (by simp) (.name hn.1 .nil trivial)
  | @declarator _ _ name init hn hi =>
    rw [Render.declaratorOf, if_pos (isFilled_of_fits hi),
      render_expression (assignment_le_strength init)]
    have := Printed.sign (m := "=") (by decide) (by decide)
      ((ih init (by simp [Node.children])).expression hi depth).space Nat.zero_lt_one
    exact shows_node (by simp) (by simp) (by
      simpa [Node.children, Node.joins] using Printed.name hn.1 this.space Nat.zero_lt_one)

/-- Lines end with a line feed, so anything may stand behind them. -/
theorem printed_lines {body : List Tree} {ps : List Piece} {ns : List String} {g : Bool}
    (h : ∀ t ∈ body, Shows (Render.statement depth t) t) (hps : Printed ps ns g) :
    Printed (Render.lines depth body ++ ps) (body.flatMap numerals ++ ns) (body.any joins || g) := by
  induction body with
  | nil => simpa [Render.lines] using hps
  | cons t body ih =>
    have hrest := ih fun x hx => h x (List.mem_cons_of_mem _ hx)
    have := ((h t List.mem_cons_self).behind hrest.lineFeed trivial (by simp [mark])).blanks
      (n := 2 * depth)
    rw [Render.lines]
    simpa [Bool.or_assoc, indent] using this

theorem printed_braces {body : List Tree}
    (h : ∀ t ∈ body, Shows (Render.statement (depth + 1) t) t) :
    Printed (Render.braces depth body.isEmpty (Render.lines (depth + 1) body))
      (body.flatMap numerals) (body.any joins) := by
  rw [Render.braces]
  split
  · next hempty =>
    obtain rfl := List.isEmpty_iff.1 hempty
    exact .solid (by decide) (.solid (by decide) .nil)
  · have := printed_lines h (Printed.blanks (n := 2 * depth) (.solid (m := "\x7d") (by decide) .nil))
    exact .solid (by decide) (.lineFeed (by simpa [indent] using this))

/-- The specifiers of an import. -/
theorem specifier_cases {first rest : List Tree}
    (hfirst : first = [] ∨ ∃ s, first = [s] ∧ IsImportDefault s)
    (hrest : (∃ s, rest = [s] ∧ IsImportAll s) ∨ ∀ s ∈ rest, IsImportName s) :
    ∀ t ∈ first ++ rest, IsImportDefault t ∨ IsImportAll t ∨ IsImportName t := by
  intro t ht
  rcases List.mem_append.1 ht with ht | ht
  · obtain rfl | ⟨s, rfl, hs⟩ := hfirst
    · cases ht
    · obtain rfl := List.mem_singleton.1 ht
      exact .inl hs
  · obtain ⟨s, rfl, hs⟩ | hrest := hrest
    · obtain rfl := List.mem_singleton.1 ht
      exact .inr (.inl hs)
    · exact .inr (.inr (hrest t ht))

theorem aloneClause_printed {ps : List Piece}
    (ht : IsImportDefault t ∨ IsImportAll t ∨ IsImportName t)
    (h : Render.aloneClause t = some ps) : Printed ps [] false := by
  obtain ⟨pos, x, rfl, hx⟩ | ⟨pos, x, rfl, hx⟩ | ⟨pos, _, _, rfl, -⟩ := ht
  · cases h
    exact .name hx.1 .nil trivial
  · cases h
    exact .sign (by decide) (by decide)
      (Printed.keyword (by decide) (Printed.name hx.1 .nil trivial).space Nat.zero_lt_one).space
      Nat.zero_lt_one
  · cases h

theorem nameClause_printed {ps : List Piece}
    (ht : IsImportDefault t ∨ IsImportAll t ∨ IsImportName t)
    (h : Render.nameClause t = some ps) : Printed ps [] false := by
  obtain ⟨pos, x, rfl, hx⟩ | ⟨pos, x, rfl, hx⟩ | ⟨pos, imported, bound, rfl, hi, hb⟩ := ht
  · cases h
  · cases h
  · have hbound : IsSpelled bound := by
      rcases hb with rfl | hb
      · exact hi
      · exact hb.1
    have hname : Printed [Piece.name bound] [] false := .name hbound .nil trivial
    cases h
    split
    · exact hname
    · exact .name hi (Printed.keyword (by decide) hname.space Nat.zero_lt_one).space Nat.zero_lt_one

theorem printed_clauses {specifiers : List Tree}
    (h : ∀ t ∈ specifiers, IsImportDefault t ∨ IsImportAll t ∨ IsImportName t) :
    Printed (commas (Render.importClauses specifiers)) [] false := by
  have commas_of {pss : List (List Piece)} (hpss : ∀ ps ∈ pss, Printed ps [] false) :
      Printed (commas pss) [] false := by
    have := Printed.commas (P := id) (N := fun _ => []) (G := fun _ => false) hpss
    rwa [Grammar.flatMap_nil, List.any_eq_false.2 (by simp), List.map_id] at this
  have halone : ∀ ps ∈ specifiers.filterMap Render.aloneClause, Printed ps [] false := by
    intro ps hps
    obtain ⟨t, ht, heq⟩ := List.mem_filterMap.1 hps
    exact aloneClause_printed (h t ht) heq
  have hnamed : ∀ ps ∈ specifiers.filterMap Render.nameClause, Printed ps [] false := by
    intro ps hps
    obtain ⟨t, ht, heq⟩ := List.mem_filterMap.1 hps
    exact nameClause_printed (h t ht) heq
  refine commas_of fun ps hps => ?_
  rw [Render.importClauses] at hps
  split at hps
  · exact halone ps hps
  · rcases List.mem_append.1 hps with hps | hps
    · exact halone ps hps
    · obtain rfl := List.mem_singleton.1 hps
      have := (commas_of hnamed).spaced (.solid (m := "\x7d") (by decide) .nil)
      exact .solid (by decide) (.space this)

theorem importStatement_printed {specifiers : List Tree} {source : String}
    (h : ∀ t ∈ specifiers, IsImportDefault t ∨ IsImportAll t ∨ IsImportName t) :
    Printed (Render.importStatement specifiers source) [] false := by
  have hsource : Printed [Piece.string source, Piece.mark ";"] [] false :=
    .string (.solid (by decide) .nil)
  rw [Render.importStatement]
  split
  · exact .keyword (by decide) hsource.space Nat.zero_lt_one
  · have := (printed_clauses h).spaced
      (Printed.keyword (x := "from") (by decide) hsource.space Nat.zero_lt_one)
    exact .keyword (by decide) (.space this) Nat.zero_lt_one

theorem statement_shows {top : Node Tree} (hf : Fits .statement (.node pos top))
    (ih : ∀ c ∈ top.children, Prints c) (depth : Nat) :
    Shows (Render.statement depth (.node pos top)) (.node pos top) := by
  have expression {c : Tree} (hc : c ∈ top.children) (hf : Fits .expression c) :
      Shows (Render.expression depth 0 c) c := (ih c hc).expression hf depth
  have statement {c : Tree} (hc : c ∈ top.children) (hf : Fits .statement c) :
      Shows (Render.statement depth c) c := (ih c hc).statement hf depth
  cases hf with
  | @importFrom _ first rest _ hfirst hrest =>
    have hall := specifier_cases hfirst hrest
    rw [render_statement rfl, Render.sentence, Shows, Grammar.numerals_importFrom hfirst hrest, joins_node]
    have hjoins : (first ++ rest).any joins = false := by
      refine List.any_eq_false.2 fun t ht => ?_
      obtain ⟨_, _, rfl, -⟩ | ⟨_, _, rfl, -⟩ | ⟨_, _, _, rfl, -⟩ := hall t ht
      all_goals simp [joins_node, Node.joins, Node.children]
    simpa [Node.joins, Node.children, hjoins] using importStatement_printed hall
  | @exportDeclaration _ d hd ht =>
    rw [render_statement rfl, Render.sentence]
    have := statement (by simp [Node.children]) hd
    exact shows_node (by simp) (by simp) (by
      simpa [Node.children, Node.joins] using
        Printed.keyword (x := "export") (by decide) this.space Nat.zero_lt_one)
  | @exportDefault _ e he ho =>
    rw [render_statement rfl, Render.sentence, render_expression (assignment_le_strength e)]
    have := (expression (by simp [Node.children]) he).close (m := ";") (by decide) (by decide)
    have := Printed.keyword (x := "default") (by decide) this.space Nat.zero_lt_one
    exact shows_node (by simp) (by simp) (by
      simpa [Node.children, Node.joins] using
        Printed.keyword (x := "export") (by decide) this.space Nat.zero_lt_one)
  | @varDeclaration _ keyword ds hne hds =>
    rw [render_statement rfl, Render.sentence, render_declarators]
    have := (Printed.commas fun d hd => (ih d (by simpa [Node.children] using hd)).declarator keyword
      (hds d hd) depth).close (m := ";") (by decide) (by decide)
    exact shows_node (by simp) (by simp) (by
      simpa [Node.children, Node.joins] using
        Printed.keyword (x := keyword.text) (by cases keyword <;> decide) this.space Nat.zero_lt_one)
  | @functionDeclaration _ name params body hn hp hb ht =>
    rw [render_statement rfl, Render.sentence]
    have hblock : Shows (Render.block depth body) body := by
      rw [render_block ht]
      exact statement (by simp [Node.children]) hb
    have := Printed.name hn.1 (function_shows hp hblock) ⟨rfl, by decide⟩
    exact shows_node (by simp) (by simp) (by
      simpa [Node.children, Node.joins] using
        Printed.keyword (x := "function") (by decide) this.space Nat.zero_lt_one)
  | @block _ body hs =>
    rw [render_statement rfl, Render.sentence]
    exact shows_node (by simp) (by simp) (printed_braces fun t ht =>
      (ih t (by simpa [Node.children] using ht)).statement (hs t ht) _)
  | @expressionStatement _ e he hb hw hl =>
    rw [render_statement rfl, Render.sentence, startsLikeStatement_eq_false he hb hw,
      Render.inParens, if_neg (by simp)]
    have := (expression (by simp [Node.children]) he).close (m := ";") (by decide) (by decide)
    exact shows_node (by simp) (by simp) (by simpa [Node.children, Node.joins] using this)
  | @ifOnly _ c y hc hy =>
    rw [render_statement rfl, Render.sentence, if_neg (by simp [isFilled])]
    have hyes := Printed.solid (m := ")") (by decide) (statement (by simp [Node.children]) hy).space
    have := (expression (by simp [Node.children]) hc).behind hyes ⟨rfl, by decide⟩ (by simp [mark])
    have := Printed.keyword (x := "if") (by decide) (Printed.solid (m := "(") (by decide) this).space
      Nat.zero_lt_one
    exact shows_node (by simp) (by simp) (by simpa [Node.children, Node.joins] using this)
  | @ifElse _ c y n hc hy hn ho =>
    rw [render_statement rfl, Render.sentence, if_pos (isFilled_of_fits hn)]
    have hno := Printed.keyword (x := "else") (by decide)
      (statement (by simp [Node.children]) hn).space Nat.zero_lt_one
    have hrest : Printed (Render.statement depth y ++ ((if y.topIs Node.isBlock then [space]
        else [.lineFeed, indent depth]) ++ Piece.name "else" :: space :: Render.statement depth n))
        (y.numerals ++ n.numerals) (y.joins || n.joins) := by
      split
      · exact (statement (by simp [Node.children]) hy).spaced hno
      · exact (statement (by simp [Node.children]) hy).behind (hno.blanks.lineFeed) trivial
          (by simp [mark])
    have := (expression (by simp [Node.children]) hc).behind
      (.solid (m := ")") (by decide) hrest.space) ⟨rfl, by decide⟩ (by simp [mark])
    have := Printed.keyword (x := "if") (by decide) (Printed.solid (m := "(") (by decide) this).space
      Nat.zero_lt_one
    exact shows_node (by simp) (by simp) (by simpa [Node.children, Node.joins] using this)
  | returnOnly =>
    rw [render_statement rfl, Render.sentence]
    exact shows_node (by simp) (by simp) (.keyword (by decide) (.solid (by decide) .nil)
      ⟨rfl, by decide⟩)
  | @returnStatement _ e he =>
    rw [render_statement rfl, Render.sentence, if_pos (isFilled_of_fits he)]
    have := (expression (by simp [Node.children]) he).close (m := ";") (by decide) (by decide)
    exact shows_node (by simp) (by simp) (by
      simpa [Node.children, Node.joins] using
        Printed.keyword (x := "return") (by decide) this.space Nat.zero_lt_one)
  | @throwStatement _ e he =>
    rw [render_statement rfl, Render.sentence]
    have := (expression (by simp [Node.children]) he).close (m := ";") (by decide) (by decide)
    exact shows_node (by simp) (by simp) (by
      simpa [Node.children, Node.joins] using
        Printed.keyword (x := "throw") (by decide) this.space Nat.zero_lt_one)
  | emptyStatement =>
    rw [render_statement rfl, Render.sentence]
    exact shows_node (by simp) (by simp) (.solid (by decide) .nil)

theorem prints (t : Tree) : Prints t := by
  induction t using Tree.induct with
  | absent => exact ⟨nofun, nofun, nofun, nofun⟩
  | dangling => exact ⟨nofun, nofun, nofun, nofun⟩
  | node pos top ih =>
    exact ⟨fun hf => expression_shows hf ih, fun hf => property_shows hf ih,
      fun _ hf => declarator_shows hf ih, fun hf => statement_shows hf ih⟩

/-- The pieces of a script. -/
theorem printed_script (depth : Nat) {body : List Tree} (hf : ∀ t ∈ body, Fits .statement t) :
    Printed (Render.lines depth body) (body.flatMap numerals) (body.any joins) := by
  have := printed_lines (fun t ht => (prints t).statement (hf t ht) depth) .nil
  simpa using this

end Tree

end DebugGuard
