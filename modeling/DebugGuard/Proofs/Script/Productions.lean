import DebugGuard.Proofs.Script.Reading

/-!
# What the phrases of the grammar take

For each phrase of the grammar one theorem says exactly when it succeeds, in terms of its parts and
in the order in which they are read.  Everything else about the grammar is derived from these.
-/

namespace DebugGuard.Grammar

open Cursor

variable {ts r : List Token} {e : Tree}

/-! ### Imports, parameters and keys -/

theorem takes_importName : Takes (importName ts) e r ↔
    ∃ n s, Front (·.kind = .identifier) ts n s ∧
      (take? (·.isWord "as") s = none ∧
        e = .node (start ts) (.importName n.text n.text) ∧ r = s ∨
      ∃ t s', Front (·.isWord "as") s t s' ∧ ∃ b s'', Front Token.isName s' b s'' ∧
        e = .node (start ts) (.importName n.text b.text) ∧ r = s'') := by
  rw [importName, Takes.bind]
  refine exists_congr fun n => exists_congr fun s => exists_and_iff takes_anyName fun h => ?_
  cases s with
  | nil => simp [word?]
  | cons t s =>
    cases ht : t.isWord "as"
    · simp [word?, take?_cons_of_neg, front_cons_of_neg, ht]
    · simp only [word?, take?_cons_of_pos, exists_front_cons, ht, Takes.bind, Takes.pure,
        takes_name, exists_prop, reduceCtorEq, false_and, false_or]

theorem takes_importSource {start : Nat} {specifiers : List Tree} :
    Takes (importSource start specifiers ts) e r ↔
      ∃ w s, Front (·.isWord "from") ts w s ∧ ∃ t s', Front (·.kind = .string) s t s' ∧
        ∃ s'', Takes (semicolon s') () s'' ∧
          e = .node start (.importFrom specifiers t.text) ∧ r = s'' := by
  simp only [importSource, Takes.bind, Takes.bind, Takes.pure, takes_word,
    takes_stringLiteral, exists_prop, exists_unit]

theorem takes_importNames {specifiers : List Tree} :
    Takes (importNames ts) specifiers r ↔
      (∃ t s, Front (·.isMark "*") ts t s ∧ ∃ w s', Front (·.isWord "as") s w s' ∧
        ∃ b s'', Front Token.isName s' b s'' ∧
          specifiers = [.node (start ts) (.importAll b.text)] ∧ r = s'') ∨
      take? (·.isMark "*") ts = none ∧ ∃ t s, Front (·.isMark "\x7b") ts t s ∧
        ∃ xs s', Items "\x7d" (fun us e s => Takes (importName us) e s) s xs s' ∧
          specifiers = xs ∧ r = s' := by
  rw [importNames, mark?]
  cases ts with
  | nil => simp
  | cons t s =>
    cases ht : t.isMark "*"
    · simp only [take?_cons_of_neg, front_cons_of_neg, ht, Takes.bind, Takes.pure, takes_mark,
        takes_commaList, exists_prop, false_and, exists_false, false_or, true_and]
    · simp only [take?_cons_of_pos, exists_front_cons, ht, Takes.bind, Takes.pure, takes_word,
        takes_name, exists_prop, reduceCtorEq, false_and, or_false]


theorem takes_importStatement : Takes (importStatement ts) e r ↔
    ∃ w s, Front (·.isWord "import") ts w s ∧
      ((current s).kind = .string ∧ (∃ t s', Front (·.kind = .string) s t s' ∧
        ∃ s'', Takes (semicolon s') () s'' ∧
          e = .node (start ts) (.importFrom [] t.text) ∧ r = s'') ∨
      (current s).kind = .identifier ∧ (∃ b s', Front Token.isName s b s' ∧
        (take? (·.isMark ",") s' = none ∧
          (∃ t s'', Takes (importSource (start ts) [.node (start s) (.importDefault b.text)] s') t s'' ∧
            e = t ∧ r = s'') ∨
        ∃ c s₂, Front (·.isMark ",") s' c s₂ ∧ ∃ xs s₃, Takes (importNames s₂) xs s₃ ∧
          ∃ t s₄, Takes (importSource (start ts) (.node (start s) (.importDefault b.text) :: xs) s₃)
            t s₄ ∧ e = t ∧ r = s₄)) ∨
      ((current s).kind ≠ .string ∧ (current s).kind ≠ .identifier) ∧
        ∃ xs s', Takes (importNames s) xs s' ∧
          ∃ t s'', Takes (importSource (start ts) xs s') t s'' ∧ e = t ∧ r = s'') := by
  rw [importStatement, Takes.bind]
  refine exists_congr fun w => exists_congr fun s => exists_and_iff takes_word fun h => ?_
  dsimp only
  by_cases hs : (current s).kind = .string
  · simp only [hs, Takes.bind, Takes.bind, Takes.pure, takes_stringLiteral, exists_prop,
      exists_unit, if_true, true_and, reduceCtorEq, false_and, or_false, ne_eq, not_true]
  by_cases hn : (current s).kind = .identifier
  · rw [if_neg hs, if_pos hn, Takes.bind]
    simp only [hn, reduceCtorEq, false_and, true_and, false_or, ne_eq, not_true, and_false,
      or_false]
    refine exists_congr fun b => exists_congr fun s' => exists_and_iff takes_name fun h => ?_
    cases s' with
    | nil => simp only [mark?, take?_nil, Takes.bind, Takes.pure, exists_prop, true_and, front_nil,
        false_and, exists_false, or_false]
    | cons c s₂ =>
      cases hc : c.isMark ","
      · simp only [mark?, take?_cons_of_neg, front_cons_of_neg, hc, Takes.bind, Takes.pure,
          exists_prop, true_and, false_and, exists_false, or_false]
      · simp only [mark?, take?_cons_of_pos, exists_front_cons, hc, Takes.bind, Takes.pure, exists_prop,
          reduceCtorEq, false_and, false_or]
  · simp only [hs, hn, Takes.bind, Takes.pure, exists_prop, if_false, false_and, false_or, ne_eq,
      not_false_eq_true, true_and]

theorem takes_parameters {xs : List String} : Takes (parameters ts) xs r ↔
    ∃ t s, Front (·.isMark "(") ts t s ∧
      ∃ ns s', Items ")" (Front Token.isName) s ns s' ∧ xs = ns.map Token.text ∧ r = s' := by
  simp only [parameters, Takes.bind, Takes.pure, takes_mark, takes_commaList, takes_name,
    exists_prop]

theorem takes_arrowParameters {xs : List String} : Takes (arrowParameters ts) xs r ↔
    atMark "(" ts = true ∧ Takes (parameters ts) xs r ∨
    atMark "(" ts = false ∧ ∃ n s, Front Token.isName ts n s ∧ xs = [n.text] ∧ r = s := by
  rw [arrowParameters]
  cases h : atMark "(" ts
  · simp only [Takes.bind, Takes.pure, takes_name, exists_prop, Bool.false_eq_true, if_false,
      false_and, false_or, true_and]
  · simp only [if_true, true_and, Bool.true_eq_false, false_and, or_false]

theorem takes_propertyKey {k : String × Bool} : Takes (propertyKey ts) k r ↔
    (∃ t s, Front (·.kind = .string) ts t s ∧ k = (t.text, true) ∧ r = s) ∨
    take? (·.kind = .string) ts = none ∧
      ∃ t s, Front (fun t => t.kind = .number || t.kind = .identifier) ts t s ∧
        k = (t.text, false) ∧ r = s := by
  rw [propertyKey]
  cases ts with
  | nil => simp
  | cons t s =>
    by_cases ht : t.kind = .string
    · rw [exists_front_cons (by simpa using ht)]
      simp [take?, ht, and_comm]
    · cases hk : (t.kind = .number || t.kind = .identifier : Bool)
      · simp [take?, front_cons_of_neg, ht, hk]
      · rw [or_iff_right (by simp [front_cons_of_neg, ht]), exists_front_cons hk]
        simp [take?, ht, hk, and_comm]

/-! ### Statements -/

theorem takes_statement : Takes (statement ts) e r ↔
    let t := current ts
    if t.isMark "\x7b" then Takes (block ts) e r
    else if t.isMark ";" then
      ∃ t s, Front (·.isMark ";") ts t s ∧ e = .node (start ts) .emptyStatement ∧ r = s
    else if t.isWord "import" && !((next ts).isMark "(" || (next ts).isMark ".") then
      Takes (importStatement ts) e r
    else if t.isWord "export" then Takes (exportStatement ts) e r
    else if t.isWord "const" || t.isWord "var" then Takes (varDeclaration ts) e r
    else if t.isWord "let" && (next ts).kind = .identifier then Takes (varDeclaration ts) e r
    else if t.isWord "function" then Takes (functionDeclaration ts) e r
    else if t.isWord "if" then Takes (ifStatement ts) e r
    else if t.isWord "return" then Takes (returnStatement ts) e r
    else if t.isWord "throw" then Takes (throwStatement ts) e r
    else Takes (expressionStatement ts) e r := by
  rw [statement]
  dsimp only
  repeat' split
  all_goals simp only [Takes.bind, Takes.pure, takes_mark, exists_prop]

theorem takes_statements {body : List Tree} : Takes (statements ts) body r ↔
    (∃ t s, Front (·.isMark "\x7d") ts t s ∧ body = [] ∧ r = s) ∨
    take? (·.isMark "\x7d") ts = none ∧ atEnd ts = false ∧
      ∃ e s, Takes (statement ts) e s ∧ ∃ more s', Takes (statements s) more s' ∧
        body = e :: more ∧ r = s' := by
  rw [statements, mark?]
  cases h : take? (·.isMark "\x7d") ts with
  | none =>
    have hf : ∀ t s, ¬Front (·.isMark "\x7d") ts t s := fun t s hf => by
      obtain ⟨_, e⟩ := hf.take?
      simp [h] at e
    cases atEnd ts
    · simp only [hf, false_and, exists_false, false_or, true_and, Bool.false_eq_true, if_false,
        Takes.bind, Takes.pure, exists_prop]
    · simp [hf]
  | some x =>
    obtain ⟨t, s, hs⟩ := x
    obtain ⟨rfl, ht⟩ := front_of_take? h
    rw [exists_front_cons ht]
    simp [and_comm]

theorem takes_block : Takes (block ts) e r ↔
    ∃ t s, Front (·.isMark "\x7b") ts t s ∧ ∃ body s', Takes (statements s) body s' ∧
      e = .node (start ts) (.block body) ∧ r = s' := by
  simp only [block, Takes.bind, Takes.pure, takes_mark, exists_prop]

theorem takes_expressionStatement : Takes (expressionStatement ts) e r ↔
    ∃ x s, Takes (expression ts) x s ∧ ∃ s', Takes (semicolon s) () s' ∧
      e = .node (start ts) (.expressionStatement x) ∧ r = s' := by
  simp only [expressionStatement, Takes.bind, Takes.bind, Takes.pure, exists_prop,
    exists_unit]

theorem takes_exportStatement : Takes (exportStatement ts) e r ↔
    ∃ w s, Front (·.isWord "export") ts w s ∧
      ((∃ t s', Front (·.isWord "default") s t s' ∧ ∃ x s₂,
        (if atWord "function" s' then Takes (functionExpression s') x s₂
          else Takes (expression s') x s₂) ∧ ∃ s₃, Takes (semicolon s₂) () s₃ ∧
            e = .node (start ts) (.exportDefault x) ∧ r = s₃) ∨
      take? (·.isWord "default") s = none ∧ ∃ d s',
        (if (keyword? (current s)).isSome then Takes (varDeclaration s) d s'
          else (current s).text = "function" ∧ Takes (functionDeclaration s) d s') ∧
        e = .node (start ts) (.exportDeclaration d) ∧ r = s') := by
  rw [exportStatement, Takes.bind]
  refine exists_congr fun w => exists_congr fun s => exists_and_iff takes_word fun h => ?_
  dsimp only
  rw [word?]
  cases hd : take? (·.isWord "default") s with
  | none =>
    have hf : ∀ t s', ¬Front (·.isWord "default") s t s' := fun t s' hf => by
      obtain ⟨_, e⟩ := hf.take?
      simp [hd] at e
    simp only [hf, false_and, exists_false, false_or, true_and]
    cases hk : (keyword? (current s)).isSome
    · by_cases hw : (current s).text = "function"
      · simp only [hw, beq_self_eq_true, Bool.false_eq_true, if_false, if_true, Takes.bind,
          Takes.pure, exists_prop, true_and]
      · simp only [hw, beq_iff_eq, Bool.false_eq_true, if_false, Takes.bind, takes_unexpected,
          Takes.pure, exists_prop, false_and, exists_false]
    · simp only [if_true, Takes.bind, Takes.pure, exists_prop]
  | some x =>
    obtain ⟨t, s', hs⟩ := x
    obtain ⟨rfl, ht⟩ := front_of_take? hd
    simp only [exists_front_cons, ht, reduceCtorEq, false_and, or_false]
    cases atWord "function" s'
    · simp only [Bool.false_eq_true, if_false, Takes.bind, Takes.bind, Takes.pure,
        exists_unit, exists_prop]
    · simp only [if_true, Takes.bind, Takes.bind, Takes.pure, exists_unit, exists_prop]

theorem takes_varDeclaration : Takes (varDeclaration ts) e r ↔
    ∃ t s, Front (fun t => (keyword? t).isSome) ts t s ∧
      ∃ ds s', Takes (declarators ((keyword? t).getD .var) s) ds s' ∧
        ∃ s'', Takes (semicolon s') () s'' ∧
          e = .node (start ts) (.varDeclaration ((keyword? t).getD .var) ds) ∧ r = s'' := by
  rw [varDeclaration]
  cases ts with
  | nil => simp
  | cons t s =>
    cases ht : (keyword? t).isSome
    · simp [take?, front_cons_of_neg, ht]
    · simp only [take?_cons_of_pos, exists_front_cons, ht, Takes.bind, Takes.bind,
        Takes.pure, exists_unit, exists_prop]

theorem takes_declarators {keyword : VarKeyword} {ds : List Tree} :
    Takes (declarators keyword ts) ds r ↔
      ∃ n s, Front Token.isName ts n s ∧ ∃ init s', Takes (initializer keyword s) init s' ∧
        (take? (·.isMark ",") s' = none ∧
          ds = [.node (start ts) (.declarator n.text init)] ∧ r = s' ∨
        ∃ c s₂, Front (·.isMark ",") s' c s₂ ∧ ∃ more s₃, Takes (declarators keyword s₂) more s₃ ∧
          ds = .node (start ts) (.declarator n.text init) :: more ∧ r = s₃) := by
  rw [declarators, Takes.bind]
  refine exists_congr fun n => exists_congr fun s => exists_and_iff takes_name fun h => ?_
  rw [Takes.bind]
  refine exists_congr fun init => exists_congr fun s' => exists_and_iff Iff.rfl fun h => ?_
  cases s' with
  | nil => simp [mark?]
  | cons c s₂ =>
    cases hc : c.isMark ","
    · simp [mark?, take?_cons_of_neg, front_cons_of_neg, hc]
    · simp only [mark?, take?_cons_of_pos, exists_front_cons, hc, Takes.bind, Takes.pure, exists_prop,
          reduceCtorEq, false_and, false_or]

theorem takes_initializer {keyword : VarKeyword} : Takes (initializer keyword ts) e r ↔
    (∃ t s, Front (·.isMark "=") ts t s ∧ ∃ x s', Takes (expression s) x s' ∧ e = x ∧ r = s') ∨
    take? (·.isMark "=") ts = none ∧ keyword ≠ .const ∧ e = .absent ∧ r = ts := by
  rw [initializer]
  cases ts with
  | nil => by_cases hk : keyword = .const <;> simp [mark?, hk]
  | cons t s =>
    cases ht : t.isMark "="
    · by_cases hk : keyword = .const <;> simp [mark?, take?_cons_of_neg, front_cons_of_neg, ht, hk]
    · simp only [mark?, take?_cons_of_pos, exists_front_cons, ht, Takes.bind, Takes.pure, exists_prop,
          reduceCtorEq, false_and, or_false]

theorem takes_functionDeclaration : Takes (functionDeclaration ts) e r ↔
    ∃ w s, Front (·.isWord "function") ts w s ∧ ∃ n s', Front Token.isName s n s' ∧
      ∃ params s'', Takes (parameters s') params s'' ∧ ∃ body s₃, Takes (block s'') body s₃ ∧
        e = .node (start ts) (.functionDeclaration n.text params body) ∧ r = s₃ := by
  simp only [functionDeclaration, Takes.bind, Takes.pure, takes_word, takes_name, exists_prop]

theorem takes_ifStatement : Takes (ifStatement ts) e r ↔
    ∃ w s, Front (·.isWord "if") ts w s ∧ ∃ a s', Front (·.isMark "(") s a s' ∧
      ∃ c s₂, Takes (expression s') c s₂ ∧ ∃ b s₃, Front (·.isMark ")") s₂ b s₃ ∧
        ∃ y s₄, Takes (statement s₃) y s₄ ∧
          (take? (·.isWord "else") s₄ = none ∧
            e = .node (start ts) (.ifElse c y .absent) ∧ r = s₄ ∨
          ∃ t s₅, Front (·.isWord "else") s₄ t s₅ ∧ ∃ n s₆, Takes (statement s₅) n s₆ ∧
            e = .node (start ts) (.ifElse c y n) ∧ r = s₆) := by
  rw [ifStatement]
  simp only [Takes.bind]
  refine exists_congr fun w => exists_congr fun s => exists_and_iff takes_word fun h => ?_
  refine exists_congr fun a => exists_congr fun s' => exists_and_iff takes_mark fun h => ?_
  refine exists_congr fun c => exists_congr fun s₂ => exists_and_iff Iff.rfl fun h => ?_
  refine exists_congr fun b => exists_congr fun s₃ => exists_and_iff takes_mark fun h => ?_
  refine exists_congr fun y => exists_congr fun s₄ => exists_and_iff Iff.rfl fun h => ?_
  cases s₄ with
  | nil => simp [word?]
  | cons t s₅ =>
    cases ht : t.isWord "else"
    · simp [word?, take?_cons_of_neg, front_cons_of_neg, ht]
    · simp only [word?, take?_cons_of_pos, exists_front_cons, ht, Takes.bind, Takes.pure, exists_prop,
        reduceCtorEq, false_and, false_or]

theorem takes_returnStatement : Takes (returnStatement ts) e r ↔
    ∃ w s, Front (·.isWord "return") ts w s ∧
      (((current s).isMark ";" || endsStatement (current s)) = true ∧ (∃ s',
        Takes (semicolon s) () s' ∧ e = .node (start ts) (.returnStatement .absent) ∧ r = s') ∨
      ((current s).isMark ";" || endsStatement (current s)) = false ∧
        ∃ x s', Takes (expression s) x s' ∧ ∃ s'', Takes (semicolon s') () s'' ∧
          e = .node (start ts) (.returnStatement x) ∧ r = s'') := by
  rw [returnStatement, Takes.bind]
  refine exists_congr fun w => exists_congr fun s => exists_and_iff takes_word fun h => ?_
  cases hs : (current s).isMark ";" || endsStatement (current s)
  · simp only [hs, Takes.bind, Takes.bind, Takes.pure, exists_unit, exists_prop,
      Bool.false_eq_true, if_false, false_and, false_or, true_and]
  · simp only [hs, Takes.bind, Takes.pure, exists_unit, exists_prop, if_true, true_and,
      Bool.true_eq_false, false_and, or_false]

theorem takes_throwStatement : Takes (throwStatement ts) e r ↔
    ∃ w s, Front (·.isWord "throw") ts w s ∧ (current s).afterBreak = false ∧
      ∃ x s', Takes (expression s) x s' ∧ ∃ s'', Takes (semicolon s') () s'' ∧
        e = .node (start ts) (.throwStatement x) ∧ r = s'' := by
  rw [throwStatement, Takes.bind]
  refine exists_congr fun w => exists_congr fun s => exists_and_iff takes_word fun h => ?_
  cases hs : (current s).afterBreak
  · simp only [hs, Takes.bind, Takes.bind, Takes.pure, exists_unit, exists_prop,
      Bool.false_eq_true, if_false, true_and]
  · simp [hs]

/-! ### Expressions -/

theorem takes_expression : Takes (expression ts) e r ↔
    atArrow ts = true ∧ Takes (arrow ts) e r ∨
    atArrow ts = false ∧ ∃ t s, Takes (conditional ts) t s ∧
      (take? isAssigning s = none ∧ e = t ∧ r = s ∨
      ∃ op s', Front isAssigning s op s' ∧ t.topIs Node.isAssignable = true ∧
        ∃ v s'', Takes (expression s') v s'' ∧
          e = .node (start ts) (.assignment t op.text v) ∧ r = s'') := by
  rw [expression]
  cases ha : atArrow ts
  · simp only [Bool.false_eq_true, if_false, false_and, false_or, true_and, Takes.bind]
    refine exists_congr fun t => exists_congr fun s => exists_and_iff Iff.rfl fun h => ?_
    cases s with
    | nil => simp
    | cons op s' =>
      cases hop : isAssigning op
      · simp [take?_cons_of_neg, front_cons_of_neg, hop]
      · simp only [take?_cons_of_pos, exists_front_cons, hop, reduceCtorEq, false_and, false_or]
        cases ht : t.topIs Node.isAssignable
        · simp
        · simp only [if_true, Takes.bind, Takes.pure, exists_prop, true_and]
  · simp only [if_true, true_and, Bool.true_eq_false, false_and, or_false]

theorem takes_conditional : Takes (conditional ts) e r ↔
    ∃ c s, Takes (binary 0 ts) c s ∧
      (take? (·.isMark "?") s = none ∧ e = c ∧ r = s ∨
      ∃ q s', Front (·.isMark "?") s q s' ∧ ∃ y s₂, Takes (expression s') y s₂ ∧
        ∃ k s₃, Front (·.isMark ":") s₂ k s₃ ∧ ∃ n s₄, Takes (expression s₃) n s₄ ∧
          e = .node (start ts) (.conditional c y n) ∧ r = s₄) := by
  rw [conditional, Takes.bind]
  refine exists_congr fun c => exists_congr fun s => exists_and_iff Iff.rfl fun h => ?_
  cases s with
  | nil => simp [mark?]
  | cons q s' =>
    cases hq : q.isMark "?"
    · simp [mark?, take?_cons_of_neg, front_cons_of_neg, hq]
    · simp only [mark?, take?_cons_of_pos, exists_front_cons, hq, Takes.bind, Takes.pure,
        takes_mark, exists_prop, reduceCtorEq, false_and, false_or]

theorem takes_binary {least : Nat} : Takes (binary least ts) e r ↔
    ∃ l s, Takes (unary ts) l s ∧ ∃ x s', Takes (binaryTail (start ts) least l s) x s' ∧
      e = x ∧ r = s' := by
  simp only [binary, Takes.bind, Takes.bind, Takes.pure, exists_prop]

theorem takes_binaryTail {start least : Nat} {left : Tree} :
    Takes (binaryTail start least left ts) e r ↔
      binaryOperator? least ts = none ∧ e = left ∧ r = ts ∨
      ∃ op p s, Operates least ts op p s ∧ ∃ right s', Takes (binary p s) right s' ∧
        ∃ x s'', Takes (binaryTail start least (.node start (.binary left op right)) s') x s'' ∧
          e = x ∧ r = s'' := by
  rw [binaryTail]
  cases h : binaryOperator? least ts with
  | none => simp [Operates, h]
  | some x =>
    obtain ⟨⟨op, p⟩, s, hs⟩ := x
    have hop : ∀ op' p' s', Operates least ts op' p' s' ↔ op' = op ∧ p' = p ∧ s' = s := by
      intro op' p' s'
      rw [Operates, h]
      constructor
      · rintro ⟨_, h⟩
        cases h
        exact ⟨rfl, rfl, rfl⟩
      · rintro ⟨rfl, rfl, rfl⟩
        exact ⟨hs, rfl⟩
    simp only [hop, and_assoc, exists_and_left, exists_eq_left, reduceCtorEq, false_and, false_or]
    simp only [Takes.bind, Takes.bind, Takes.pure, exists_prop]

theorem takes_unary : Takes (unary ts) e r ↔
    (∃ op s, Front isUnary ts op s ∧ ∃ x s', Takes (unary s) x s' ∧
      e = .node (start ts) (.unary op.text x) ∧ r = s') ∨
    take? isUnary ts = none ∧ ∃ c s,
      (if atWord "new" ts then Takes (construct ts) c s else Takes (primary ts) c s) ∧
        ∃ x s', Takes (callTail (start ts) c s) x s' ∧ e = x ∧ r = s' := by
  rw [unary]
  cases h : take? isUnary ts with
  | none =>
    have hf : ∀ t s, ¬Front isUnary ts t s := fun t s hf => by
      obtain ⟨_, e⟩ := hf.take?
      simp [h] at e
    simp only [hf, false_and, exists_false, false_or, true_and]
    cases atWord "new" ts
    · simp only [Bool.false_eq_true, if_false, Takes.bind, Takes.bind, Takes.pure,
        exists_prop]
    · simp only [if_true, Takes.bind, Takes.bind, Takes.pure, exists_prop]
  | some x =>
    obtain ⟨op, s, hs⟩ := x
    obtain ⟨rfl, hop⟩ := front_of_take? h
    simp only [exists_front_cons, hop, Takes.bind, Takes.pure, exists_prop, reduceCtorEq,
      false_and, or_false]

theorem takes_callTail {start : Nat} {callee : Tree} :
    Takes (callTail start callee ts) e r ↔
      atMark "(" ts = true ∧ (∃ args s, Takes (arguments ts) args s ∧
        ∃ x s', Takes (callTail start (.node start (.call callee args)) s) x s' ∧
          e = x ∧ r = s') ∨
      atMark "(" ts = false ∧ (access? start callee ts = .ok none ∧ e = callee ∧ r = ts ∨
        ∃ o s, Finds (access? start callee ts) o s ∧ ∃ x s', Takes (callTail start o s) x s' ∧
          e = x ∧ r = s') := by
  rw [callTail]
  cases atMark "(" ts
  · simp only [Bool.false_eq_true, if_false, false_and, false_or, true_and, Finds.takes_bind,
      Takes.bind, Takes.pure, exists_prop]
  · simp only [if_true, true_and, Bool.true_eq_false, false_and, or_false, Takes.bind,
      Takes.bind, Takes.pure, exists_prop]

theorem access?_eq_none {start : Nat} {object : Tree} : access? start object ts = .ok none ↔
    take? (·.isMark ".") ts = none ∧ take? (·.isMark "[") ts = none := by
  have no_some {us : List Token} {α : Type} {x : Reading (Taken us α)}
      {f : Taken us α → Taken ts Tree} : (x >>= fun a => pure (some (f a))) ≠ .ok none := by
    cases x <;> exact fun h => by cases h
  rw [access?, mark?, mark?]
  cases ts with
  | nil => simp only [take?_nil, and_self, iff_true]; rfl
  | cons t s =>
    cases hd : t.isMark "."
    · cases hb : t.isMark "["
      · simp only [take?_cons_of_neg, hd, hb, and_self, iff_true]; rfl
      · simp only [take?_cons_of_neg, take?_cons_of_pos, hd, hb, reduceCtorEq, and_false, iff_false]
        cases expression s with
        | error e => exact fun h => by cases h
        | ok x => exact no_some
    · simp only [take?_cons_of_pos, hd, reduceCtorEq, false_and, iff_false]
      exact no_some

theorem finds_access? {start : Nat} {object : Tree} : Finds (access? start object ts) e r ↔
    (∃ d s, Front (·.isMark ".") ts d s ∧ ∃ n s', Front (·.kind = .identifier) s n s' ∧
      e = .node start (.member object n.text) ∧ r = s') ∨
    take? (·.isMark ".") ts = none ∧ ∃ b s, Front (·.isMark "[") ts b s ∧
      ∃ i s', Takes (expression s) i s' ∧ ∃ c s'', Front (·.isMark "]") s' c s'' ∧
        e = .node start (.element object i) ∧ r = s'' := by
  rw [access?, mark?, mark?]
  cases ts with
  | nil => simp
  | cons t s =>
    cases hd : t.isMark "."
    · cases hb : t.isMark "["
      · simp [take?_cons_of_neg, front_cons_of_neg, hd, hb]
      · simp only [take?_cons_of_neg, take?_cons_of_pos, front_cons_of_neg, exists_front_cons, hd,
          hb, false_and, exists_false, false_or, true_and, Finds.bind, Finds.pure_some, takes_mark,
          exists_prop]
    · simp only [take?_cons_of_pos, exists_front_cons, hd, reduceCtorEq, false_and, or_false,
        Finds.bind, Finds.pure_some, takes_anyName, exists_prop]

theorem takes_construct : Takes (construct ts) e r ↔
    ∃ w s, Front (·.isWord "new") ts w s ∧ ∃ o s', Takes (primary s) o s' ∧
      ∃ c s'', Takes (accessTail (start ts) o s') c s'' ∧
        (atMark "(" s'' = true ∧ (∃ args s₃, Takes (arguments s'') args s₃ ∧
          e = .node (start ts) (.construct c args) ∧ r = s₃) ∨
        atMark "(" s'' = false ∧ e = .node (start ts) (.construct c []) ∧ r = s'') := by
  rw [construct]
  simp only [Takes.bind, Takes.bind]
  refine exists_congr fun w => exists_congr fun s => exists_and_iff takes_word fun h => ?_
  refine exists_congr fun o => exists_congr fun s' => exists_and_iff Iff.rfl fun h => ?_
  refine exists_congr fun c => exists_congr fun s'' => exists_and_iff Iff.rfl fun h => ?_
  cases hp : atMark "(" s''
  · simp
  · simp only [if_true, Takes.bind, Takes.pure, exists_prop, true_and, Bool.true_eq_false,
      false_and, or_false]

theorem takes_accessTail {start : Nat} {object : Tree} :
    Takes (accessTail start object ts) e r ↔
      access? start object ts = .ok none ∧ e = object ∧ r = ts ∨
      ∃ o s, Finds (access? start object ts) o s ∧ ∃ x s', Takes (accessTail start o s) x s' ∧
        e = x ∧ r = s' := by
  rw [accessTail]
  simp only [Finds.takes_bind, Takes.bind, Takes.pure, exists_prop]

theorem takes_arguments {args : List Tree} : Takes (arguments ts) args r ↔
    ∃ t s, Front (·.isMark "(") ts t s ∧
      ∃ xs s', Items ")" (fun us e s => Takes (expression us) e s) s xs s' ∧
        args = xs ∧ r = s' := by
  simp only [arguments, Takes.bind, Takes.pure, takes_mark, takes_commaList, exists_prop]

theorem takes_primary : Takes (primary ts) e r ↔
    (∃ t s, Front (fun t => (atom? t).isSome) ts t s ∧
      e = (atom? t).elim .absent (.node (start ts)) ∧ r = s) ∨
    take? (fun t => (atom? t).isSome) ts = none ∧
      (atWord "function" ts = true ∧ Takes (functionExpression ts) e r ∨
      (∃ t s, Front (·.isMark "(") ts t s ∧ ∃ x s', Takes (expression s) x s' ∧
        ∃ c s'', Front (·.isMark ")") s' c s'' ∧ e = .node (start ts) (.parenthesized x) ∧ r = s'') ∨
      (∃ t s, Front (·.isMark "\x7b") ts t s ∧
        ∃ ps s', Items "\x7d" (fun us e s => Takes (property us) e s) s ps s' ∧
          e = .node (start ts) (.object ps) ∧ r = s') ∨
      ∃ t s, Front (·.isMark "[") ts t s ∧
        ∃ es s', Items "]" (fun us e s => Takes (expression us) e s) s es s' ∧
          e = .node (start ts) (.array es) ∧ r = s') := by
  rw [primary]
  cases ts with
  | nil => simp [atWord, current, Token.sentinel, Token.isWord, mark?]
  | cons t s =>
    have hword : atWord "function" (t :: s) = t.isWord "function" := rfl
    cases ha : (atom? t).isSome
    · rw [take?_cons_of_neg ha, hword]
      simp only [front_cons_of_neg, ha, false_and, exists_false, false_or, true_and, mark?]
      cases hf : t.isWord "function"
      · simp only [Bool.false_eq_true, if_false, false_and, false_or]
        cases hp : t.isMark "("
        · cases hb : t.isMark "\x7b"
          · cases hs : t.isMark "["
            · simp [take?_cons_of_neg, front_cons_of_neg, hp, hb, hs]
            · simp only [take?_cons_of_neg, take?_cons_of_pos, front_cons_of_neg,
                exists_front_cons, hp, hb, hs, false_and, exists_false, false_or, Takes.bind,
                Takes.pure, takes_commaList, exists_prop]
          · have hs := Token.isMark_of_ne (by decide : "\x7b" ≠ "[") hb
            simp only [take?_cons_of_neg, take?_cons_of_pos, front_cons_of_neg, exists_front_cons,
              hp, hb, hs, false_and, exists_false, false_or, or_false, Takes.bind, Takes.pure,
              takes_commaList, exists_prop]
        · have hb := Token.isMark_of_ne (by decide : "(" ≠ "\x7b") hp
          have hs := Token.isMark_of_ne (by decide : "(" ≠ "[") hp
          simp only [take?_cons_of_pos, front_cons_of_neg, exists_front_cons, hp, hb, hs,
            false_and, exists_false, or_false, Takes.bind, Takes.pure, takes_mark, exists_prop]
      · have hm (m : String) : t.isMark m = false := Token.isMark_of_isWord hf m
        simp only [if_true, true_and, front_cons_of_neg, hm, false_and, exists_false, or_false]
    · rw [exists_front_cons ha]
      simp [take?_cons_of_pos, ha, and_comm]

theorem takes_property : Takes (property ts) e r ↔
    ∃ k s, Takes (propertyKey ts) k s ∧
      ((∃ c s', Front (·.isMark ":") s c s' ∧ ∃ v s'', Takes (expression s') v s'' ∧
        e = .node (start ts) (.property k.1 k.2 v false) ∧ r = s'') ∨
      take? (·.isMark ":") s = none ∧ k.2 = false ∧
        e = .node (start ts) (.property k.1 false (.node (start ts) (.identifier k.1)) true) ∧
          r = s) := by
  rw [property, Takes.bind]
  refine exists_congr fun k => exists_congr fun s => exists_and_iff Iff.rfl fun h => ?_
  obtain ⟨key, quoted⟩ := k
  cases s with
  | nil => cases quoted <;> simp [mark?]
  | cons c s' =>
    cases hc : c.isMark ":"
    · cases quoted <;> simp [mark?, take?_cons_of_neg, front_cons_of_neg, hc]
    · simp only [mark?, take?_cons_of_pos, exists_front_cons, hc, Takes.bind, Takes.pure,
        exists_prop, reduceCtorEq, false_and, or_false]

theorem takes_functionExpression : Takes (functionExpression ts) e r ↔
    ∃ w s, Front (·.isWord "function") ts w s ∧
      ((current s).kind = .identifier ∧ (∃ n s', Front Token.isName s n s' ∧
        ∃ params s'', Takes (parameters s') params s'' ∧ ∃ body s₃, Takes (block s'') body s₃ ∧
          e = .node (start ts) (.functionExpression (some n.text) params body) ∧ r = s₃) ∨
      (current s).kind ≠ .identifier ∧ ∃ params s', Takes (parameters s) params s' ∧
        ∃ body s'', Takes (block s') body s'' ∧
          e = .node (start ts) (.functionExpression none params body) ∧ r = s'') := by
  rw [functionExpression, Takes.bind]
  refine exists_congr fun w => exists_congr fun s => exists_and_iff takes_word fun h => ?_
  by_cases hs : (current s).kind = .identifier
  · simp only [hs, if_true, Takes.bind, Takes.pure, takes_name, exists_prop, true_and, ne_eq,
      not_true, false_and, or_false]
  · simp only [hs, if_false, Takes.bind, Takes.pure, exists_prop, false_and, false_or, ne_eq,
      not_false_eq_true, true_and]

theorem takes_arrow : Takes (arrow ts) e r ↔
    ∃ params s, Takes (arrowParameters ts) params s ∧ ∃ t s', Front (·.isMark "=>") s t s' ∧
      ∃ body s'', (if atMark "\x7b" s' then Takes (block s') body s''
        else Takes (expression s') body s'') ∧ e = .node (start ts) (.arrow params body) ∧ r = s'' := by
  rw [arrow]
  simp only [Takes.bind]
  refine exists_congr fun params => exists_congr fun s => exists_and_iff Iff.rfl fun h => ?_
  refine exists_congr fun t => exists_congr fun s' => exists_and_iff takes_mark fun h => ?_
  cases hb : atMark "\x7b" s'
  · simp only [Bool.false_eq_true, if_false, Takes.bind, Takes.pure, exists_prop]
  · simp only [if_true, Takes.bind, Takes.pure, exists_prop]

/-! ### Scripts -/

theorem script_eq_ok {body : List Tree} : script ts = .ok body ↔
    atEnd ts = true ∧ body = [] ∨
    atEnd ts = false ∧ ∃ e s, Takes (statement ts) e s ∧ ∃ more, script s = .ok more ∧
      body = e :: more := by
  rw [script]
  cases atEnd ts
  · simp only [Bool.false_eq_true, if_false, false_and, false_or, true_and]
    cases hs : statement ts with
    | error e => simp [Takes, bind, Except.bind]
    | ok x =>
      obtain ⟨t, s, h⟩ := x
      simp only [Takes.ok, and_assoc, exists_and_left, exists_eq_left]
      cases hm : script s with
      | error e => simp [bind, Except.bind, hm]
      | ok more => simp [bind, Except.bind, pure, Except.pure, hm, eq_comm]
  · simp [eq_comm]

end DebugGuard.Grammar
