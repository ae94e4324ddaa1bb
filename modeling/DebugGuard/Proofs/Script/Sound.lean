import DebugGuard.Proofs.Script.Productions
import DebugGuard.Proofs.Script.Shape

/-!
# What the grammar makes of tokens

Every phrase that the grammar reads fits (`Tree.Fits`), and the numerals of its tree are those among
the tokens that it takes, in the same order.  This is one induction over the grammar, from the
statement down to the single token, and back to the statement with fewer tokens.
-/

namespace DebugGuard

namespace Token

variable {t : Token}

/-- A token without its place. -/
def word (t : Token) : Word :=
  ⟨t.kind, t.text⟩

theorem kind_of_isMark {m : String} (h : t.isMark m = true) :
    t.kind = .mark ∧ t.text = m := by
  simpa [isMark] using h

theorem kind_of_isWord {w : String} (h : t.isWord w = true) :
    t.kind = .identifier ∧ t.text = w := by
  simpa [isWord] using h

theorem kind_of_isName (h : t.isName = true) :
    t.kind = .identifier ∧ isReserved t.text = false := by
  simpa [isName] using h

theorem word_of_isMark {m : String} (h : t.isMark m = true) :
    t.word = ⟨.mark, m⟩ := by
  obtain ⟨hk, ht⟩ := kind_of_isMark h
  rw [word, hk, ht]

theorem word_of_isWord {w : String} (h : t.isWord w = true) :
    t.word = ⟨.identifier, w⟩ := by
  obtain ⟨hk, ht⟩ := kind_of_isWord h
  rw [word, hk, ht]

end Token

namespace Cursor

variable {ts s r : List Token} {t : Token} {p : Token → Bool}

/-- All tokens but the last one are words that a scanner knows. -/
def Scanned (ts : List Token) : Prop :=
  ∀ t ∈ ts, t.kind ≠ .endOfFile → t.word.Valid

/-- The spellings of the numerals among the tokens. -/
def numbers (ts : List Token) : List String :=
  (ts.filter fun t => t.kind = .number).map Token.text

/-- A phrase with the given numerals has been read from `ts`, and `r` is left. -/
structure Reads (ts : List Token) (numerals : List String) (r : List Token) : Prop where
  suffix : r <:+ ts
  numbers_eq : numbers ts = numerals ++ numbers r

namespace Reads

theorem refl (ts : List Token) : Reads ts [] ts :=
  ⟨List.suffix_rfl, rfl⟩

theorem trans {ns ms : List String} (h : Reads ts ns s) (h' : Reads s ms r) :
    Reads ts (ns ++ ms) r :=
  ⟨h'.suffix.trans h.suffix, by rw [h.numbers_eq, h'.numbers_eq, List.append_assoc]⟩

theorem scanned {ns : List String} (h : Reads ts ns r) (hts : Scanned ts) : Scanned r :=
  fun t ht => hts t (h.suffix.subset ht)

theorem length_le {ns : List String} (h : Reads ts ns r) : r.length ≤ ts.length :=
  h.suffix.length_le

end Reads

theorem Front.reads (h : Front p ts t r) (hk : t.kind ≠ .number) : Reads ts [] r := by
  obtain ⟨rfl, -⟩ := h
  exact ⟨List.suffix_cons .., by simp [numbers, hk]⟩

theorem Front.reads_number (h : Front p ts t r) (hk : t.kind = .number) : Reads ts [t.text] r := by
  obtain ⟨rfl, -⟩ := h
  exact ⟨List.suffix_cons .., by simp [numbers, hk]⟩

theorem Front.length (h : Front p ts t r) : ts.length = r.length + 1 := by
  rw [h.1, List.length_cons]

theorem Front.valid (h : Front p ts t r) (hts : Scanned ts) (hk : t.kind ≠ .endOfFile) :
    t.word.Valid := by
  obtain ⟨rfl, -⟩ := h
  exact hts t List.mem_cons_self hk

theorem Front.mark {m : String} (h : Front (·.isMark m) ts t r) : Reads ts [] r :=
  h.reads (by simp [(Token.kind_of_isMark h.2).1])

theorem Front.word {w : String} (h : Front (·.isWord w) ts t r) : Reads ts [] r :=
  h.reads (by simp [(Token.kind_of_isWord h.2).1])

theorem Front.name (h : Front Token.isName ts t r) : Reads ts [] r :=
  h.reads (by simp [(Token.kind_of_isName h.2).1])

theorem Front.bindable (h : Front Token.isName ts t r) (hts : Scanned ts) : IsBindable t.text := by
  obtain ⟨hk, hr⟩ := Token.kind_of_isName h.2
  have := h.valid hts (by simp [hk])
  rw [Token.word, hk] at this
  exact ⟨this, hr⟩

theorem Front.spelled (h : Front p ts t r) (hts : Scanned ts) (hk : t.kind = .identifier) :
    IsSpelled t.text := by
  have := h.valid hts (by simp [hk])
  rwa [Token.word, hk] at this

theorem reads_of_semicolon (h : Takes (semicolon ts) () r) : Reads ts [] r := by
  rcases takes_semicolon.1 h with ⟨t, ht⟩ | ⟨-, -, rfl⟩
  · exact ht.mark
  · exact .refl _

end Cursor

namespace Grammar

open Cursor DebugGuard.Tree

variable {ts s r : List Token} {e : Tree} {α : Type}

theorem flatMap_nil {β : Type} (xs : List α) : xs.flatMap (fun _ => ([] : List β)) = [] := by
  induction xs <;> simp_all

/-- What holds of each item holds of a list of them. -/
theorem Items.sound {close : String} {item : List Token → α → List Token → Prop} {xs : List α}
    (num : α → List String) (P : α → Prop) (n : Nat)
    (hitem : ∀ us x s, us.length ≤ n → Scanned us → item us x s → Reads us (num x) s ∧ P x)
    (h : Items close item ts xs r) (hn : ts.length ≤ n) (hts : Scanned ts) :
    Reads ts (xs.flatMap num) r ∧ ∀ x ∈ xs, P x := by
  induction h with
  | nil ht => exact ⟨ht.mark, by simp⟩
  | last _ hx _ ht =>
    obtain ⟨hr, hP⟩ := hitem _ _ _ hn hts hx
    exact ⟨by simpa using hr.trans ht.mark, by simpa using hP⟩
  | more _ hx ht _ ih =>
    obtain ⟨hr, hP⟩ := hitem _ _ _ hn hts hx
    have hc := hr.trans ht.mark
    obtain ⟨hr', hP'⟩ := ih (Nat.le_trans hc.length_le hn) (hc.scanned hts)
    exact ⟨by simpa using hc.trans hr', by simpa using ⟨hP, hP'⟩⟩

/-! ### Phrases without expressions -/

theorem importName_sound (hts : Scanned ts) (h : Takes (importName ts) e r) :
    Reads ts [] r ∧ IsImportName e := by
  obtain ⟨n, s, hn, ⟨-, rfl, rfl⟩ | ⟨t, s', ht, b, s'', hb, rfl, rfl⟩⟩ := takes_importName.1 h
  all_goals
    have hk : n.kind = .identifier := by simpa using hn.2
    have hr := hn.reads (by simp [hk])
  · exact ⟨hr, _, _, _, rfl, hn.spelled hts hk, .inl rfl⟩
  · have hs := (hr.trans ht.word).scanned hts
    exact ⟨(hr.trans ht.word).trans hb.name, _, _, _, rfl, hn.spelled hts hk,
      .inr (hb.bindable hs)⟩

theorem importSource_sound {start : Nat} {specifiers : List Tree}
    (h : Takes (importSource start specifiers ts) e r) :
    Reads ts [] r ∧ ∃ source, e = .node start (.importFrom specifiers source) := by
  obtain ⟨w, s, hw, t, s', ht, s'', hs, rfl, rfl⟩ := takes_importSource.1 h
  have hk : t.kind = .string := by simpa using ht.2
  exact ⟨(hw.word.trans (ht.reads (by simp [hk]))).trans (reads_of_semicolon hs), _, rfl⟩

theorem importNames_sound {xs : List Tree} (hts : Scanned ts) (h : Takes (importNames ts) xs r) :
    Reads ts [] r ∧ ((∃ s, xs = [s] ∧ IsImportAll s) ∨ ∀ s ∈ xs, IsImportName s) := by
  rcases takes_importNames.1 h with ⟨t, s, ht, w, s', hw, b, s'', hb, rfl, rfl⟩ |
    ⟨-, t, s, ht, xs, s', hxs, rfl, rfl⟩
  · have hr := ht.mark.trans hw.word
    exact ⟨hr.trans hb.name, .inl ⟨_, rfl, _, _, rfl, hb.bindable (hr.scanned hts)⟩⟩
  · obtain ⟨hr, hall⟩ := hxs.sound (fun _ => []) IsImportName s.length
      (fun us x s _ hus hx => importName_sound hus hx) (Nat.le_refl _) (ht.mark.scanned hts)
    exact ⟨by simpa [flatMap_nil] using ht.mark.trans hr, .inr hall⟩

theorem importDefault_sound {n : Token} (hts : Scanned ts) (h : Front Token.isName ts n s) :
    Reads ts [] s ∧ IsImportDefault (.node (start ts) (.importDefault n.text)) :=
  ⟨h.name, _, _, rfl, h.bindable hts⟩

theorem numerals_importFrom {pos : Nat} {first rest : List Tree} {source : String}
    (hfirst : first = [] ∨ ∃ s, first = [s] ∧ IsImportDefault s)
    (hrest : (∃ s, rest = [s] ∧ IsImportAll s) ∨ ∀ s ∈ rest, IsImportName s) :
    numerals (.node pos (.importFrom (first ++ rest) source)) = [] := by
  have hnone : ∀ t ∈ first ++ rest, t.numerals = [] := by
    intro t ht
    rcases List.mem_append.1 ht with ht | ht
    · obtain rfl | ⟨s, rfl, _, _, rfl, -⟩ := hfirst
      · cases ht
      · obtain rfl := List.mem_singleton.1 ht
        simp [numerals_node, Node.children]
    · rcases hrest with ⟨s, rfl, _, _, rfl, -⟩ | hrest
      · obtain rfl := List.mem_singleton.1 ht
        simp [numerals_node, Node.children]
      · obtain ⟨_, _, _, rfl, -⟩ := hrest t ht
        simp [numerals_node, Node.children]
  rw [numerals_node (by simp) (by simp), Node.children, List.flatMap_eq_nil_iff]
  exact hnone

/-- A statement has been read. -/
structure StatementRead (ts : List Token) (e : Tree) (r : List Token) : Prop where
  reads : Reads ts e.numerals r
  fits : Fits .statement e
  closed : e.endsOpen = true → take? (·.isWord "else") r = none

theorem importStatement_sound (hts : Scanned ts) (h : Takes (importStatement ts) e r) :
    StatementRead ts e r := by
  obtain ⟨w, s, hw, h⟩ := takes_importStatement.1 h
  have hs := hw.word.scanned hts
  have build {first rest : List Tree} {source : String} (hr : Reads ts [] r)
      (he : e = .node (start ts) (.importFrom (first ++ rest) source))
      (hfirst : first = [] ∨ ∃ s, first = [s] ∧ IsImportDefault s)
      (hrest : (∃ s, rest = [s] ∧ IsImportAll s) ∨ ∀ s ∈ rest, IsImportName s) :
      StatementRead ts e r := by
    subst he
    refine ⟨?_, .importFrom hfirst hrest, ?_⟩
    · rwa [numerals_importFrom hfirst hrest]
    · simp [endsOpen]
  rcases h with ⟨-, t, s', ht, s'', hs', rfl, rfl⟩ | ⟨-, b, s', hb, h⟩ |
    ⟨-, xs, s', hxs, e, s'', he, rfl, rfl⟩
  · have hk : t.kind = .string := by simpa using ht.2
    exact build ((hw.word.trans (ht.reads (by simp [hk]))).trans (reads_of_semicolon hs'))
      (by rw [List.append_nil]) (.inl rfl) (.inr (by simp))
  · obtain ⟨hr, hb⟩ := importDefault_sound hs hb
    have hr := hw.word.trans hr
    rcases h with ⟨-, e, s'', he, rfl, rfl⟩ | ⟨c, s₂, hc, xs, s₃, hxs, e, s₄, he, rfl, rfl⟩
    · obtain ⟨hr', source, rfl⟩ := importSource_sound he
      exact build (hr.trans hr') (by rw [List.append_nil]) (.inr ⟨_, rfl, hb⟩) (.inr (by simp))
    · have hr := hr.trans hc.mark
      obtain ⟨hr', hxs⟩ := importNames_sound (hr.scanned hts) hxs
      obtain ⟨hr'', source, rfl⟩ := importSource_sound he
      exact build ((hr.trans hr').trans hr'') rfl (.inr ⟨_, rfl, hb⟩) hxs
  · obtain ⟨hr', hxs⟩ := importNames_sound hs hxs
    obtain ⟨hr'', source, rfl⟩ := importSource_sound he
    exact build ((hw.word.trans hr').trans hr'') rfl (.inl rfl) hxs

theorem parameters_sound {xs : List String} (hts : Scanned ts) (h : Takes (parameters ts) xs r) :
    Reads ts [] r ∧ ∀ x ∈ xs, IsBindable x := by
  obtain ⟨t, s, ht, ns, s', hns, rfl, rfl⟩ := takes_parameters.1 h
  obtain ⟨hr, hall⟩ := hns.sound (fun _ => []) (fun t => IsBindable t.text) s.length
    (fun us x s _ hus hx => ⟨hx.name, hx.bindable hus⟩) (Nat.le_refl _) (ht.mark.scanned hts)
  exact ⟨by simpa [flatMap_nil] using ht.mark.trans hr, by simpa using hall⟩

theorem arrowParameters_sound {xs : List String} (hts : Scanned ts)
    (h : Takes (arrowParameters ts) xs r) : Reads ts [] r ∧ ∀ x ∈ xs, IsBindable x := by
  rcases takes_arrowParameters.1 h with ⟨-, h⟩ | ⟨-, n, s, hn, rfl, rfl⟩
  · exact parameters_sound hts h
  · exact ⟨hn.name, by simpa using hn.bindable hts⟩

/-! ### Words of keys, operators and literals -/

theorem key_word {t : Token} (ht : t.word.Valid) (hk : t.kind = .number ∨ t.kind = .identifier) :
    Word.key t.text = t.word := by
  rcases hk with hk | hk
  · rw [Token.word, hk] at ht ⊢
    obtain ⟨c, r, hc, hs, -⟩ := ht
    have hc' : (c.isDigit || c == '.') = true := by
      simp only [Scan.startsNumeral, Bool.or_eq_true, Bool.and_eq_true] at hs ⊢
      exact hs.imp_right And.left
    simp [Word.key, hc, hc']
  · rw [Token.word, hk] at ht ⊢
    obtain ⟨c, r, hc, hs, -⟩ := ht
    have hc' : (c.isDigit || c == '.') = false := by
      rw [Bool.or_eq_false_iff]
      constructor
      · by_contra hd
        rw [Scan.isNameStart_eq_false_of_isDigit (by simpa using hd)] at hs
        cases hs
      · rw [beq_eq_false_iff_ne]
        rintro rfl
        exact absurd hs (by decide)
    simp [Word.key, hc, hc']

/-- The key of a property has been read; a numeral counts unless it stands between quotes. -/
theorem propertyKey_sound {k : String × Bool} (hts : Scanned ts)
    (h : Takes (propertyKey ts) k r) :
    Reads ts (if !k.2 && (Word.key k.1).kind = .number then [k.1] else []) r ∧
      (k.2 = false → (Word.key k.1).Valid) := by
  rcases takes_propertyKey.1 h with ⟨t, s, ht, rfl, rfl⟩ | ⟨-, t, s, ht, rfl, rfl⟩
  · have hk : t.kind = .string := by simpa using ht.2
    exact ⟨by simpa using ht.reads (by simp [hk]), by simp⟩
  · have hk : t.kind = .number ∨ t.kind = .identifier := by simpa using ht.2
    have hv := ht.valid hts (by rcases hk with hk | hk <;> simp [hk])
    rw [key_word hv hk]
    refine ⟨?_, fun _ => hv⟩
    rcases hk with hk | hk
    · simpa [Token.word, hk] using ht.reads_number hk
    · simpa [Token.word, hk] using ht.reads (by simp [hk])

theorem unary_word {t : Token} (h : isUnary t = true) : t.kind ≠ .number ∧
    t.text ∈ Operator.unaryMarks ++ Operator.unaryWords ∧ t.word = .operator t.text := by
  have hm : ∀ m ∈ Operator.unaryMarks, Word.operator m = ⟨.mark, m⟩ := by decide
  have hw : ∀ w ∈ Operator.unaryWords, Word.operator w = ⟨.identifier, w⟩ := by decide
  simp only [isUnary, Bool.or_eq_true, Bool.and_eq_true, decide_eq_true_eq,
    List.contains_eq_mem] at h
  rcases h with ⟨hk, ht⟩ | ⟨hk, ht⟩
  · exact ⟨by simp [hk], List.mem_append_left _ ht, by rw [hm _ ht, Token.word, hk]⟩
  · exact ⟨by simp [hk], List.mem_append_right _ ht, by rw [hw _ ht, Token.word, hk]⟩

theorem assigning_word {t : Token} (h : isAssigning t = true) : t.kind ≠ .number ∧
    t.text ∈ Operator.assigning ∧ t.word = .operator t.text := by
  have hm : ∀ m ∈ Operator.assigning, Word.operator m = ⟨.mark, m⟩ := by decide
  simp only [isAssigning, Bool.and_eq_true, decide_eq_true_eq, List.contains_eq_mem] at h
  exact ⟨by simp [h.1], h.2, by rw [hm _ h.2, Token.word, h.1]⟩

theorem operating_word {t : Token} (h : mayOperate t = true) (hv : t.word.Valid) :
    t.kind ≠ .number ∧ t.word = .operator t.text := by
  have hm : ∀ m ∈ Token.marks, Word.operator m = ⟨.mark, m⟩ := by decide
  simp only [mayOperate, Bool.or_eq_true, decide_eq_true_eq] at h
  rcases h with (hk | hw) | hw
  · rw [Token.word, hk] at hv ⊢
    exact ⟨by simp, (hm _ hv).symm⟩
  all_goals
    obtain ⟨hk, ht⟩ := Token.kind_of_isWord hw
    rw [Token.word, hk, ht]
    exact ⟨by simp, by decide⟩

/-- Operators bind less tightly than what has no operator between operands. -/
theorem precedence_bounds {op : String} {p : Nat} (h : Operator.precedence? op = some p) :
    1 ≤ p ∧ p ≤ 9 := by
  simp only [Operator.precedence?] at h
  repeat' split at h
  all_goals cases h
  all_goals decide

/-! ### Expressions -/

/-- An operand that binds at least as tightly as `least` has been read. -/
structure OperandRead (least : Nat) (ts : List Token) (e : Tree) (r : List Token) : Prop where
  reads : Reads ts e.numerals r
  fits : Fits .expression e
  strong : least ≤ e.strength
  opening : e.opening <+: ts.map Token.word
  atom : e.topIs Node.isAtom = true → ∃ t, ts = t :: r

/-- An expression has been read; it starts as the tokens do, unless it is an arrow function. -/
structure ExpressionRead (ts : List Token) (e : Tree) (r : List Token) : Prop where
  reads : Reads ts e.numerals r
  fits : Fits .expression e
  opening : e.topIs Node.isArrow = true ∨ e.opening <+: ts.map Token.word


/-- A phrase of one token has been read. -/
theorem atom_sound {t : Token} (hts : Scanned ts)
    (h : Front (fun t => (atom? t).isSome) ts t r) :
    OperandRead Strength.primary ts ((atom? t).elim .absent (.node (start ts))) r := by
  have hv : t.kind ≠ .endOfFile → t.word.Valid := h.valid hts
  have hskip : t.kind ≠ .number → Reads ts [] r := h.reads
  have hnum : t.kind = .number → Reads ts [t.text] r := h.reads_number
  obtain ⟨rfl, ha⟩ := h
  have literal {v : Literal} (hw : v.word = t.word) (hr : Reads (t :: r)
      (numerals (.node (start (t :: r)) (.literal v))) r) (hk : t.kind ≠ .endOfFile) :
      OperandRead Strength.primary (t :: r) (.node (start (t :: r)) (.literal v)) r :=
    ⟨hr, .literal (by rw [hw]; exact hv hk), Nat.le_refl _, by simp [opening, hw], fun _ => ⟨t, rfl⟩⟩
  cases hk : t.kind with
  | endOfFile => simp [atom?, hk] at ha
  | mark => simp [atom?, hk] at ha
  | string =>
    simp only [atom?, hk, Option.elim_some]
    refine literal (by simp [Literal.word, Token.word, hk]) ?_ (by simp [hk])
    rw [numerals_literal (by simp)]
    exact hskip (by simp [hk])
  | number =>
    simp only [atom?, hk, Option.elim_some]
    refine literal (by simp [Literal.word, Token.word, hk]) ?_ (by simp [hk])
    rw [numerals_number]
    exact hnum hk
  | identifier =>
    have keyword {v : Literal} (hw : v.word = ⟨.identifier, t.text⟩)
        (hn : ∀ spelling, v ≠ .number spelling) :
        OperandRead Strength.primary (t :: r) (.node (start (t :: r)) (.literal v)) r := by
      refine literal (by rw [hw, Token.word, hk]) ?_ (by simp [hk])
      rw [numerals_literal hn]
      exact hskip (by simp [hk])
    simp only [atom?, hk] at ha ⊢
    split
    · next ht => exact keyword (by simp [Literal.word, beq_iff_eq.1 ht]) (by simp)
    split
    · next ht => exact keyword (by simp [Literal.word, beq_iff_eq.1 ht]) (by simp)
    split
    · next ht => exact keyword (by simp [Literal.word, beq_iff_eq.1 ht]) (by simp)
    split
    · next ht =>
      have hw := hv (by simp [hk])
      rw [Token.word, hk] at hw
      refine ⟨?_, .identifier hw (by simpa using ht), Nat.le_refl _, ?_, fun _ => ⟨t, rfl⟩⟩
      · rw [Option.elim_some, numerals_node (by simp) (by simp)]
        exact hskip (by simp [hk])
      · simp [opening, Token.word, hk]
    · simp_all

theorem follow_prefix {first : Tree} {t : Token} (ho : first.opening <+: ts.map Token.word)
    (ha : first.topIs Node.isAtom = true → ∃ u s, ts = u :: t :: s) :
    Tree.follow first first.opening t.word <+: ts.map Token.word := by
  rw [Tree.follow]
  split
  · next hatom =>
    obtain ⟨u, s, rfl⟩ := ha hatom
    obtain ⟨w, hw⟩ := opening_of_atom hatom
    rw [hw, List.map_cons, List.cons_prefix_cons] at ho
    rw [hw, ho.1]
    simp
  · exact ho

namespace OperandRead

variable {ts₀ : List Token} {least : Nat} {left : Tree} {t : Token} {p : Token → Bool}

theorem mono {least' : Nat} (h : OperandRead least ts e r) (hl : least' ≤ least) :
    OperandRead least' ts e r :=
  { h with strong := Nat.le_trans hl h.strong }

/-- What stands behind an operand is its second word if the operand is a single one. -/
theorem follow (h : OperandRead least ts₀ left ts) (ht : Front p ts t s) :
    Tree.follow left left.opening t.word <+: ts₀.map Token.word := by
  refine follow_prefix h.opening fun ha => ?_
  obtain ⟨u, rfl⟩ := h.atom ha
  exact ⟨u, s, by rw [ht.1]⟩

end OperandRead

theorem ExpressionRead.not_opens {w : Word} (h : ExpressionRead ts e r)
    (hw : ∀ t s, ts = t :: s → t.word ≠ w) (hm : w ≠ ⟨.mark, "("⟩)
    (hr : w.kind = .identifier → Token.isReserved w.text = true) : ¬e.Opens w := by
  intro ho
  rcases h.opening with ha | ha
  · match e, ha, h.fits, ho with
    | .node _ (.arrow [x] _), _, hf, ho =>
      obtain rfl : w = ⟨.identifier, x⟩ := by simpa [Opens, Tree.opening, eq_comm] using ho
      have hx : IsBindable x := by
        cases hf <;> rename_i hp _ _ <;> exact hp x (by simp)
      rw [hx.2] at hr
      exact Bool.false_ne_true (hr rfl)
    | .node _ (.arrow [] _), _, _, ho => exact hm (by simpa [Opens, Tree.opening, eq_comm] using ho)
    | .node _ (.arrow (_ :: _ :: _) _), _, _, ho =>
      exact hm (by simpa [Opens, Tree.opening, eq_comm] using ho)
  · obtain ⟨ws, hws⟩ := List.head?_eq_some_iff.1 ho
    rw [hws] at ha
    cases ts with
    | nil => simp at ha
    | cons t s =>
      rw [List.map_cons, List.cons_prefix_cons] at ha
      exact hw t s rfl ha.1.symm

theorem ExpressionRead.not_opensLet (h : ExpressionRead ts e r)
    (hl : ((current ts).isWord "let" && (next ts).kind = .identifier) = false) :
    ¬e.opensLet := by
  rintro ⟨x, ho⟩
  rcases h.opening with ha | ha
  · match e, ha, ho with
    | .node _ (.arrow [x] _), _, ho => simp [Tree.opening] at ho
    | .node _ (.arrow [] _), _, ho => simp [Tree.opening] at ho
    | .node _ (.arrow (_ :: _ :: _) _), _, ho => simp [Tree.opening] at ho
  · rw [ho] at ha
    match ts, ha with
    | t :: u :: s, ha =>
      simp only [List.map_cons, List.cons_prefix_cons, Token.word, Word.mk.injEq] at ha
      simp [current, next, Token.isWord, ← ha.1.1, ← ha.1.2, ← ha.2.1.1] at hl
    | [t], ha => simp at ha
    | [], ha => simp at ha

/-! ### The induction -/

/-- A statement without an `if` at its end. -/
theorem StatementRead.of_closed (hr : Reads ts e.numerals r) (hf : Fits .statement e)
    (hc : e.endsOpen = false) : StatementRead ts e r :=
  ⟨hr, hf, fun h => by simp [hc] at h⟩

/-- A binary operator that binds tighter than `least` does not follow. -/
def Resists (least : Nat) (ts : List Token) : Prop :=
  ∀ op p s, Operates 0 ts op p s → p ≤ least

theorem resists_of_none {least : Nat} (h : binaryOperator? least ts = none) : Resists least ts := by
  intro op p s hop
  by_contra hp
  obtain ⟨t, ht, hw, ho, -⟩ := operates_iff.1 hop
  obtain ⟨_, e⟩ := operates_iff.2 ⟨t, ht, hw, ho, Nat.lt_of_not_le hp⟩
  rw [h] at e
  cases e

/-- The word that opens a declaration is no numeral. -/
theorem kind_of_keyword {t : Token} (hts : Scanned ts)
    (h : Front (fun t => (keyword? t).isSome) ts t s) : t.kind ≠ .number := by
  intro hk
  have hv := h.valid hts (by simp [hk])
  rw [Token.word, hk] at hv
  obtain ⟨c, r, hc, hs, -⟩ := hv
  have hdigit : c.isDigit = true ∨ c = '.' := by
    simp only [Scan.startsNumeral, Bool.or_eq_true, Bool.and_eq_true, beq_iff_eq] at hs
    exact hs.imp_right And.left
  have hkey := h.2
  simp only [keyword?] at hkey
  split at hkey
  · next ht =>
    rw [beq_iff_eq.1 ht] at hc
    cases hc
    exact absurd hdigit (by decide)
  split at hkey
  · next ht =>
    rw [beq_iff_eq.1 ht] at hc
    cases hc
    exact absurd hdigit (by decide)
  split at hkey
  · next ht =>
    rw [beq_iff_eq.1 ht] at hc
    cases hc
    exact absurd hdigit (by decide)
  · cases hkey

/-- A primary expression that starts like a function is one. -/
theorem isFunction_of_opens (hf : Fits .expression e) (hs : Strength.primary ≤ e.strength)
    (ho : e.Opens ⟨.identifier, "function"⟩) : e.topIs Node.isFunction = true := by
  have weak {a : Nat} (ha : a < Strength.primary) (h : Strength.primary ≤ a) : False :=
    absurd h (Nat.not_le_of_lt ha)
  cases hf with
  | functionExpression => rfl
  | arrow => rfl
  | arrowBlock => rfl
  | identifier hx hr =>
    simp only [Opens, opening, List.head?_cons, Option.some.injEq, Word.mk.injEq, true_and] at ho
    subst ho
    exact absurd hr (by decide)
  | @literal _ v =>
    match v with
    | .string _ | .number _ | .null | .boolean true | .boolean false =>
      simp [Opens, opening, Literal.word] at ho
  | parenthesized | object | array => simp [Opens, opening] at ho
  | binary hop _ _ _ _ =>
    have := precedence_bounds hop
    simp only [strength, Node.strength, Strength.operators, Strength.primary, hop,
      Option.getD_some] at hs
    omega
  | _ => exact absurd hs (by simp only [strength, Node.strength]; decide)

theorem isPath_of_primary (h : Strength.primary ≤ e.strength) : e.isPath = true := by
  match e with
  | .absent | .dangling => rfl
  | .node _ top =>
    cases top <;> first
      | exact decide_eq_true h
      | (simp only [strength, Node.strength] at h; exact absurd h (by decide))

/-- All statements and expressions of fewer than `n` tokens are read as they should be. -/
structure SoundBelow (n : Nat) : Prop where
  statement {ts r : List Token} {e : Tree} (hlen : ts.length < n) (hts : Scanned ts)
    (h : Takes (statement ts) e r) : StatementRead ts e r
  expression {ts r : List Token} {e : Tree} (hlen : ts.length < n) (hts : Scanned ts)
    (h : Takes (expression ts) e r) : ExpressionRead ts e r

section

variable {n : Nat} (ih : SoundBelow n)
include ih

theorem statements_sound {ts r : List Token} {body : List Tree} (hlen : ts.length < n) (hts : Scanned ts)
    (h : Takes (statements ts) body r) :
    Reads ts (body.flatMap numerals) r ∧ ∀ e ∈ body, Fits .statement e := by
  rcases takes_statements.1 h with ⟨t, s, ht, rfl, rfl⟩ |
    ⟨-, -, e, s, he, more, s', hmore, rfl, rfl⟩
  · exact ⟨ht.mark, by simp⟩
  · have := he.shorter
    have he := ih.statement (by omega) hts he
    obtain ⟨hr, hall⟩ := statements_sound (by omega) (he.reads.scanned hts) hmore
    exact ⟨by simpa using he.reads.trans hr, by simpa using ⟨he.fits, hall⟩⟩
termination_by ts.length

theorem block_sound {ts r : List Token} {e : Tree} (hlen : ts.length ≤ n) (hts : Scanned ts)
    (h : Takes (block ts) e r) :
    StatementRead ts e r ∧ e.topIs Node.isBlock = true := by
  obtain ⟨t, s, ht, body, s', hbody, rfl, rfl⟩ := takes_block.1 h
  have := ht.length
  obtain ⟨hr, hall⟩ := statements_sound ih (by omega) (ht.mark.scanned hts) hbody
  refine ⟨.of_closed ?_ (.block hall) rfl, rfl⟩
  rw [numerals_node (by simp) (by simp)]
  exact ht.mark.trans hr

theorem arguments_sound {ts r : List Token} {args : List Tree} (hlen : ts.length ≤ n) (hts : Scanned ts)
    (h : Takes (arguments ts) args r) :
    ∃ t, (∃ s, Front (·.isMark "(") ts t s) ∧ Reads ts (args.flatMap numerals) r ∧
      ∀ a ∈ args, Fits .expression a := by
  obtain ⟨t, s, ht, xs, s', hxs, rfl, rfl⟩ := takes_arguments.1 h
  have := ht.length
  obtain ⟨hr, hall⟩ := hxs.sound numerals (Fits .expression) s.length
    (fun us x s' _ hus hx =>
      have hx := ih.expression (by omega) hus hx
      ⟨hx.reads, hx.fits⟩) (Nat.le_refl _) (ht.mark.scanned hts)
  exact ⟨t, ⟨s, ht⟩, by simpa using ht.mark.trans hr, hall⟩

theorem property_sound {ts r : List Token} {e : Tree} (hlen : ts.length ≤ n)
    (hts : Scanned ts)
    (h : Takes (property ts) e r) : Reads ts e.numerals r ∧ Fits .property e := by
  obtain ⟨k, s, hk, h⟩ := takes_property.1 h
  have := hk.shorter
  obtain ⟨hr, hkey⟩ := propertyKey_sound hts hk
  rcases h with ⟨c, s', hc, v, s'', hv, rfl, rfl⟩ | ⟨-, hq, rfl, rfl⟩
  · have := hc.length
    have hr := hr.trans hc.mark
    have hv := ih.expression (by omega) (hr.scanned hts) hv
    refine ⟨?_, .property hkey hv.fits⟩
    rw [numerals_property]
    simpa using hr.trans hv.reads
  · refine ⟨?_, .shorthand (hkey hq)⟩
    rw [numerals_property]
    simpa [hq] using hr

theorem functionExpression_sound {ts r : List Token} {e : Tree} (hlen : ts.length ≤ n)
    (hts : Scanned ts)
    (h : Takes (functionExpression ts) e r) : OperandRead Strength.primary ts e r := by
  obtain ⟨w, s, hw, h⟩ := takes_functionExpression.1 h
  have := hw.length
  have hs := hw.word.scanned hts
  have hopen : w.word :: s.map Token.word = ts.map Token.word := by rw [hw.1, List.map_cons]
  rw [w.word_of_isWord hw.2] at hopen
  rcases h with ⟨-, n, s', hn, params, s'', hp, body, s₃, hb, rfl, rfl⟩ |
    ⟨-, params, s', hp, body, s'', hb, rfl, rfl⟩
  · have hr := hw.word.trans hn.name
    have := hn.length
    obtain ⟨hr', hp'⟩ := parameters_sound (hr.scanned hts) hp
    have hr := hr.trans hr'
    have := hr'.length_le
    obtain ⟨hb, htop⟩ := block_sound ih (by omega) (hr.scanned hts) hb
    refine ⟨?_, .functionExpression ?_ hp' hb.fits htop, Nat.le_refl _, ?_,
      by simp [topIs, top?, Node.isAtom]⟩
    · rw [numerals_node (by simp) (by simp)]
      simpa [Node.children] using hr.trans hb.reads
    · simpa using hn.bindable hs
    · obtain ⟨rfl, hname⟩ := hn
      rw [opening, ← hopen, List.cons_prefix_cons, List.map_cons, List.cons_prefix_cons,
        Token.word, (Token.kind_of_isName hname).1]
      exact ⟨rfl, rfl, List.nil_prefix⟩
  · have := hp.shorter
    obtain ⟨hr', hp'⟩ := parameters_sound hs hp
    have hr := hw.word.trans hr'
    obtain ⟨hb, htop⟩ := block_sound ih (by omega) (hr.scanned hts) hb
    refine ⟨?_, .functionExpression (by simp) hp' hb.fits htop, Nat.le_refl _, ?_,
      by simp [topIs, top?, Node.isAtom]⟩
    · rw [numerals_node (by simp) (by simp)]
      simpa [Node.children] using hr.trans hb.reads
    · obtain ⟨t, s₂, ht, -⟩ := takes_parameters.1 hp
      rw [opening, ← hopen, List.cons_prefix_cons, ht.1, List.map_cons, List.cons_prefix_cons,
        t.word_of_isMark ht.2]
      exact ⟨rfl, rfl, List.nil_prefix⟩

theorem primary_sound {ts r : List Token} {e : Tree} (hlen : ts.length ≤ n)
    (hts : Scanned ts)
    (h : Takes (primary ts) e r) : OperandRead Strength.primary ts e r := by
  rcases takes_primary.1 h with ⟨t, s, ht, rfl, rfl⟩ | ⟨-, ⟨-, h⟩ |
    ⟨t, s, ht, x, s', hx, c, s'', hc, rfl, rfl⟩ | ⟨t, s, ht, ps, s', hps, rfl, rfl⟩ |
    ⟨t, s, ht, es, s', hes, rfl, rfl⟩⟩
  · exact atom_sound hts ht
  · exact functionExpression_sound ih (by omega) hts h
  all_goals
    have := ht.length
    have hs := ht.mark.scanned hts
    have hopen : [t.word] <+: ts.map Token.word := by simp [ht.1]
    rw [t.word_of_isMark ht.2] at hopen
  · have hx := ih.expression (by omega) hs hx
    refine ⟨?_, .parenthesized hx.fits, Nat.le_refl _, hopen, by simp [topIs, top?, Node.isAtom]⟩
    rw [numerals_node (by simp) (by simp)]
    simpa [Node.children] using (ht.mark.trans hx.reads).trans hc.mark
  · obtain ⟨hr, hall⟩ := hps.sound numerals (Fits .property) s.length
      (fun us x s' _ hus hx => property_sound ih (by omega) hus hx) (Nat.le_refl _) hs
    refine ⟨?_, .object hall, Nat.le_refl _, hopen, by simp [topIs, top?, Node.isAtom]⟩
    rw [numerals_node (by simp) (by simp)]
    simpa [Node.children] using ht.mark.trans hr
  · obtain ⟨hr, hall⟩ := hes.sound numerals (Fits .expression) s.length
      (fun us x s' _ hus hx =>
        have hx := ih.expression (by omega) hus hx
        ⟨hx.reads, hx.fits⟩) (Nat.le_refl _) hs
    refine ⟨?_, .array hall, Nat.le_refl _, hopen, by simp [topIs, top?, Node.isAtom]⟩
    rw [numerals_node (by simp) (by simp)]
    simpa [Node.children] using ht.mark.trans hr

theorem access_sound {ts₀ ts r : List Token} {object e : Tree} {start : Nat}
    (hlen : ts.length ≤ n) (hts : Scanned ts₀) (ho : OperandRead Strength.call ts₀ object ts)
    (h : Finds (access? start object ts) e r) :
    OperandRead Strength.call ts₀ e r ∧ (object.isPath = true → e.isPath = true) := by
  rcases finds_access?.1 h with ⟨d, s, hd, n, s', hn, rfl, rfl⟩ |
    ⟨-, b, s, hb, i, s', hi, c, s'', hc, rfl, rfl⟩
  · have hk : n.kind = .identifier := by simpa using hn.2
    have hr := ho.reads.trans hd.mark
    have hname := hn.spelled (hr.scanned hts) hk
    refine ⟨⟨?_, .member ho.fits ho.strong hname, Nat.le_refl _, ?_, ?_⟩, id⟩
    · rw [numerals_node (by simp) (by simp)]
      simpa [Node.children] using hr.trans (hn.reads (by simp [hk]))
    · rw [opening, ← d.word_of_isMark hd.2]
      exact ho.follow hd
    · simp [topIs, top?, Node.isAtom]
  · have hr := ho.reads.trans hb.mark
    have := hb.length
    have hi := ih.expression (by omega) (hr.scanned hts) hi
    refine ⟨⟨?_, .element ho.fits ho.strong hi.fits, Nat.le_refl _, ?_, ?_⟩, id⟩
    · rw [numerals_node (by simp) (by simp)]
      simpa [Node.children] using (hr.trans hi.reads).trans hc.mark
    · rw [opening, ← b.word_of_isMark hb.2]
      exact ho.follow hb
    · simp [topIs, top?, Node.isAtom]

theorem accessTail_sound {ts₀ ts r : List Token} {object e : Tree} {start : Nat}
    (hlen : ts.length ≤ n) (hts : Scanned ts₀) (ho : OperandRead Strength.call ts₀ object ts)
    (hp : object.isPath = true) (h : Takes (accessTail start object ts) e r) :
    OperandRead Strength.call ts₀ e r ∧ e.isPath = true := by
  rcases takes_accessTail.1 h with ⟨-, rfl, rfl⟩ | ⟨o, s, hfound, x, s', hx, rfl, rfl⟩
  · exact ⟨ho, hp⟩
  · have := hfound.shorter
    obtain ⟨ho', hp'⟩ := access_sound ih (by omega) hts ho hfound
    exact accessTail_sound (by omega) hts ho' (hp' hp) hx
termination_by ts.length

theorem construct_sound {ts r : List Token} {e : Tree} (hlen : ts.length ≤ n)
    (hts : Scanned ts)
    (h : Takes (construct ts) e r) : OperandRead Strength.call ts e r := by
  obtain ⟨w, s, hw, o, s', ho, c, s'', hc, h⟩ := takes_construct.1 h
  have hs := hw.word.scanned hts
  have := hw.length
  have ho := primary_sound ih (by omega) hs ho
  have := ho.reads.length_le
  obtain ⟨hc, hpath⟩ := accessTail_sound ih (by omega) hs (ho.mono (by decide))
    (isPath_of_primary ho.strong) hc
  have := hc.reads.length_le
  have opens {args : List Tree} : opening (.node (start ts) (.construct c args)) <+:
      ts.map Token.word := by
    rw [opening, ← w.word_of_isWord hw.2, hw.1, List.map_cons, List.cons_prefix_cons]
    exact ⟨rfl, (List.take_prefix ..).trans hc.opening⟩
  have hr := hw.word.trans hc.reads
  rcases h with ⟨-, args, s₃, hargs, rfl, rfl⟩ | ⟨-, rfl, rfl⟩
  · obtain ⟨-, -, hr', hfits⟩ := arguments_sound ih (by omega) (hr.scanned hts) hargs
    refine ⟨?_, .construct hc.fits hpath hfits, Nat.le_refl _, opens, ?_⟩
    · rw [numerals_node (by simp) (by simp)]
      simpa [Node.children] using hr.trans hr'
    · simp [topIs, top?, Node.isAtom]
  · refine ⟨?_, .construct hc.fits hpath (by simp), Nat.le_refl _, opens, ?_⟩
    · rw [numerals_node (by simp) (by simp)]
      simpa [Node.children] using hr
    · simp [topIs, top?, Node.isAtom]

theorem callTail_sound {ts₀ ts r : List Token} {callee e : Tree} {start : Nat}
    (hlen : ts.length ≤ n) (hts : Scanned ts₀) (hc : OperandRead Strength.call ts₀ callee ts)
    (h : Takes (callTail start callee ts) e r) :
    OperandRead Strength.call ts₀ e r := by
  rcases takes_callTail.1 h with ⟨hp, args, s, hargs, x, s', hx, rfl, rfl⟩ |
    ⟨-, ⟨-, rfl, rfl⟩ | ⟨o, s, ho, x, s', hx, rfl, rfl⟩⟩
  · have := hargs.shorter
    obtain ⟨t, ht, hr, hfits⟩ := arguments_sound ih (by omega) (hc.reads.scanned hts) hargs
    refine callTail_sound (by omega) hts
      ⟨?_, .call hc.fits hc.strong hfits, Nat.le_refl _, ?_, ?_⟩ hx
    · rw [numerals_node (by simp) (by simp)]
      simpa [Node.children] using hc.reads.trans hr
    · obtain ⟨s₂, ht⟩ := ht
      rw [opening, ← t.word_of_isMark ht.2]
      exact hc.follow ht
    · simp [topIs, top?, Node.isAtom]
  · exact hc
  · have := ho.shorter
    exact callTail_sound (by omega) hts (access_sound ih (by omega) hts hc ho).1 hx
termination_by ts.length

theorem unary_sound {ts r : List Token} {e : Tree} (hlen : ts.length ≤ n)
    (hts : Scanned ts)
    (h : Takes (unary ts) e r) : OperandRead Strength.unary ts e r := by
  rcases takes_unary.1 h with ⟨op, s, hop, x, s', hx, rfl, rfl⟩ | ⟨-, c, s, hc, x, s', hx, rfl, rfl⟩
  · obtain ⟨hk, hop', hw⟩ := unary_word hop.2
    have := hop.length
    have hr := hop.reads hk
    have hx := unary_sound (by omega) (hr.scanned hts) hx
    refine ⟨?_, .unary hop' hx.fits hx.strong, Nat.le_refl _, ?_,
      by simp [topIs, top?, Node.isAtom]⟩
    · rw [numerals_node (by simp) (by simp)]
      simpa [Node.children] using hr.trans hx.reads
    · rw [opening, ← hw, hop.1, List.map_cons, List.cons_prefix_cons]
      exact ⟨rfl, (List.take_prefix ..).trans hx.opening⟩
  · have hshort : s.length < ts.length := by
      split at hc <;> exact hc.shorter
    have hc : OperandRead Strength.call ts c s := by
      split at hc
      · exact construct_sound ih (by omega) hts hc
      · exact (primary_sound ih (by omega) hts hc).mono (by decide)
    exact (callTail_sound ih (by omega) hts hc hx).mono (by decide)
termination_by ts.length

set_option linter.unusedSectionVars false in
mutual

theorem binary_sound {ts r : List Token} {e : Tree} {least : Nat} (hlen : ts.length ≤ n)
    (hts : Scanned ts) (hl : least ≤ 9) (h : Takes (binary least ts) e r) :
    OperandRead (Strength.operators + least + 1) ts e r ∧ Resists least r := by
  obtain ⟨l, s, hu, x, s', hx, rfl, rfl⟩ := takes_binary.1 h
  have := hu.shorter
  have hu := unary_sound ih (by omega) hts hu
  have hstrong : Strength.operators + least + 1 ≤ Strength.unary := by
    simp only [Strength.operators, Strength.unary]
    omega
  refine binaryTail_sound (by omega) hts (hu.mono hstrong) ?_ hx
  intro op p s'' hop
  obtain ⟨_, -, -, hp, -⟩ := operates_iff.1 hop
  have := precedence_bounds hp
  have := hu.strong
  simp only [Strength.operators, Strength.unary] at *
  omega
termination_by (ts.length, 1)

theorem binaryTail_sound {ts₀ ts r : List Token} {left e : Tree} {start least : Nat}
    (hlen : ts.length ≤ n) (hts : Scanned ts₀)
    (hl : OperandRead (Strength.operators + least + 1) ts₀ left ts)
    (hn : ∀ op p s, Operates 0 ts op p s → Strength.operators + p ≤ left.strength)
    (h : Takes (binaryTail start least left ts) e r) :
    OperandRead (Strength.operators + least + 1) ts₀ e r ∧ Resists least r := by
  rcases takes_binaryTail.1 h with ⟨hnone, rfl, rfl⟩ |
    ⟨op, p, s, hop, x, s', hx, y, s'', hy, rfl, rfl⟩
  · exact ⟨hl, resists_of_none hnone⟩
  · obtain ⟨t, ht, rfl, hp, hlt⟩ := operates_iff.1 hop
    have hkind : t.kind ≠ .endOfFile := by
      intro hk
      simpa [mayOperate, Token.isWord, hk] using ht.2
    obtain ⟨hk, hw⟩ := operating_word ht.2 (ht.valid (hl.reads.scanned hts) hkind)
    have hr := hl.reads.trans (ht.reads hk)
    have := ht.length
    obtain ⟨hx, hres⟩ := binary_sound (by omega) (hr.scanned hts) (precedence_bounds hp).2 hx
    have := hx.reads.length_le
    have hstrength : strength (.node start (.binary left t.text x)) = Strength.operators + p := by
      simp [strength, Node.strength, hp]
    refine binaryTail_sound (by omega) hts ⟨?_, ?_, ?_, ?_, ?_⟩ ?_ hy
    · rw [numerals_node (by simp) (by simp)]
      simpa [Node.children] using hr.trans hx.reads
    · exact .binary hp hl.fits hx.fits (hn _ _ _ (operates_iff.2 ⟨t, ht, rfl, hp, by omega⟩))
        hx.strong
    · rw [hstrength]
      omega
    · rw [opening, ← hw]
      exact hl.follow ht
    · simp [topIs, top?, Node.isAtom]
    · intro op q s'' hop
      rw [hstrength]
      exact Nat.add_le_add_left (hres _ _ _ hop) _
termination_by (ts.length, 0)

end

theorem conditional_sound {ts r : List Token} {e : Tree} (hlen : ts.length ≤ n)
    (hts : Scanned ts)
    (h : Takes (conditional ts) e r) : OperandRead Strength.conditional ts e r := by
  obtain ⟨c, s, hc, h⟩ := takes_conditional.1 h
  obtain ⟨hc, -⟩ := binary_sound ih (by omega) hts (by decide) hc
  rcases h with ⟨-, rfl, rfl⟩ | ⟨q, s', hq, y, s₂, hy, k, s₃, hk, n, s₄, hn, rfl, rfl⟩
  · exact hc.mono (by decide)
  · have hr := hc.reads.trans hq.mark
    have := hq.length
    have := hc.reads.length_le
    have hy := ih.expression (by omega) (hr.scanned hts) hy
    have hr := hr.trans (hy.reads.trans hk.mark)
    have := hk.length
    have := hy.reads.length_le
    have hn := ih.expression (by omega) (hr.scanned hts) hn
    refine ⟨?_, .conditional hc.fits (Nat.le_trans (by decide) hc.strong) hy.fits hn.fits,
      Nat.le_refl _, ?_, by simp [topIs, top?, Node.isAtom]⟩
    · rw [numerals_node (by simp) (by simp)]
      simpa [Node.children] using hr.trans hn.reads
    · rw [opening, ← q.word_of_isMark hq.2]
      exact hc.follow hq

theorem arrow_sound {ts r : List Token} {e : Tree} (hlen : ts.length ≤ n) (hts : Scanned ts)
    (h : Takes (arrow ts) e r) :
    ExpressionRead ts e r := by
  obtain ⟨params, s, hp, t, s', ht, body, s'', hb, rfl, rfl⟩ := takes_arrow.1 h
  obtain ⟨hr, hp⟩ := arrowParameters_sound hts hp
  have := hr.length_le
  have := ht.length
  have hr := hr.trans ht.mark
  split at hb
  · obtain ⟨hb, htop⟩ := block_sound ih (by omega) (hr.scanned hts) hb
    refine ⟨?_, .arrowBlock hp hb.fits htop, .inl rfl⟩
    rw [numerals_node (by simp) (by simp)]
    simpa [Node.children] using hr.trans hb.reads
  · next hbrace =>
    have hb := ih.expression (by omega) (hr.scanned hts) hb
    refine ⟨?_, .arrow hp hb.fits ?_, .inl rfl⟩
    · rw [numerals_node (by simp) (by simp)]
      simpa [Node.children] using hr.trans hb.reads
    · refine hb.not_opens ?_ (by simp) (by simp)
      rintro u us rfl hu
      rw [Token.word, Word.mk.injEq] at hu
      simp [atMark, current, Token.isMark, hu] at hbrace

theorem expression_sound {ts r : List Token} {e : Tree} (hlen : ts.length ≤ n)
    (hts : Scanned ts)
    (h : Takes (expression ts) e r) : ExpressionRead ts e r := by
  rcases takes_expression.1 h with ⟨-, h⟩ | ⟨-, t, s, ht, h⟩
  · exact arrow_sound ih (by omega) hts h
  · have ht := conditional_sound ih (by omega) hts ht
    rcases h with ⟨-, rfl, rfl⟩ | ⟨op, s', hop, ha, v, s'', hv, rfl, rfl⟩
    · exact ⟨ht.reads, ht.fits, .inr ht.opening⟩
    · obtain ⟨hk, hop', hw⟩ := assigning_word hop.2
      have hr := ht.reads.trans (hop.reads hk)
      have := ht.reads.length_le
      have := hop.length
      have hv := ih.expression (by omega) (hr.scanned hts) hv
      refine ⟨?_, .assignment hop' ht.fits ha hv.fits, .inr ?_⟩
      · rw [numerals_node (by simp) (by simp)]
        simpa [Node.children] using hr.trans hv.reads
      · rw [opening, ← hw]
        exact ht.follow hop

theorem initializer_sound {ts r : List Token} {keyword : VarKeyword} {e : Tree} {name : String}
    (hlen : ts.length ≤ n) (hts : Scanned ts) (hn : IsBindable name) (start : Nat)
    (h : Takes (initializer keyword ts) e r) :
    Reads ts e.numerals r ∧ Fits (.declarator keyword) (.node start (.declarator name e)) := by
  rcases takes_initializer.1 h with ⟨t, s, ht, x, s', hx, rfl, rfl⟩ | ⟨-, hk, rfl, rfl⟩
  · have := ht.length
    have hx := ih.expression (by omega) (ht.mark.scanned hts) hx
    exact ⟨by simpa using ht.mark.trans hx.reads, .declarator hn hx.fits⟩
  · exact ⟨.refl _, .uninitialized hn hk⟩

theorem declarators_sound {ts r : List Token} {keyword : VarKeyword} {ds : List Tree}
    (hlen : ts.length ≤ n) (hts : Scanned ts) (h : Takes (declarators keyword ts) ds r) :
    Reads ts (ds.flatMap numerals) r ∧ ds ≠ [] ∧ ∀ d ∈ ds, Fits (.declarator keyword) d := by
  obtain ⟨n, s, hn, init, s', hinit, h⟩ := takes_declarators.1 h
  have := hn.length
  obtain ⟨hr, hd⟩ := initializer_sound ih (by omega) (hn.name.scanned hts) (hn.bindable hts)
    (start ts) hinit
  have hr := hn.name.trans hr
  rcases h with ⟨-, rfl, rfl⟩ | ⟨c, s₂, hc, more, s₃, hmore, rfl, rfl⟩
  · exact ⟨by simpa [numerals_node, Node.children] using hr, by simp, by simpa using hd⟩
  · have := hinit.bound
    have := hc.length
    have hr := hr.trans hc.mark
    obtain ⟨hr', -, hall⟩ := declarators_sound (by omega) (hr.scanned hts) hmore
    exact ⟨by simpa [numerals_node, Node.children] using hr.trans hr', by simp,
      by simpa using ⟨hd, hall⟩⟩
termination_by ts.length

theorem varDeclaration_sound {ts r : List Token} {e : Tree} (hlen : ts.length ≤ n)
    (hts : Scanned ts)
    (h : Takes (varDeclaration ts) e r) :
    StatementRead ts e r ∧ e.topIs Node.isDeclaration = true := by
  obtain ⟨t, s, ht, ds, s', hds, s'', hs'', rfl, rfl⟩ := takes_varDeclaration.1 h
  have := ht.length
  have hr := ht.reads (kind_of_keyword hts ht)
  obtain ⟨hr', hne, hall⟩ := declarators_sound ih (by omega) (hr.scanned hts) hds
  refine ⟨.of_closed ?_ (.varDeclaration hne hall) rfl, rfl⟩
  rw [numerals_node (by simp) (by simp)]
  simpa [Node.children] using (hr.trans hr').trans (reads_of_semicolon hs'')

theorem functionDeclaration_sound {ts r : List Token} {e : Tree} (hlen : ts.length ≤ n)
    (hts : Scanned ts)
    (h : Takes (functionDeclaration ts) e r) :
    StatementRead ts e r ∧ e.topIs Node.isDeclaration = true := by
  obtain ⟨w, s, hw, n, s', hn, params, s'', hp, body, s₃, hb, rfl, rfl⟩ :=
    takes_functionDeclaration.1 h
  have := hw.length
  have := hn.length
  have := hp.shorter
  have hr := hw.word.trans hn.name
  obtain ⟨hr', hp⟩ := parameters_sound (hr.scanned hts) hp
  have hr := hr.trans hr'
  obtain ⟨hb, htop⟩ := block_sound ih (by omega) (hr.scanned hts) hb
  refine ⟨.of_closed ?_ (.functionDeclaration (hn.bindable (hw.word.scanned hts)) hp hb.fits htop)
    rfl, rfl⟩
  rw [numerals_node (by simp) (by simp)]
  simpa [Node.children] using hr.trans hb.reads

theorem ifStatement_sound {ts r : List Token} {e : Tree} (hlen : ts.length ≤ n)
    (hts : Scanned ts)
    (h : Takes (ifStatement ts) e r) : StatementRead ts e r := by
  obtain ⟨w, s, hw, a, s', ha, c, s₂, hc, b, s₃, hb, y, s₄, hy, h⟩ := takes_ifStatement.1 h
  have := hw.length
  have := ha.length
  have := hc.shorter
  have := hb.length
  have := hy.shorter
  have hr := hw.word.trans ha.mark
  have hc := ih.expression (by omega) (hr.scanned hts) hc
  have hr := (hr.trans hc.reads).trans hb.mark
  have hy := ih.statement (by omega) (hr.scanned hts) hy
  have hr := hr.trans hy.reads
  rcases h with ⟨helse, rfl, rfl⟩ | ⟨t, s₅, ht, n, s₆, hn, rfl, rfl⟩
  · refine ⟨?_, .ifOnly hc.fits hy.fits, fun _ => helse⟩
    rw [numerals_node (by simp) (by simp)]
    simpa [Node.children] using hr
  · have := ht.length
    have hr := hr.trans ht.word
    have hn := ih.statement (by omega) (hr.scanned hts) hn
    refine ⟨?_, .ifElse hc.fits hy.fits hn.fits ?_, ?_⟩
    · rw [numerals_node (by simp) (by simp)]
      simpa [Node.children] using hr.trans hn.reads
    · by_contra ho
      obtain ⟨_, e⟩ := ht.take?
      simp [hy.closed (by simpa using ho)] at e
    · have hopen : endsOpen (.node (start ts) (.ifElse c y n)) = n.endsOpen := by
        cases hn.fits <;> rfl
      rw [hopen]
      exact hn.closed

theorem returnStatement_sound {ts r : List Token} {e : Tree} (hlen : ts.length ≤ n)
    (hts : Scanned ts)
    (h : Takes (returnStatement ts) e r) : StatementRead ts e r := by
  obtain ⟨w, s, hw, h⟩ := takes_returnStatement.1 h
  have := hw.length
  rcases h with ⟨-, s', hs, rfl, rfl⟩ | ⟨-, x, s', hx, s'', hs, rfl, rfl⟩
  · refine .of_closed ?_ .returnOnly rfl
    rw [numerals_node (by simp) (by simp)]
    exact hw.word.trans (reads_of_semicolon hs)
  · have hx := ih.expression (by omega) (hw.word.scanned hts) hx
    refine .of_closed ?_ (.returnStatement hx.fits) rfl
    rw [numerals_node (by simp) (by simp)]
    simpa [Node.children] using (hw.word.trans hx.reads).trans (reads_of_semicolon hs)

theorem throwStatement_sound {ts r : List Token} {e : Tree} (hlen : ts.length ≤ n)
    (hts : Scanned ts)
    (h : Takes (throwStatement ts) e r) : StatementRead ts e r := by
  obtain ⟨w, s, hw, -, x, s', hx, s'', hs, rfl, rfl⟩ := takes_throwStatement.1 h
  have := hw.length
  have hx := ih.expression (by omega) (hw.word.scanned hts) hx
  refine .of_closed ?_ (.throwStatement hx.fits) rfl
  rw [numerals_node (by simp) (by simp)]
  simpa [Node.children] using (hw.word.trans hx.reads).trans (reads_of_semicolon hs)

theorem expressionStatement_sound {ts r : List Token} {e : Tree} (hlen : ts.length ≤ n)
    (hts : Scanned ts)
    (hb : (current ts).isMark "\x7b" = false)
    (hl : ((current ts).isWord "let" && (next ts).kind = .identifier) = false)
    (hf : (current ts).isWord "function" = false) (h : Takes (expressionStatement ts) e r) :
    StatementRead ts e r := by
  obtain ⟨x, s, hx, s', hs, rfl, rfl⟩ := takes_expressionStatement.1 h
  have hx := expression_sound ih hlen hts hx
  refine .of_closed ?_ (.expressionStatement hx.fits ?_ ?_ (hx.not_opensLet hl)) rfl
  · rw [numerals_node (by simp) (by simp)]
    simpa [Node.children] using hx.reads.trans (reads_of_semicolon hs)
  · refine hx.not_opens ?_ (by simp) (by simp)
    rintro t us rfl ht
    rw [Token.word, Word.mk.injEq] at ht
    simp [current, Token.isMark, ht] at hb
  · refine hx.not_opens ?_ (by simp) (by decide)
    rintro t us rfl ht
    rw [Token.word, Word.mk.injEq] at ht
    simp [current, Token.isWord, ht] at hf

theorem exportStatement_sound {ts r : List Token} {e : Tree} (hlen : ts.length ≤ n)
    (hts : Scanned ts)
    (h : Takes (exportStatement ts) e r) : StatementRead ts e r := by
  obtain ⟨w, s, hw, h⟩ := takes_exportStatement.1 h
  have hs := hw.word.scanned hts
  have := hw.length
  rcases h with ⟨t, s', ht, x, s₂, hx, s₃, hs₃, rfl, rfl⟩ | ⟨-, d, s', hd, rfl, rfl⟩
  · have := ht.length
    have hr := hw.word.trans ht.word
    split at hx
    · have hx := functionExpression_sound ih (by omega) (hr.scanned hts) hx
      refine .of_closed ?_ (.exportDefault hx.fits fun ho => ?_) rfl
      · rw [numerals_node (by simp) (by simp)]
        simpa [Node.children] using (hr.trans hx.reads).trans (reads_of_semicolon hs₃)
      · exact isFunction_of_opens hx.fits hx.strong ho
    · next hfun =>
      have hx := ih.expression (by omega) (hr.scanned hts) hx
      refine .of_closed ?_ (.exportDefault hx.fits fun ho => ?_) rfl
      · rw [numerals_node (by simp) (by simp)]
        simpa [Node.children] using (hr.trans hx.reads).trans (reads_of_semicolon hs₃)
      · refine absurd ho (hx.not_opens ?_ (by simp) (by decide))
        rintro t us rfl ht
        rw [Token.word, Word.mk.injEq] at ht
        simp [atWord, current, Token.isWord, ht] at hfun
  · have hd : StatementRead s d r ∧ d.topIs Node.isDeclaration = true := by
      split at hd
      · exact varDeclaration_sound ih (by omega) hs hd
      · exact functionDeclaration_sound ih (by omega) hs hd.2
    refine .of_closed ?_ (.exportDeclaration hd.1.fits hd.2) rfl
    rw [numerals_node (by simp) (by simp)]
    simpa [Node.children] using hw.word.trans hd.1.reads

theorem statement_sound {ts r : List Token} {e : Tree} (hlen : ts.length ≤ n)
    (hts : Scanned ts)
    (h : Takes (statement ts) e r) : StatementRead ts e r := by
  replace h := takes_statement.1 h
  dsimp only at h
  split at h
  · exact (block_sound ih (by omega) hts h).1
  split at h
  · obtain ⟨t, s, ht, rfl, rfl⟩ := h
    refine .of_closed ?_ .emptyStatement rfl
    rw [numerals_node (by simp) (by simp)]
    exact ht.mark
  split at h
  · exact importStatement_sound hts h
  split at h
  · exact exportStatement_sound ih (by omega) hts h
  split at h
  · exact (varDeclaration_sound ih (by omega) hts h).1
  split at h
  · exact (varDeclaration_sound ih (by omega) hts h).1
  split at h
  · exact (functionDeclaration_sound ih (by omega) hts h).1
  split at h
  · exact ifStatement_sound ih (by omega) hts h
  split at h
  · exact returnStatement_sound ih (by omega) hts h
  split at h
  · exact throwStatement_sound ih (by omega) hts h
  · simp_all only [Bool.not_eq_true]
    exact expressionStatement_sound ih (by omega) hts ‹_› ‹_› ‹_› h

end

theorem soundBelow (n : Nat) : SoundBelow n := by
  induction n with
  | zero => exact ⟨fun h => absurd h (Nat.not_lt_zero _), fun h => absurd h (Nat.not_lt_zero _)⟩
  | succ n ih =>
    exact ⟨fun hn => statement_sound ih (Nat.le_of_lt_succ hn),
      fun hn => expression_sound ih (Nat.le_of_lt_succ hn)⟩

end Grammar

end DebugGuard
