import DebugGuard.Proofs.Script.Fenced
import DebugGuard.Proofs.Script.Tree

/-!
# The grammar stays within a script

The grammar reads a script up to its end of file and no further, phrase by phrase
(`Grammar.confinedBelow`): what stands behind the end of file changes nothing, and what is refused
is a token of the script.  The same induction follows the names from the tokens into the tree
(`Tree.Named`).

Main statement: `Grammar.script_confined`.
-/

namespace DebugGuard

/-! ### Names among the tokens -/

/-- The text of one of the tokens that satisfy `p`. -/
def TextAmong (ts : List Token) (p : Token → Bool) (x : String) : Prop :=
  ∃ t ∈ ts, p t = true ∧ t.text = x

/-- All names are names among the tokens, but for `this`, for the imported name of a specifier that
binds it as it is, and for the key of a property that is its own value. -/
inductive Tree.Named (ts : List Token) : Tree → Prop
  | absent : Named ts .absent
  | node {pos top} (hnames : ∀ x ∈ top.ownNames, TextAmong ts Token.isName x)
      (hbelow : ∀ t ∈ top.children, Named ts t) : Named ts (.node pos top)
  | this {pos} : Named ts (.node pos (.identifier "this"))
  | importName {pos x} (hx : TextAmong ts (·.kind = .identifier) x) :
      Named ts (.node pos (.importName x x))
  | shorthand {pos pos' key}
      (hkey : TextAmong ts (fun t => t.kind = .number || t.kind = .identifier) key) :
      Named ts (.node pos (.property key false (.node pos' (.identifier key)) true))

namespace Tree.Named

variable {ts : List Token} {pos : Nat} {top : Node Tree}

theorem nameless (hnames : top.ownNames = []) (hbelow : ∀ t ∈ top.children, Named ts t) :
    Named ts (.node pos top) :=
  .node (by simp [hnames]) hbelow

/-- One tree below names of its own. -/
theorem scope {x : Tree} (hnames : ∀ x ∈ top.ownNames, TextAmong ts Token.isName x)
    (hx : Named ts x) (hbelow : top.children = [x]) : Named ts (.node pos top) :=
  .node hnames (by simpa [hbelow] using hx)

theorem single {x : Tree} (hx : Named ts x) (hnames : top.ownNames = [])
    (hbelow : top.children = [x]) : Named ts (.node pos top) :=
  scope (by simp [hnames]) hx hbelow

/-- A name by itself. -/
theorem leaf {t : Token} (ht : t ∈ ts ∧ t.isName = true) (hnames : top.ownNames = [t.text])
    (hbelow : top.children = []) : Named ts (.node pos top) :=
  .node (by simpa [hnames] using ⟨t, ht.1, ht.2, rfl⟩) (by simp [hbelow])

theorem literal {v : Literal} : Named ts (.node pos (.literal v)) :=
  nameless rfl (by simp [Node.children])

theorem atom {t : Token} (ht : t ∈ ts) (h : Grammar.atom? t = some top) :
    Named ts (.node pos top) := by
  rw [Grammar.atom?] at h
  split at h
  · cases h
    exact literal
  · cases h
    exact literal
  · next hk =>
    split at h
    · cases h
      exact literal
    split at h
    · cases h
      exact literal
    split at h
    · cases h
      exact literal
    split at h
    · next hname =>
      cases h
      rcases Bool.or_eq_true_iff.1 hname with hthis | hfree
      · rw [beq_iff_eq.1 hthis]
        exact .this
      · exact leaf ⟨ht, by simpa [Token.isName, hk] using hfree⟩ rfl rfl
    · cases h
  · cases h

end Tree.Named

namespace Grammar

open Cursor DebugGuard.Tree

variable {all extra ts us : List Token}

/-! ### Phrases without expressions -/

/-- Readings of trees are confined, and the names of the tree are among the tokens. -/
abbrev ConfinedTree (all extra : List Token) (x : Reading (Taken ts Tree))
    (y : Reading (Taken us Tree)) : Prop :=
  Confined all (Read.Fenced all extra (Named all)) x y

theorem importName_confined (h : Fenced all extra ts us) :
    ConfinedTree all extra (importName ts) (importName us) := by
  rw [importName, importName, h.start_eq]
  refine h.anyName.bind_taken fun n r hr s hs hn hrs => ?_
  dsimp only
  obtain ⟨e, e'⟩ | ⟨t, r, hr, s, hs, e, e', hrs⟩ := hrs.word? "as"
  · rw [e, e']
    exact ⟨⟨rfl, .importName ⟨n, hn.1, hn.2, rfl⟩⟩, hrs⟩
  · rw [e, e']
    exact hrs.name.bind_taken fun b _ _ _ _ hb h' => ⟨⟨rfl, .leaf hb rfl rfl⟩, h'⟩

theorem importSource_confined {start : Nat} {xs : List Tree} (h : Fenced all extra ts us) :
    Confined all (Read.Fenced all extra fun e => (∀ x ∈ xs, Named all x) → Named all e)
      (importSource start xs ts) (importSource start xs us) := by
  rw [importSource, importSource]
  refine (h.word "from").bind_taken fun _ _ _ _ _ _ h => ?_
  refine h.stringLiteral.bind_taken fun _ _ _ _ _ _ h => ?_
  refine h.semicolon.bind_taken fun _ _ _ _ _ _ h => ?_
  exact ⟨⟨rfl, fun hxs => .nameless rfl hxs⟩, h⟩

theorem importNames_confined (h : Fenced all extra ts us) :
    Confined all (Read.Fenced all extra fun xs => ∀ x ∈ xs, Named all x) (importNames ts)
      (importNames us) := by
  rw [importNames, importNames, h.start_eq]
  obtain ⟨e, e'⟩ | ⟨t, r, hr, s, hs, e, e', hrs⟩ := h.mark? "*"
  · rw [e, e']
    refine (h.mark _).bind_taken fun _ _ _ _ _ _ h => ?_
    refine (h.commaList fun _ _ _ _ h => importName_confined h).bind_taken ?_
    exact fun _ _ _ _ _ hxs h => ⟨⟨rfl, hxs⟩, h⟩
  · rw [e, e']
    refine (hrs.word "as").bind_taken fun _ _ _ _ _ _ hrs => ?_
    refine hrs.name.bind_taken fun b _ _ _ _ hb hrs => ?_
    exact ⟨⟨rfl, by simpa using .leaf hb rfl rfl⟩, hrs⟩

theorem importStatement_confined (h : Fenced all extra ts us) :
    ConfinedTree all extra (importStatement ts) (importStatement us) := by
  rw [importStatement, importStatement, h.start_eq]
  refine (h.word "import").bind_taken fun _ r _ s _ _ hrs => ?_
  dsimp only
  rw [hrs.current_eq, hrs.start_eq]
  by_cases hk : (current r).kind = .string
  · rw [if_pos hk, if_pos hk]
    refine hrs.stringLiteral.bind_taken fun _ _ _ _ _ _ hrs => ?_
    refine hrs.semicolon.bind_taken fun _ _ _ _ _ _ hrs => ?_
    exact ⟨⟨rfl, .nameless rfl (by simp [Node.children])⟩, hrs⟩
  rw [if_neg hk, if_neg hk]
  by_cases hn : (current r).kind = .identifier
  · rw [if_pos hn, if_pos hn]
    refine hrs.name.bind_taken fun b _ _ _ _ hb hrs' => ?_
    have hfirst : Named all (.node (start r) (.importDefault b.text)) := .leaf hb rfl rfl
    dsimp only
    obtain ⟨e, e'⟩ | ⟨t, r, hr, s, hs, e, e', hrs⟩ := hrs'.mark? ","
    · rw [e, e']
      exact (importSource_confined hrs').bind_taken
        fun _ _ _ _ _ hx h => ⟨⟨rfl, hx (by simpa using hfirst)⟩, h⟩
    · rw [e, e']
      refine (importNames_confined hrs).bind_taken fun _ _ _ _ _ hxs hrs => ?_
      exact (importSource_confined hrs).bind_taken
        fun _ _ _ _ _ hx h => ⟨⟨rfl, hx (List.forall_mem_cons.2 ⟨hfirst, hxs⟩)⟩, h⟩
  · rw [if_neg hn, if_neg hn]
    refine (importNames_confined hrs).bind_taken fun _ _ _ _ _ hxs hrs => ?_
    exact (importSource_confined hrs).bind_taken fun _ _ _ _ _ hx h => ⟨⟨rfl, hx hxs⟩, h⟩

theorem parameters_confined (h : Fenced all extra ts us) :
    Confined all (Read.Fenced all extra fun xs => ∀ x ∈ xs, TextAmong all Token.isName x)
      (parameters ts) (parameters us) := by
  rw [parameters, parameters]
  refine (h.mark "(").bind_taken fun _ _ _ _ _ _ h => ?_
  refine (h.commaList fun _ _ _ _ h => h.name).bind_taken fun ns _ _ _ _ hns h => ?_
  refine ⟨⟨rfl, fun x hx => ?_⟩, h⟩
  obtain ⟨n, hn, rfl⟩ := List.mem_map.1 hx
  exact ⟨n, (hns n hn).1, (hns n hn).2, rfl⟩

theorem arrowParameters_confined (h : Fenced all extra ts us) :
    Confined all (Read.Fenced all extra fun xs => ∀ x ∈ xs, TextAmong all Token.isName x)
      (arrowParameters ts) (arrowParameters us) := by
  rw [arrowParameters, arrowParameters, h.atMark_eq]
  refine .ite (fun _ => parameters_confined h) fun _ => ?_
  refine h.name.bind_taken fun n _ _ _ _ hn h => ?_
  exact ⟨⟨rfl, by simpa using ⟨n, hn.1, hn.2, rfl⟩⟩, h⟩

/-- A key without quotes is the text of a number or of an identifier. -/
theorem propertyKey_confined (h : Fenced all extra ts us) :
    Confined all (Read.Fenced all extra fun k : String × Bool => k.2 = false →
        TextAmong all (fun t => t.kind = .number || t.kind = .identifier) k.1)
      (propertyKey ts) (propertyKey us) := by
  rw [propertyKey, propertyKey]
  obtain ⟨e, e'⟩ | ⟨t, r, hr, s, hs, e, e', -, hrs⟩ :=
    h.take? (p := fun t => t.kind = .string) fun _ he => he.not_kind (by decide)
  · rw [e, e']
    dsimp only
    obtain ⟨e, e'⟩ | ⟨t, r, hr, s, hs, e, e', ht, hrs⟩ :=
      h.take? (p := fun t => t.kind = .number || t.kind = .identifier) fun _ he => by
        rw [he.not_kind (by decide), he.not_kind (by decide), Bool.or_false]
    · rw [e, e']
      exact h.unexpected _
    · rw [e, e']
      exact ⟨⟨rfl, fun _ => ⟨t, ht.1, ht.2, rfl⟩⟩, hrs⟩
  · rw [e, e']
    exact ⟨⟨rfl, fun hquoted => by cases hquoted⟩, hrs⟩

/-! ### Statements and expressions -/

/-- Statements and expressions of fewer than `n` tokens are confined. -/
structure ConfinedBelow (all extra : List Token) (n : Nat) : Prop where
  statement {ts us : List Token} (hlen : ts.length < n) (h : Fenced all extra ts us) :
    ConfinedTree all extra (statement ts) (statement us)
  expression {ts us : List Token} (hlen : ts.length < n) (h : Fenced all extra ts us) :
    ConfinedTree all extra (expression ts) (expression us)

section

variable {n : Nat} (ih : ConfinedBelow all extra n)
include ih

theorem statements_confined {ts us : List Token} (hlen : ts.length < n)
    (h : Fenced all extra ts us) :
    Confined all (Read.Fenced all extra fun xs => ∀ x ∈ xs, Named all x) (statements ts)
      (statements us) := by
  rw [statements, statements]
  obtain ⟨e, e'⟩ | ⟨t, r, hr, s, hs, e, e', hrs⟩ := h.mark? "\x7d"
  · rw [e, e', h.atEnd_eq]
    refine .ite (fun _ => h.unexpected _) fun _ => ?_
    refine (ih.statement hlen h).bind_taken fun _ r hr s _ hx hrs => ?_
    refine (statements_confined (Nat.lt_trans hr hlen) hrs).bind_taken fun _ _ _ _ _ hxs h => ?_
    exact ⟨⟨rfl, List.forall_mem_cons.2 ⟨hx, hxs⟩⟩, h⟩
  · rw [e, e']
    exact ⟨⟨rfl, by simp⟩, hrs⟩
termination_by ts.length

theorem block_confined {ts us : List Token} (hlen : ts.length ≤ n) (h : Fenced all extra ts us) :
    ConfinedTree all extra (block ts) (block us) := by
  rw [block, block, h.start_eq]
  refine (h.mark _).bind_taken fun _ r hr s _ _ hrs => ?_
  refine (statements_confined ih (by omega) hrs).bind_taken fun _ _ _ _ _ hxs hrs => ?_
  exact ⟨⟨rfl, .nameless rfl hxs⟩, hrs⟩

theorem arguments_confined {ts us : List Token} (hlen : ts.length ≤ n)
    (h : Fenced all extra ts us) :
    Confined all (Read.Fenced all extra fun xs => ∀ x ∈ xs, Named all x) (arguments ts)
      (arguments us) := by
  rw [arguments, arguments]
  refine (h.mark "(").bind_taken fun _ r hr s _ _ hrs => ?_
  refine (hrs.commaList fun vs _ hvs _ h => ih.expression (by omega) h).bind_taken ?_
  exact fun _ _ _ _ _ hxs h => ⟨⟨rfl, hxs⟩, h⟩

theorem property_confined {ts us : List Token} (hlen : ts.length ≤ n)
    (h : Fenced all extra ts us) : ConfinedTree all extra (property ts) (property us) := by
  rw [property, property, h.start_eq]
  refine (propertyKey_confined h).bind_taken fun k r hr s _ hk hrs => ?_
  obtain ⟨key, quoted⟩ := k
  dsimp only at hk ⊢
  obtain ⟨e, e'⟩ | ⟨t, r', hr', s', hs', e, e', hrs'⟩ := hrs.mark? ":"
  · rw [e, e']
    refine .ite (fun _ => hrs.unexpected _) fun hquoted => ?_
    exact ⟨⟨rfl, .shorthand (hk hquoted)⟩, hrs⟩
  · rw [e, e']
    refine (ih.expression (by omega) hrs').bind_taken fun v _ _ _ _ hv hrs => ?_
    exact ⟨⟨rfl, .single hv rfl rfl⟩, hrs⟩

theorem functionExpression_confined {ts us : List Token} (hlen : ts.length ≤ n)
    (h : Fenced all extra ts us) :
    ConfinedTree all extra (functionExpression ts) (functionExpression us) := by
  rw [functionExpression, functionExpression, h.start_eq]
  refine (h.word "function").bind_taken fun _ r hr s _ _ hrs => ?_
  dsimp only
  rw [hrs.current_eq]
  by_cases hk : (current r).kind = .identifier
  · rw [if_pos hk, if_pos hk]
    refine hrs.name.bind_taken fun m _ hr' _ _ hm hrs => ?_
    refine (parameters_confined hrs).bind_taken fun _ _ hr'' _ _ hparams hrs => ?_
    refine (block_confined ih (by omega) hrs).bind_taken fun _ _ _ _ _ hbody hrs => ?_
    refine ⟨⟨rfl, .scope ?_ hbody rfl⟩, hrs⟩
    exact List.forall_mem_cons.2 ⟨⟨m, hm.1, hm.2, rfl⟩, hparams⟩
  · rw [if_neg hk, if_neg hk]
    refine (parameters_confined hrs).bind_taken fun _ _ hr'' _ _ hparams hrs => ?_
    refine (block_confined ih (by omega) hrs).bind_taken fun _ _ _ _ _ hbody hrs => ?_
    exact ⟨⟨rfl, .scope hparams hbody rfl⟩, hrs⟩

theorem primary_confined {ts us : List Token} (hlen : ts.length ≤ n) (h : Fenced all extra ts us) :
    ConfinedTree all extra (primary ts) (primary us) := by
  rw [primary, primary, h.start_eq]
  obtain ⟨e, e'⟩ | ⟨t, r, hr, s, hs, e, e', ht, hrs⟩ :=
    h.take? fun _ he => he.not_isSome_atom?
  · rw [e, e', h.atWord_eq]
    refine .ite (fun _ => functionExpression_confined ih hlen h) fun _ => ?_
    obtain ⟨e, e'⟩ | ⟨t, r, hr, s, hs, e, e', hrs⟩ := h.mark? "("
    · rw [e, e']
      dsimp only
      obtain ⟨e, e'⟩ | ⟨t, r, hr, s, hs, e, e', hrs⟩ := h.mark? "\x7b"
      · rw [e, e']
        dsimp only
        obtain ⟨e, e'⟩ | ⟨t, r, hr, s, hs, e, e', hrs⟩ := h.mark? "["
        · rw [e, e']
          exact h.unexpected _
        · rw [e, e']
          refine (hrs.commaList fun _ _ _ _ h => ih.expression (by omega) h).bind_taken
            fun _ _ _ _ _ hxs h' => ?_
          exact ⟨⟨rfl, .nameless rfl hxs⟩, h'⟩
      · rw [e, e']
        refine (hrs.commaList fun _ _ _ _ h => property_confined ih (by omega) h).bind_taken
          fun _ _ _ _ _ hxs h' => ?_
        exact ⟨⟨rfl, .nameless rfl hxs⟩, h'⟩
    · rw [e, e']
      refine (ih.expression (by omega) hrs).bind_taken fun _ _ _ _ _ hx hrs => ?_
      refine (hrs.mark ")").bind_taken fun _ _ _ _ _ _ hrs => ?_
      exact ⟨⟨rfl, .single hx rfl rfl⟩, hrs⟩
  · rw [e, e']
    refine ⟨⟨rfl, ?_⟩, hrs⟩
    obtain ⟨top, htop⟩ := Option.isSome_iff_exists.1 ht.2
    simp only [htop, Option.elim]
    exact .atom ht.1 htop

theorem access?_confined {ts us : List Token} {start : Nat} {x : Tree} (hlen : ts.length ≤ n)
    (h : Fenced all extra ts us) :
    Confined all (Option.Rel (Read.Fenced all extra fun e => Named all x → Named all e))
      (access? start x ts) (access? start x us) := by
  rw [access?, access?]
  obtain ⟨e, e'⟩ | ⟨t, r, hr, s, hs, e, e', hrs⟩ := h.mark? "."
  · rw [e, e']
    dsimp only
    obtain ⟨e, e'⟩ | ⟨t, r, hr, s, hs, e, e', hrs⟩ := h.mark? "["
    · rw [e, e']
      exact .none
    · rw [e, e']
      refine (ih.expression (by omega) hrs).bind_taken fun _ _ _ _ _ hi hrs => ?_
      refine (hrs.mark "]").bind_taken fun _ _ _ _ _ _ hrs => ?_
      refine .some ⟨⟨rfl, fun hx => ?_⟩, hrs⟩
      exact .nameless rfl (by simpa [Node.children] using ⟨hx, hi⟩)
  · rw [e, e']
    refine hrs.anyName.bind_taken fun _ _ _ _ _ _ hrs => ?_
    exact .some ⟨⟨rfl, fun hx => .single hx rfl rfl⟩, hrs⟩

theorem accessTail_confined {ts us : List Token} {start : Nat} {x : Tree} (hlen : ts.length ≤ n)
    (h : Fenced all extra ts us) :
    Confined all (Read.Fenced all extra fun e => Named all x → Named all e)
      (accessTail start x ts) (accessTail start x us) := by
  rw [accessTail, accessTail]
  refine (access?_confined ih hlen h).bind_found ⟨⟨rfl, id⟩, h⟩ fun _ r hr s _ hv hrs => ?_
  exact (accessTail_confined (by omega) hrs).bind_taken
    fun _ _ _ _ _ hw h => ⟨⟨rfl, fun hx => hw (hv hx)⟩, h⟩
termination_by ts.length

theorem construct_confined {ts us : List Token} (hlen : ts.length ≤ n)
    (h : Fenced all extra ts us) : ConfinedTree all extra (construct ts) (construct us) := by
  rw [construct, construct, h.start_eq]
  refine (h.word "new").bind_taken fun _ r hr s _ _ hrs => ?_
  refine (primary_confined ih (by omega) hrs).bind_taken fun _ r' hr' s' _ hx hrs => ?_
  refine (accessTail_confined ih (by omega) hrs).bind_taken fun y r'' hr'' s'' _ hy hrs => ?_
  have hy := hy hx
  dsimp only
  rw [hrs.atMark_eq]
  refine .ite (fun _ => ?_) fun _ => ?_
  · refine (arguments_confined ih (by omega) hrs).bind_taken fun _ _ _ _ _ hxs hrs => ?_
    exact ⟨⟨rfl, .nameless rfl (List.forall_mem_cons.2 ⟨hy, hxs⟩)⟩, hrs⟩
  · exact ⟨⟨rfl, .single hy rfl rfl⟩, hrs⟩

theorem callTail_confined {ts us : List Token} {start : Nat} {x : Tree} (hlen : ts.length ≤ n)
    (h : Fenced all extra ts us) :
    Confined all (Read.Fenced all extra fun e => Named all x → Named all e)
      (callTail start x ts) (callTail start x us) := by
  rw [callTail, callTail, h.atMark_eq]
  refine .ite (fun _ => ?_) fun _ => ?_
  · refine (arguments_confined ih hlen h).bind_taken fun xs r hr s _ hxs hrs => ?_
    refine (callTail_confined (by omega) hrs).bind_taken fun _ _ _ _ _ hw h => ?_
    exact ⟨⟨rfl, fun hx => hw (.nameless rfl (List.forall_mem_cons.2 ⟨hx, hxs⟩))⟩, h⟩
  · refine (access?_confined ih hlen h).bind_found ⟨⟨rfl, id⟩, h⟩ fun _ r hr s _ hv hrs => ?_
    exact (callTail_confined (by omega) hrs).bind_taken
      fun _ _ _ _ _ hw h => ⟨⟨rfl, fun hx => hw (hv hx)⟩, h⟩
termination_by ts.length

theorem unary_confined {ts us : List Token} (hlen : ts.length ≤ n) (h : Fenced all extra ts us) :
    ConfinedTree all extra (unary ts) (unary us) := by
  rw [unary, unary, h.start_eq]
  obtain ⟨e, e'⟩ | ⟨t, r, hr, s, hs, e, e', -, hrs⟩ := h.take? fun _ he => he.not_isUnary
  · rw [e, e', h.atWord_eq]
    refine .ite (fun _ => ?_) fun _ => ?_
    · refine (construct_confined ih hlen h).bind_taken fun _ r hr s _ hx hrs => ?_
      exact (callTail_confined ih (by omega) hrs).bind_taken
        fun _ _ _ _ _ hw h => ⟨⟨rfl, hw hx⟩, h⟩
    · refine (primary_confined ih hlen h).bind_taken fun _ r hr s _ hx hrs => ?_
      exact (callTail_confined ih (by omega) hrs).bind_taken
        fun _ _ _ _ _ hw h => ⟨⟨rfl, hw hx⟩, h⟩
  · rw [e, e']
    refine (unary_confined (by omega) hrs).bind_taken fun _ _ _ _ _ hx hrs => ?_
    exact ⟨⟨rfl, .single hx rfl rfl⟩, hrs⟩
termination_by ts.length

set_option linter.unusedSectionVars false in
mutual

theorem binary_confined {ts us : List Token} {least : Nat} (hlen : ts.length ≤ n)
    (h : Fenced all extra ts us) : ConfinedTree all extra (binary least ts) (binary least us) := by
  rw [binary, binary, h.start_eq]
  refine (unary_confined ih hlen h).bind_taken fun _ r hr s _ hx hrs => ?_
  exact (binaryTail_confined (by omega) hrs).bind_taken fun _ _ _ _ _ hw h => ⟨⟨rfl, hw hx⟩, h⟩
termination_by (ts.length, 1)

theorem binaryTail_confined {ts us : List Token} {start least : Nat} {x : Tree}
    (hlen : ts.length ≤ n) (h : Fenced all extra ts us) :
    Confined all (Read.Fenced all extra fun e => Named all x → Named all e)
      (binaryTail start least x ts) (binaryTail start least x us) := by
  rw [binaryTail, binaryTail]
  obtain ⟨e, e'⟩ | ⟨⟨op, p⟩, r, hr, s, hs, e, e', hrs⟩ := h.binaryOperator? least
  · rw [e, e']
    exact ⟨⟨rfl, id⟩, h⟩
  · rw [e, e']
    refine (binary_confined (by omega) hrs).bind_taken fun z r' hr' s' _ hz hrs => ?_
    refine (binaryTail_confined (by omega) hrs).bind_taken fun _ _ _ _ _ hw h => ?_
    refine ⟨⟨rfl, fun hx => hw ?_⟩, h⟩
    exact .nameless rfl (by simpa [Node.children] using ⟨hx, hz⟩)
termination_by (ts.length, 0)

end

theorem conditional_confined {ts us : List Token} (hlen : ts.length ≤ n)
    (h : Fenced all extra ts us) : ConfinedTree all extra (conditional ts) (conditional us) := by
  rw [conditional, conditional, h.start_eq]
  refine (binary_confined ih hlen h).bind_taken fun _ r hr s _ hc hrs => ?_
  dsimp only
  obtain ⟨e, e'⟩ | ⟨t, r', hr', s', hs', e, e', hrs'⟩ := hrs.mark? "?"
  · rw [e, e']
    exact ⟨⟨rfl, hc⟩, hrs⟩
  · rw [e, e']
    refine (ih.expression (by omega) hrs').bind_taken fun _ r'' hr'' _ _ hy hrs => ?_
    refine (hrs.mark ":").bind_taken fun _ r₃ hr₃ _ _ _ hrs => ?_
    refine (ih.expression (by omega) hrs).bind_taken fun _ _ _ _ _ hn hrs => ?_
    exact ⟨⟨rfl, .nameless rfl (by simpa [Node.children] using ⟨hc, hy, hn⟩)⟩, hrs⟩

theorem arrow_confined {ts us : List Token} (hlen : ts.length ≤ n) (h : Fenced all extra ts us) :
    ConfinedTree all extra (arrow ts) (arrow us) := by
  rw [arrow, arrow, h.start_eq]
  refine (arrowParameters_confined h).bind_taken fun _ r hr s _ hparams hrs => ?_
  refine (hrs.mark "=>").bind_taken fun _ r' hr' s' _ _ hrs => ?_
  dsimp only
  rw [hrs.atMark_eq]
  refine .ite (fun _ => ?_) fun _ => ?_
  · refine (block_confined ih (by omega) hrs).bind_taken fun _ _ _ _ _ hbody hrs => ?_
    exact ⟨⟨rfl, .scope hparams hbody rfl⟩, hrs⟩
  · refine (ih.expression (by omega) hrs).bind_taken fun _ _ _ _ _ hbody hrs => ?_
    exact ⟨⟨rfl, .scope hparams hbody rfl⟩, hrs⟩

theorem expression_confined {ts us : List Token} (hlen : ts.length ≤ n)
    (h : Fenced all extra ts us) : ConfinedTree all extra (expression ts) (expression us) := by
  rw [expression, expression, h.atArrow_eq, h.start_eq]
  refine .ite (fun _ => arrow_confined ih hlen h) fun _ => ?_
  refine (conditional_confined ih hlen h).bind_taken fun x r hr s _ hx hrs => ?_
  dsimp only
  obtain ⟨e, e'⟩ | ⟨t, r', hr', s', hs', e, e', -, hrs'⟩ :=
    hrs.take? fun _ he => he.not_isAssigning
  · rw [e, e']
    exact ⟨⟨rfl, hx⟩, hrs⟩
  · rw [e, e']
    refine .ite (fun _ => ?_) fun _ => hrs.unexpected _
    refine (ih.expression (by omega) hrs').bind_taken fun _ _ _ _ _ hv hrs => ?_
    exact ⟨⟨rfl, .nameless rfl (by simpa [Node.children] using ⟨hx, hv⟩)⟩, hrs⟩

theorem initializer_confined {ts us : List Token} {keyword : VarKeyword} (hlen : ts.length ≤ n)
    (h : Fenced all extra ts us) :
    Confined all (Read.Fenced all extra (Named all)) (initializer keyword ts)
      (initializer keyword us) := by
  rw [initializer, initializer]
  obtain ⟨e, e'⟩ | ⟨t, r, hr, s, hs, e, e', hrs⟩ := h.mark? "="
  · rw [e, e']
    dsimp only
    by_cases hk : keyword = .const
    · rw [if_pos hk, if_pos hk]
      exact h.unexpected _
    · rw [if_neg hk, if_neg hk]
      exact ⟨⟨rfl, .absent⟩, h⟩
  · rw [e, e']
    exact (ih.expression (by omega) hrs).bind_taken fun _ _ _ _ _ hx h => ⟨⟨rfl, hx⟩, h⟩

theorem declarators_confined {ts us : List Token} {keyword : VarKeyword} (hlen : ts.length ≤ n)
    (h : Fenced all extra ts us) :
    Confined all (Read.Fenced all extra fun xs => ∀ x ∈ xs, Named all x) (declarators keyword ts)
      (declarators keyword us) := by
  rw [declarators, declarators, h.start_eq]
  refine h.name.bind_taken fun m r hr s _ hm hrs => ?_
  refine (initializer_confined ih (by omega) hrs).bind_taken fun x r' hr' s' _ hx hrs => ?_
  have hd : Named all (.node (start ts) (.declarator m.text x)) :=
    .scope (by simpa [Node.ownNames] using ⟨m, hm.1, hm.2, rfl⟩) hx rfl
  dsimp only
  obtain ⟨e, e'⟩ | ⟨t, r'', hr'', s'', hs'', e, e', hrs'⟩ := hrs.mark? ","
  · rw [e, e']
    exact ⟨⟨rfl, by simpa using hd⟩, hrs⟩
  · rw [e, e']
    exact (declarators_confined (by omega) hrs').bind_taken
      fun _ _ _ _ _ hds h => ⟨⟨rfl, List.forall_mem_cons.2 ⟨hd, hds⟩⟩, h⟩
termination_by ts.length

theorem varDeclaration_confined {ts us : List Token} (hlen : ts.length ≤ n)
    (h : Fenced all extra ts us) :
    ConfinedTree all extra (varDeclaration ts) (varDeclaration us) := by
  rw [varDeclaration, varDeclaration, h.start_eq]
  obtain ⟨e, e'⟩ | ⟨t, r, hr, s, hs, e, e', -, hrs⟩ :=
    h.take? fun _ he => he.not_isSome_keyword?
  · rw [e, e']
    exact h.unexpected _
  · rw [e, e']
    refine (declarators_confined ih (by omega) hrs).bind_taken fun _ _ _ _ _ hds hrs => ?_
    refine hrs.semicolon.bind_taken fun _ _ _ _ _ _ hrs => ?_
    exact ⟨⟨rfl, .nameless rfl hds⟩, hrs⟩

theorem functionDeclaration_confined {ts us : List Token} (hlen : ts.length ≤ n)
    (h : Fenced all extra ts us) :
    ConfinedTree all extra (functionDeclaration ts) (functionDeclaration us) := by
  rw [functionDeclaration, functionDeclaration, h.start_eq]
  refine (h.word "function").bind_taken fun _ r hr _ _ _ hrs => ?_
  refine hrs.name.bind_taken fun m r' hr' _ _ hm hrs => ?_
  refine (parameters_confined hrs).bind_taken fun _ r'' hr'' _ _ hparams hrs => ?_
  refine (block_confined ih (by omega) hrs).bind_taken fun _ _ _ _ _ hbody hrs => ?_
  refine ⟨⟨rfl, .scope ?_ hbody rfl⟩, hrs⟩
  exact List.forall_mem_cons.2 ⟨⟨m, hm.1, hm.2, rfl⟩, hparams⟩

theorem ifStatement_confined {ts us : List Token} (hlen : ts.length ≤ n)
    (h : Fenced all extra ts us) : ConfinedTree all extra (ifStatement ts) (ifStatement us) := by
  rw [ifStatement, ifStatement, h.start_eq]
  refine (h.word "if").bind_taken fun _ r hr _ _ _ hrs => ?_
  refine (hrs.mark "(").bind_taken fun _ r' hr' _ _ _ hrs => ?_
  refine (ih.expression (by omega) hrs).bind_taken fun _ r₂ hr₂ _ _ hc hrs => ?_
  refine (hrs.mark ")").bind_taken fun _ r₃ hr₃ _ _ _ hrs => ?_
  refine (ih.statement (by omega) hrs).bind_taken fun _ r₄ hr₄ _ _ hy hrs => ?_
  dsimp only
  obtain ⟨e, e'⟩ | ⟨t, r₅, hr₅, s₅, hs₅, e, e', hrs'⟩ := hrs.word? "else"
  · rw [e, e']
    exact ⟨⟨rfl, .nameless rfl (by simpa [Node.children] using ⟨hc, hy, .absent⟩)⟩, hrs⟩
  · rw [e, e']
    refine (ih.statement (by omega) hrs').bind_taken fun _ _ _ _ _ hn hrs => ?_
    exact ⟨⟨rfl, .nameless rfl (by simpa [Node.children] using ⟨hc, hy, hn⟩)⟩, hrs⟩

theorem returnStatement_confined {ts us : List Token} (hlen : ts.length ≤ n)
    (h : Fenced all extra ts us) :
    ConfinedTree all extra (returnStatement ts) (returnStatement us) := by
  rw [returnStatement, returnStatement, h.start_eq]
  refine (h.word "return").bind_taken fun _ r hr _ _ _ hrs => ?_
  dsimp only
  rw [hrs.current_eq]
  refine .ite (fun _ => ?_) fun _ => ?_
  · refine hrs.semicolon.bind_taken fun _ _ _ _ _ _ hrs => ?_
    exact ⟨⟨rfl, .single .absent rfl rfl⟩, hrs⟩
  · refine (ih.expression (by omega) hrs).bind_taken fun _ _ _ _ _ hx hrs => ?_
    refine hrs.semicolon.bind_taken fun _ _ _ _ _ _ hrs => ?_
    exact ⟨⟨rfl, .single hx rfl rfl⟩, hrs⟩

theorem throwStatement_confined {ts us : List Token} (hlen : ts.length ≤ n)
    (h : Fenced all extra ts us) :
    ConfinedTree all extra (throwStatement ts) (throwStatement us) := by
  rw [throwStatement, throwStatement, h.start_eq]
  refine (h.word "throw").bind_taken fun _ r hr _ _ _ hrs => ?_
  dsimp only
  rw [hrs.current_eq]
  refine .ite (fun _ => hrs.unexpected _) fun _ => ?_
  refine (ih.expression (by omega) hrs).bind_taken fun _ _ _ _ _ hx hrs => ?_
  refine hrs.semicolon.bind_taken fun _ _ _ _ _ _ hrs => ?_
  exact ⟨⟨rfl, .single hx rfl rfl⟩, hrs⟩

theorem expressionStatement_confined {ts us : List Token} (hlen : ts.length ≤ n)
    (h : Fenced all extra ts us) :
    ConfinedTree all extra (expressionStatement ts) (expressionStatement us) := by
  rw [expressionStatement, expressionStatement, h.start_eq]
  refine (expression_confined ih hlen h).bind_taken fun _ _ _ _ _ hx hrs => ?_
  refine hrs.semicolon.bind_taken fun _ _ _ _ _ _ hrs => ?_
  exact ⟨⟨rfl, .single hx rfl rfl⟩, hrs⟩

theorem exportStatement_confined {ts us : List Token} (hlen : ts.length ≤ n)
    (h : Fenced all extra ts us) :
    ConfinedTree all extra (exportStatement ts) (exportStatement us) := by
  rw [exportStatement, exportStatement, h.start_eq]
  refine (h.word "export").bind_taken fun _ r hr _ _ _ hrs => ?_
  dsimp only
  obtain ⟨e, e'⟩ | ⟨t, r', hr', s', hs', e, e', hrs'⟩ := hrs.word? "default"
  · rw [e, e', hrs.current_eq]
    dsimp only
    refine .ite (fun _ => ?_) fun _ => ?_
    · refine (varDeclaration_confined ih (by omega) hrs).bind_taken fun _ _ _ _ _ hd hrs => ?_
      exact ⟨⟨rfl, .single hd rfl rfl⟩, hrs⟩
    refine .ite (fun _ => ?_) fun _ => ?_
    · refine (functionDeclaration_confined ih (by omega) hrs).bind_taken
        fun _ _ _ _ _ hd hrs => ?_
      exact ⟨⟨rfl, .single hd rfl rfl⟩, hrs⟩
    · exact hrs.unexpected _
  · rw [e, e']
    dsimp only
    rw [hrs'.atWord_eq]
    refine .ite (fun _ => ?_) fun _ => ?_
    · refine (functionExpression_confined ih (by omega) hrs').bind_taken fun _ _ _ _ _ hx hrs => ?_
      refine hrs.semicolon.bind_taken fun _ _ _ _ _ _ hrs => ?_
      exact ⟨⟨rfl, .single hx rfl rfl⟩, hrs⟩
    · refine (ih.expression (by omega) hrs').bind_taken fun _ _ _ _ _ hx hrs => ?_
      refine hrs.semicolon.bind_taken fun _ _ _ _ _ _ hrs => ?_
      exact ⟨⟨rfl, .single hx rfl rfl⟩, hrs⟩

theorem statement_confined {ts us : List Token} (hlen : ts.length ≤ n)
    (h : Fenced all extra ts us) : ConfinedTree all extra (statement ts) (statement us) := by
  rw [statement, statement]
  dsimp only
  rw [h.current_eq, h.start_eq]
  refine .ite (fun _ => block_confined ih hlen h) fun _ => ?_
  refine .ite (fun _ => ?_) fun _ => ?_
  · refine (h.mark ";").bind_taken fun _ _ _ _ _ _ hrs => ?_
    exact ⟨⟨rfl, .nameless rfl (by simp [Node.children])⟩, hrs⟩
  -- the token behind the end of file decides nothing: only an expression is tried there
  by_cases hend : (current ts).kind = .endOfFile
  · have hword (text : String) : (current ts).isWord text = false := by simp [Token.isWord, hend]
    simp only [hword, Bool.false_and, Bool.or_false, Bool.false_eq_true, if_false]
    exact expressionStatement_confined ih hlen h
  rw [h.next_eq hend]
  refine .ite (fun _ => importStatement_confined h) fun _ => ?_
  refine .ite (fun _ => exportStatement_confined ih hlen h) fun _ => ?_
  refine .ite (fun _ => varDeclaration_confined ih hlen h) fun _ => ?_
  refine .ite (fun _ => varDeclaration_confined ih hlen h) fun _ => ?_
  refine .ite (fun _ => functionDeclaration_confined ih hlen h) fun _ => ?_
  refine .ite (fun _ => ifStatement_confined ih hlen h) fun _ => ?_
  refine .ite (fun _ => returnStatement_confined ih hlen h) fun _ => ?_
  exact .ite (fun _ => throwStatement_confined ih hlen h)
    fun _ => expressionStatement_confined ih hlen h

end

theorem confinedBelow (all extra : List Token) (n : Nat) : ConfinedBelow all extra n := by
  induction n with
  | zero => exact ⟨fun h => absurd h (Nat.not_lt_zero _), fun h => absurd h (Nat.not_lt_zero _)⟩
  | succ n ih =>
    exact ⟨fun hn => statement_confined ih (Nat.le_of_lt_succ hn),
      fun hn => expression_confined ih (Nat.le_of_lt_succ hn)⟩

/-- A script is read up to its end of file, whatever stands behind it. -/
theorem script_confined {ts us : List Token} (h : Fenced all extra ts us) :
    Confined all (fun xs ys => ys = xs ∧ ∀ x ∈ xs, Named all x) (script ts) (script us) := by
  rw [script, script, h.atEnd_eq]
  refine .ite (fun _ => ⟨rfl, by simp⟩) fun _ => ?_
  refine ((confinedBelow all extra (ts.length + 1)).statement (Nat.lt_succ_self _) h).bind_taken
    fun x r hr s _ hx hrs => ?_
  refine (script_confined hrs).bind ?_
  rintro xs _ ⟨rfl, hxs⟩
  exact ⟨rfl, List.forall_mem_cons.2 ⟨hx, hxs⟩⟩
termination_by ts.length

end Grammar

end DebugGuard
