import DebugGuard.Proofs.Script.Alike

/-!
# String contents are no code

A tree without the contents of its strings and import sources and without its quoted keys
(`Tree.muted`) is the same for twin scripts: the grammar reads twins alike, phrase by phrase
(`Grammar.agreeBelow`).

Main statement: `Grammar.script_agree`.
-/

namespace DebugGuard

theorem map_eq_of_forall₂ {α β γ : Type} {f : α → γ} {g : β → γ} {xs : List α} {ys : List β}
    (h : List.Forall₂ (fun x y => f x = g y) xs ys) : xs.map f = ys.map g := by
  rw [← List.forall₂_eq_eq_eq, List.forall₂_map_left_iff, List.forall₂_map_right_iff]
  exact h

/-! ### Muted trees -/

/-- A node without what the source has between quotes. -/
def Node.muted {α : Type} : Node α → Node α
  | .importFrom specifiers _ => .importFrom specifiers ""
  | .literal (.string _) => .literal (.string "")
  | .property _ true value shorthand => .property "" true value shorthand
  | n => n

namespace Node

variable {α β : Type}

@[simp] theorem children_muted (n : Node α) : n.muted.children = n.children := by
  unfold muted
  split <;> rfl

theorem map_muted (f : α → β) (n : Node α) : n.muted.map f = (n.map f).muted := by
  cases n with
  | literal v => cases v <;> rfl
  | property key quoted value shorthand => cases quoted <;> rfl
  | _ => rfl

/-- Nodes without what the source has between quotes. -/
def muting : Relabeling := ⟨muted, children_muted, map_muted⟩

theorem isAssignable_muted (n : Node α) : n.muted.isAssignable = n.isAssignable := by
  unfold muted
  split <;> rfl

end Node

namespace Tree

/-- A tree without what its source has between quotes, its positions replaced by `place`. -/
def muted (place : Nat → Nat) (t : Tree) : Tree :=
  t.relabel Node.muting place

@[simp] theorem muted_node (place : Nat → Nat) (pos : Nat) (top : Node Tree) :
    muted place (.node pos top) = .node (place pos) (top.map (muted place)).muted :=
  relabel_node ..

@[simp] theorem muted_absent (place : Nat → Nat) : muted place .absent = .absent := rfl

@[simp] theorem muted_dangling (place : Nat → Nat) : muted place .dangling = .dangling := rfl

theorem topIs_isAssignable_muted (place : Nat → Nat) (t : Tree) :
    (t.muted place).topIs Node.isAssignable = t.topIs Node.isAssignable := by
  cases t with
  | node pos top =>
    simp [topIs, top?, Node.isAssignable_muted, Node.isAssignable_map]
  | _ => rfl

/-- The trees differ in what their sources have between quotes alone. -/
def Same (ρ : Places) (t u : Tree) : Prop :=
  t.muted ρ.left = u.muted ρ.right

variable {ρ : Places} {t u : Tree} {ts us : List Tree}

theorem Same.absent : Same ρ .absent .absent := rfl

theorem Same.node {pos pos' : Nat} {top top' : Node Tree} (hpos : ρ.left pos = ρ.right pos')
    (htop : (top.map (muted ρ.left)).muted = (top'.map (muted ρ.right)).muted) :
    Same ρ (.node pos top) (.node pos' top') := by
  rw [Same, muted_node, muted_node, hpos, htop]

theorem Same.topIs (h : Same ρ t u) : t.topIs Node.isAssignable = u.topIs Node.isAssignable := by
  rw [← topIs_isAssignable_muted ρ.left, h, topIs_isAssignable_muted]

theorem map_muted_of_same (h : List.Forall₂ (Same ρ) ts us) :
    ts.map (muted ρ.left) = us.map (muted ρ.right) :=
  map_eq_of_forall₂ h

end Tree

namespace Token.Alike

open Grammar

variable {t u : Token}

theorem isSome_atom? (h : t.Alike u) : (atom? u).isSome = (atom? t).isSome := by
  rw [atom?, atom?, h.kind_eq]
  cases hk : t.kind with
  | string => rfl
  | _ => rw [h.text_eq (by simp [hk])]

theorem muted_atom? (h : t.Alike u) {top top' : Node Tree} (ht : atom? t = some top)
    (hu : atom? u = some top') (f g : Tree → Tree) : (top.map f).muted = (top'.map g).muted := by
  rw [atom?, h.kind_eq] at hu
  rw [atom?] at ht
  cases hk : t.kind <;> rw [hk] at ht hu
  case string =>
    cases ht
    cases hu
    rfl
  all_goals
    rw [h.text_eq (by simp [hk])] at hu
    obtain rfl := Option.some.inj (ht.symm.trans hu)
    dsimp only at ht
    repeat' split at ht
    all_goals cases ht <;> rfl

end Token.Alike

/-! ### Phrases without expressions -/

namespace Grammar

open Cursor DebugGuard.Tree

variable {ρ : Places} {ts us : List Token} {α β : Type}

/-- Readings of trees agree if the trees are the same. -/
abbrev AgreeTree (ρ : Places) (x : Reading (Taken ts Tree)) (y : Reading (Taken us Tree)) : Prop :=
  Agree (Read.Twin ρ (Same ρ)) x y

theorem importName_agree (h : Twins ρ ts us) : AgreeTree ρ (importName ts) (importName us) := by
  rw [importName, importName]
  refine h.anyName.bind_taken fun n r hr m s hs hn hrs => ?_
  dsimp only
  obtain ⟨e, e'⟩ | ⟨t, r, hr, u, s, hs, e, e', hrs⟩ := hrs.word? "as"
  · rw [e, e', hn]
    exact ⟨.node h.start rfl, hrs⟩
  · rw [e, e']
    exact hrs.name.bind_taken fun b _ _ c _ _ hb h' =>
      ⟨.node h.start (by rw [Node.map, Node.map, hn, hb]), h'⟩

theorem importSource_agree {start start' : Nat} {xs ys : List Tree}
    (hstart : ρ.left start = ρ.right start') (hxs : List.Forall₂ (Same ρ) xs ys)
    (h : Twins ρ ts us) : AgreeTree ρ (importSource start xs ts) (importSource start' ys us) := by
  rw [importSource, importSource]
  refine (h.word "from").bind_taken fun _ _ _ _ _ _ _ h => ?_
  refine h.stringLiteral.bind_taken fun _ _ _ _ _ _ _ h => ?_
  refine h.semicolon.bind_taken fun _ _ _ _ _ _ _ h => ?_
  exact ⟨.node hstart (by simp only [Node.map, Node.muted, map_muted_of_same hxs]), h⟩

theorem importNames_agree (h : Twins ρ ts us) :
    Agree (Read.Twin ρ (List.Forall₂ (Same ρ))) (importNames ts) (importNames us) := by
  rw [importNames, importNames]
  obtain ⟨e, e'⟩ | ⟨t, r, hr, u, s, hs, e, e', hrs⟩ := h.mark? "*"
  · rw [e, e']
    refine (h.mark _).bind_taken fun _ _ _ _ _ _ _ h => ?_
    refine (h.commaList fun _ _ _ _ h => importName_agree h).bind_taken ?_
    exact fun _ _ _ _ _ _ hxs h => ⟨hxs, h⟩
  · rw [e, e']
    refine (hrs.word "as").bind_taken fun _ _ _ _ _ _ _ hrs => ?_
    refine hrs.name.bind_taken fun b _ _ c _ _ hb hrs => ?_
    exact ⟨.cons (.node h.start (by rw [Node.map, Node.map, hb])) .nil, hrs⟩

theorem importStatement_agree (h : Twins ρ ts us) :
    AgreeTree ρ (importStatement ts) (importStatement us) := by
  rw [importStatement, importStatement]
  refine (h.word "import").bind_taken fun _ r _ _ s _ _ hrs => ?_
  dsimp only
  rw [hrs.current.kind_eq]
  by_cases hk : (current r).kind = .string
  · rw [if_pos hk, if_pos hk]
    refine hrs.stringLiteral.bind_taken fun _ _ _ _ _ _ _ hrs => ?_
    exact hrs.semicolon.bind_taken fun _ _ _ _ _ _ _ hrs => ⟨.node h.start rfl, hrs⟩
  rw [if_neg hk, if_neg hk]
  by_cases hn : (current r).kind = .identifier
  · rw [if_pos hn, if_pos hn]
    refine hrs.name.bind_taken fun b _ _ c _ _ hb hrs' => ?_
    have hfirst : Same ρ (.node (start r) (.importDefault b.text))
        (.node (start s) (.importDefault c.text)) := .node hrs.start (by rw [Node.map, Node.map, hb])
    dsimp only
    obtain ⟨e, e'⟩ | ⟨t, r, hr, u, s, hs, e, e', hrs⟩ := hrs'.mark? ","
    · rw [e, e']
      exact (importSource_agree h.start (.cons hfirst .nil) hrs').bind_taken
        fun _ _ _ _ _ _ hx h => ⟨hx, h⟩
    · rw [e, e']
      refine (importNames_agree hrs).bind_taken fun _ _ _ _ _ _ hxs hrs => ?_
      exact (importSource_agree h.start (.cons hfirst hxs) hrs).bind_taken
        fun _ _ _ _ _ _ hx h => ⟨hx, h⟩
  · rw [if_neg hn, if_neg hn]
    refine (importNames_agree hrs).bind_taken fun _ _ _ _ _ _ hxs hrs => ?_
    exact (importSource_agree h.start hxs hrs).bind_taken fun _ _ _ _ _ _ hx h => ⟨hx, h⟩

theorem parameters_agree (h : Twins ρ ts us) :
    Agree (Read.Twin ρ (· = ·)) (parameters ts) (parameters us) := by
  rw [parameters, parameters]
  refine (h.mark "(").bind_taken fun _ _ _ _ _ _ _ h => ?_
  refine (h.commaList fun _ _ _ _ h => h.name).bind_taken fun _ _ _ _ _ _ hxs h => ?_
  exact ⟨map_eq_of_forall₂ hxs, h⟩

theorem arrowParameters_agree (h : Twins ρ ts us) :
    Agree (Read.Twin ρ (· = ·)) (arrowParameters ts) (arrowParameters us) := by
  rw [arrowParameters, arrowParameters, h.atMark_eq]
  refine .ite (fun _ => parameters_agree h) fun _ => ?_
  exact h.name.bind_taken fun _ _ _ _ _ _ hn h => ⟨by rw [hn], h⟩

/-- Keys agree in their text too, unless they are quoted. -/
theorem propertyKey_agree (h : Twins ρ ts us) :
    Agree (Read.Twin ρ fun k k' : String × Bool => k.2 = k'.2 ∧ (k.2 = false → k.1 = k'.1))
      (propertyKey ts) (propertyKey us) := by
  rw [propertyKey, propertyKey]
  obtain ⟨e, e'⟩ | ⟨t, r, hr, u, s, hs, e, e', -, -, hrs⟩ :=
    h.take? fun _ _ h => h.isKind_eq .string
  · rw [e, e']
    dsimp only
    obtain ⟨e, e'⟩ | ⟨t, r, hr, u, s, hs, e, e', htu, ht, hrs⟩ :=
      h.take? (p := fun t => t.kind = .number || t.kind = .identifier) fun _ _ h => by
        rw [h.kind_eq]
    · rw [e, e']
      trivial
    · rw [e, e']
      refine ⟨⟨rfl, fun _ => (htu.text_eq fun hk => ?_).symm⟩, hrs⟩
      simp [hk] at ht
  · rw [e, e']
    exact ⟨⟨rfl, fun h => by cases h⟩, hrs⟩

/-! ### Statements and expressions -/

/-- Statements and expressions of fewer than `n` tokens agree on twins. -/
structure AgreeBelow (ρ : Places) (n : Nat) : Prop where
  statement {ts us : List Token} (hlen : ts.length < n) (h : Twins ρ ts us) :
    AgreeTree ρ (statement ts) (statement us)
  expression {ts us : List Token} (hlen : ts.length < n) (h : Twins ρ ts us) :
    AgreeTree ρ (expression ts) (expression us)

section

variable {n : Nat} (ih : AgreeBelow ρ n)
include ih

theorem statements_agree {ts us : List Token} (hlen : ts.length < n) (h : Twins ρ ts us) :
    Agree (Read.Twin ρ (List.Forall₂ (Same ρ))) (statements ts) (statements us) := by
  rw [statements, statements]
  obtain ⟨e, e'⟩ | ⟨t, r, hr, u, s, hs, e, e', hrs⟩ := h.mark? "\x7d"
  · rw [e, e', h.atEnd_eq]
    refine .ite (fun _ => trivial) fun _ => ?_
    refine (ih.statement hlen h).bind_taken fun _ r hr _ s _ hx hrs => ?_
    refine (statements_agree (Nat.lt_trans hr hlen) hrs).bind_taken fun _ _ _ _ _ _ hxs h => ?_
    exact ⟨.cons hx hxs, h⟩
  · rw [e, e']
    exact ⟨.nil, hrs⟩
termination_by ts.length

theorem block_agree {ts us : List Token} (hlen : ts.length ≤ n) (h : Twins ρ ts us) :
    AgreeTree ρ (block ts) (block us) := by
  rw [block, block]
  refine (h.mark _).bind_taken fun _ r hr _ s _ _ hrs => ?_
  refine (statements_agree ih (by omega) hrs).bind_taken fun _ _ _ _ _ _ hxs hrs => ?_
  exact ⟨.node h.start (by rw [Node.map, Node.map, map_muted_of_same hxs]), hrs⟩

theorem arguments_agree {ts us : List Token} (hlen : ts.length ≤ n) (h : Twins ρ ts us) :
    Agree (Read.Twin ρ (List.Forall₂ (Same ρ))) (arguments ts) (arguments us) := by
  rw [arguments, arguments]
  refine (h.mark "(").bind_taken fun _ r hr _ s _ _ hrs => ?_
  refine (hrs.commaList fun vs _ hvs _ h => ih.expression (by omega) h).bind_taken ?_
  exact fun _ _ _ _ _ _ hxs h => ⟨hxs, h⟩

theorem property_agree {ts us : List Token} (hlen : ts.length ≤ n) (h : Twins ρ ts us) :
    AgreeTree ρ (property ts) (property us) := by
  rw [property, property]
  refine (propertyKey_agree h).bind_taken fun k r hr k' s _ hk hrs => ?_
  obtain ⟨key, quoted⟩ := k
  obtain ⟨key', quoted'⟩ := k'
  obtain ⟨rfl, hkey⟩ := hk
  dsimp only at hkey ⊢
  obtain ⟨e, e'⟩ | ⟨t, r', hr', u, s', hs', e, e', hrs'⟩ := hrs.mark? ":"
  · rw [e, e']
    refine .ite (fun _ => trivial) fun hquoted => ?_
    rw [hkey hquoted]
    have hvalue : Same ρ (.node (start ts) (.identifier key')) (.node (start us) (.identifier key')) :=
      .node h.start rfl
    exact ⟨.node h.start (by rw [Node.map, Node.map, hvalue]), hrs⟩
  · rw [e, e']
    refine (ih.expression (by omega) hrs').bind_taken fun v _ _ w _ _ hv hrs => ?_
    refine ⟨.node h.start ?_, hrs⟩
    rw [Node.map, Node.map, hv]
    cases quoted with
    | false => rw [hkey rfl]
    | true => rfl

theorem functionExpression_agree {ts us : List Token} (hlen : ts.length ≤ n) (h : Twins ρ ts us) :
    AgreeTree ρ (functionExpression ts) (functionExpression us) := by
  rw [functionExpression, functionExpression]
  refine (h.word "function").bind_taken fun _ r hr _ s _ _ hrs => ?_
  dsimp only
  rw [hrs.current.kind_eq]
  by_cases hk : (current r).kind = .identifier
  · rw [if_pos hk, if_pos hk]
    refine hrs.name.bind_taken fun _ _ hr' _ _ _ hn hrs => ?_
    refine (parameters_agree hrs).bind_taken fun _ _ hr'' _ _ _ hparams hrs => ?_
    refine (block_agree ih (by omega) hrs).bind_taken fun _ _ _ _ _ _ hbody hrs => ?_
    exact ⟨.node h.start (by rw [Node.map, Node.map, hn, hparams, hbody]), hrs⟩
  · rw [if_neg hk, if_neg hk]
    refine (parameters_agree hrs).bind_taken fun _ _ hr'' _ _ _ hparams hrs => ?_
    refine (block_agree ih (by omega) hrs).bind_taken fun _ _ _ _ _ _ hbody hrs => ?_
    exact ⟨.node h.start (by rw [Node.map, Node.map, hparams, hbody]), hrs⟩

theorem primary_agree {ts us : List Token} (hlen : ts.length ≤ n) (h : Twins ρ ts us) :
    AgreeTree ρ (primary ts) (primary us) := by
  rw [primary, primary]
  obtain ⟨e, e'⟩ | ⟨t, r, hr, u, s, hs, e, e', htu, ht, hrs⟩ :=
    h.take? fun _ _ h => h.isSome_atom?
  · rw [e, e', h.atWord_eq]
    refine .ite (fun _ => functionExpression_agree ih hlen h) fun _ => ?_
    obtain ⟨e, e'⟩ | ⟨t, r, hr, u, s, hs, e, e', hrs⟩ := h.mark? "("
    · rw [e, e']
      dsimp only
      obtain ⟨e, e'⟩ | ⟨t, r, hr, u, s, hs, e, e', hrs⟩ := h.mark? "\x7b"
      · rw [e, e']
        dsimp only
        obtain ⟨e, e'⟩ | ⟨t, r, hr, u, s, hs, e, e', hrs⟩ := h.mark? "["
        · rw [e, e']
          trivial
        · rw [e, e']
          refine (hrs.commaList fun _ _ _ _ h => ih.expression (by omega) h).bind_taken
            fun _ _ _ _ _ _ hxs h' => ?_
          exact ⟨.node h.start (by rw [Node.map, Node.map, map_muted_of_same hxs]), h'⟩
      · rw [e, e']
        refine (hrs.commaList fun _ _ _ _ h => property_agree ih (by omega) h).bind_taken
          fun _ _ _ _ _ _ hxs h' => ?_
        exact ⟨.node h.start (by rw [Node.map, Node.map, map_muted_of_same hxs]), h'⟩
    · rw [e, e']
      refine (ih.expression (by omega) hrs).bind_taken fun _ _ _ _ _ _ hx hrs => ?_
      refine (hrs.mark ")").bind_taken fun _ _ _ _ _ _ _ hrs => ?_
      exact ⟨.node h.start (by rw [Node.map, Node.map, hx]), hrs⟩
  · rw [e, e']
    refine ⟨?_, hrs⟩
    obtain ⟨top, htop⟩ := Option.isSome_iff_exists.1 ht
    obtain ⟨top', htop'⟩ := Option.isSome_iff_exists.1 (htu.isSome_atom?.trans ht)
    simp only [htop, htop', Option.elim]
    exact .node h.start (htu.muted_atom? htop htop' ..)

theorem access?_agree {ts us : List Token} {start start' : Nat} {x y : Tree}
    (hlen : ts.length ≤ n) (hstart : ρ.left start = ρ.right start') (hx : Same ρ x y)
    (h : Twins ρ ts us) :
    Agree (Option.Rel (Read.Twin ρ (Same ρ))) (access? start x ts) (access? start' y us) := by
  rw [access?, access?]
  obtain ⟨e, e'⟩ | ⟨t, r, hr, u, s, hs, e, e', hrs⟩ := h.mark? "."
  · rw [e, e']
    dsimp only
    obtain ⟨e, e'⟩ | ⟨t, r, hr, u, s, hs, e, e', hrs⟩ := h.mark? "["
    · rw [e, e']
      exact .none
    · rw [e, e']
      refine (ih.expression (by omega) hrs).bind_taken fun _ _ _ _ _ _ hi hrs => ?_
      refine (hrs.mark "]").bind_taken fun _ _ _ _ _ _ _ hrs => ?_
      exact .some ⟨.node hstart (by rw [Node.map, Node.map, hx, hi]), hrs⟩
  · rw [e, e']
    refine hrs.anyName.bind_taken fun _ _ _ _ _ _ hn hrs => ?_
    exact .some ⟨.node hstart (by rw [Node.map, Node.map, hx, hn]), hrs⟩

theorem accessTail_agree {ts us : List Token} {start start' : Nat} {x y : Tree}
    (hlen : ts.length ≤ n) (hstart : ρ.left start = ρ.right start') (hx : Same ρ x y)
    (h : Twins ρ ts us) :
    Agree (Read.Twin ρ (Same ρ)) (accessTail start x ts) (accessTail start' y us) := by
  rw [accessTail, accessTail]
  refine (access?_agree ih hlen hstart hx h).bind fun a b hab => ?_
  cases hab with
  | none => exact ⟨hx, h⟩
  | @some a b hab =>
    have := a.shorter
    exact (accessTail_agree (by omega) hstart hab.1 hab.2).bind_taken
      fun _ _ _ _ _ _ hx h => ⟨hx, h⟩
termination_by ts.length

theorem construct_agree {ts us : List Token} (hlen : ts.length ≤ n) (h : Twins ρ ts us) :
    AgreeTree ρ (construct ts) (construct us) := by
  rw [construct, construct]
  refine (h.word "new").bind_taken fun _ r hr _ s _ _ hrs => ?_
  refine (primary_agree ih (by omega) hrs).bind_taken fun _ r' hr' _ s' _ hx hrs => ?_
  refine (accessTail_agree ih (by omega) h.start hx hrs).bind_taken
    fun x r'' hr'' y s'' _ hx hrs => ?_
  dsimp only
  rw [hrs.atMark_eq]
  refine .ite (fun _ => ?_) fun _ => ⟨.node h.start (by rw [Node.map, Node.map, hx]; rfl), hrs⟩
  refine (arguments_agree ih (by omega) hrs).bind_taken fun _ _ _ _ _ _ hxs hrs => ?_
  exact ⟨.node h.start (by rw [Node.map, Node.map, hx, map_muted_of_same hxs]), hrs⟩

theorem callTail_agree {ts us : List Token} {start start' : Nat} {x y : Tree}
    (hlen : ts.length ≤ n) (hstart : ρ.left start = ρ.right start') (hx : Same ρ x y)
    (h : Twins ρ ts us) :
    Agree (Read.Twin ρ (Same ρ)) (callTail start x ts) (callTail start' y us) := by
  rw [callTail, callTail, h.atMark_eq]
  refine .ite (fun _ => ?_) fun _ => ?_
  · refine (arguments_agree ih hlen h).bind_taken fun xs r hr ys s _ hxs hrs => ?_
    have hcall : Same ρ (.node start (.call x xs)) (.node start' (.call y ys)) :=
      .node hstart (by rw [Node.map, Node.map, hx, map_muted_of_same hxs])
    exact (callTail_agree (by omega) hstart hcall hrs).bind_taken
      fun _ _ _ _ _ _ hx h => ⟨hx, h⟩
  · refine (access?_agree ih hlen hstart hx h).bind fun a b hab => ?_
    cases hab with
    | none => exact ⟨hx, h⟩
    | @some a b hab =>
      have := a.shorter
      exact (callTail_agree (by omega) hstart hab.1 hab.2).bind_taken
        fun _ _ _ _ _ _ hx h => ⟨hx, h⟩
termination_by ts.length

theorem unary_agree {ts us : List Token} (hlen : ts.length ≤ n) (h : Twins ρ ts us) :
    AgreeTree ρ (unary ts) (unary us) := by
  rw [unary, unary]
  obtain ⟨e, e'⟩ | ⟨t, r, hr, u, s, hs, e, e', htu, ht, hrs⟩ := h.take? fun _ _ h => h.isUnary_eq
  · rw [e, e', h.atWord_eq]
    refine .ite (fun _ => ?_) fun _ => ?_
    · refine (construct_agree ih hlen h).bind_taken fun _ r hr _ s _ hx hrs => ?_
      exact (callTail_agree ih (by omega) h.start hx hrs).bind_taken
        fun _ _ _ _ _ _ hx h => ⟨hx, h⟩
    · refine (primary_agree ih hlen h).bind_taken fun _ r hr _ s _ hx hrs => ?_
      exact (callTail_agree ih (by omega) h.start hx hrs).bind_taken
        fun _ _ _ _ _ _ hx h => ⟨hx, h⟩
  · rw [e, e']
    refine (unary_agree (by omega) hrs).bind_taken fun _ _ _ _ _ _ hx hrs => ?_
    exact ⟨.node h.start (by rw [Node.map, Node.map, hx, htu.text_eq_of_isUnary ht]), hrs⟩
termination_by ts.length

set_option linter.unusedSectionVars false in
mutual

theorem binary_agree {ts us : List Token} {least : Nat} (hlen : ts.length ≤ n)
    (h : Twins ρ ts us) : AgreeTree ρ (binary least ts) (binary least us) := by
  rw [binary, binary]
  refine (unary_agree ih hlen h).bind_taken fun _ r hr _ s _ hx hrs => ?_
  exact (binaryTail_agree (by omega) h.start hx hrs).bind_taken fun _ _ _ _ _ _ hx h => ⟨hx, h⟩
termination_by (ts.length, 1)

theorem binaryTail_agree {ts us : List Token} {start start' least : Nat} {x y : Tree}
    (hlen : ts.length ≤ n) (hstart : ρ.left start = ρ.right start') (hx : Same ρ x y)
    (h : Twins ρ ts us) :
    Agree (Read.Twin ρ (Same ρ)) (binaryTail start least x ts)
      (binaryTail start' least y us) := by
  rw [binaryTail, binaryTail]
  obtain ⟨e, e'⟩ | ⟨⟨op, p⟩, r, hr, s, hs, e, e', hrs⟩ := h.binaryOperator? least
  · rw [e, e']
    exact ⟨hx, h⟩
  · rw [e, e']
    refine (binary_agree (by omega) hrs).bind_taken fun z r' hr' w s' _ hz hrs => ?_
    have hbinary : Same ρ (.node start (.binary x op z)) (.node start' (.binary y op w)) :=
      .node hstart (by rw [Node.map, Node.map, hx, hz])
    exact (binaryTail_agree (by omega) hstart hbinary hrs).bind_taken
      fun _ _ _ _ _ _ hx h => ⟨hx, h⟩
termination_by (ts.length, 0)

end

theorem conditional_agree {ts us : List Token} (hlen : ts.length ≤ n) (h : Twins ρ ts us) :
    AgreeTree ρ (conditional ts) (conditional us) := by
  rw [conditional, conditional]
  refine (binary_agree ih hlen h).bind_taken fun _ r hr _ s _ hc hrs => ?_
  dsimp only
  obtain ⟨e, e'⟩ | ⟨t, r', hr', u, s', hs', e, e', hrs'⟩ := hrs.mark? "?"
  · rw [e, e']
    exact ⟨hc, hrs⟩
  · rw [e, e']
    refine (ih.expression (by omega) hrs').bind_taken fun _ r'' hr'' _ _ _ hy hrs => ?_
    refine (hrs.mark ":").bind_taken fun _ r₃ hr₃ _ _ _ _ hrs => ?_
    refine (ih.expression (by omega) hrs).bind_taken fun _ _ _ _ _ _ hn hrs => ?_
    exact ⟨.node h.start (by rw [Node.map, Node.map, hc, hy, hn]), hrs⟩

theorem arrow_agree {ts us : List Token} (hlen : ts.length ≤ n) (h : Twins ρ ts us) :
    AgreeTree ρ (arrow ts) (arrow us) := by
  rw [arrow, arrow]
  refine (arrowParameters_agree h).bind_taken fun _ r hr _ s _ hparams hrs => ?_
  refine (hrs.mark "=>").bind_taken fun _ r' hr' _ s' _ _ hrs => ?_
  dsimp only
  rw [hrs.atMark_eq]
  refine .ite (fun _ => ?_) fun _ => ?_
  · refine (block_agree ih (by omega) hrs).bind_taken fun _ _ _ _ _ _ hbody hrs => ?_
    exact ⟨.node h.start (by rw [Node.map, Node.map, hparams, hbody]), hrs⟩
  · refine (ih.expression (by omega) hrs).bind_taken fun _ _ _ _ _ _ hbody hrs => ?_
    exact ⟨.node h.start (by rw [Node.map, Node.map, hparams, hbody]), hrs⟩

theorem expression_agree {ts us : List Token} (hlen : ts.length ≤ n) (h : Twins ρ ts us) :
    AgreeTree ρ (expression ts) (expression us) := by
  rw [expression, expression, h.atArrow_eq]
  refine .ite (fun _ => arrow_agree ih hlen h) fun _ => ?_
  refine (conditional_agree ih hlen h).bind_taken fun _ r hr _ s _ hx hrs => ?_
  dsimp only
  obtain ⟨e, e'⟩ | ⟨t, r', hr', u, s', hs', e, e', htu, ht, hrs'⟩ :=
    hrs.take? fun _ _ h => h.isAssigning_eq
  · rw [e, e']
    exact ⟨hx, hrs⟩
  · rw [e, e', ← hx.topIs]
    refine .ite (fun _ => ?_) fun _ => trivial
    refine (ih.expression (by omega) hrs').bind_taken fun _ _ _ _ _ _ hv hrs => ?_
    exact ⟨.node h.start (by rw [Node.map, Node.map, hx, hv, htu.text_eq_of_isAssigning ht]), hrs⟩

theorem initializer_agree {ts us : List Token} {keyword : VarKeyword} (hlen : ts.length ≤ n)
    (h : Twins ρ ts us) :
    Agree (Read.Twin ρ (Same ρ)) (initializer keyword ts) (initializer keyword us) := by
  rw [initializer, initializer]
  obtain ⟨e, e'⟩ | ⟨t, r, hr, u, s, hs, e, e', hrs⟩ := h.mark? "="
  · rw [e, e']
    dsimp only
    by_cases hk : keyword = .const
    · rw [if_pos hk, if_pos hk]
      trivial
    · rw [if_neg hk, if_neg hk]
      exact ⟨.absent, h⟩
  · rw [e, e']
    exact (ih.expression (by omega) hrs).bind_taken fun _ _ _ _ _ _ hx h => ⟨hx, h⟩

theorem declarators_agree {ts us : List Token} {keyword : VarKeyword} (hlen : ts.length ≤ n)
    (h : Twins ρ ts us) :
    Agree (Read.Twin ρ (List.Forall₂ (Same ρ))) (declarators keyword ts)
      (declarators keyword us) := by
  rw [declarators, declarators]
  refine h.name.bind_taken fun m r hr m' s _ hm hrs => ?_
  refine (initializer_agree ih (by omega) hrs).bind_taken fun x r' hr' y s' _ hx hrs => ?_
  have hd : Same ρ (.node (start ts) (.declarator m.text x))
      (.node (start us) (.declarator m'.text y)) :=
    .node h.start (by rw [Node.map, Node.map, hm, hx])
  dsimp only
  obtain ⟨e, e'⟩ | ⟨t, r'', hr'', u, s'', hs'', e, e', hrs'⟩ := hrs.mark? ","
  · rw [e, e']
    exact ⟨.cons hd .nil, hrs⟩
  · rw [e, e']
    exact (declarators_agree (by omega) hrs').bind_taken
      fun _ _ _ _ _ _ hds h => ⟨.cons hd hds, h⟩
termination_by ts.length

/-- The word in front need not be a word. -/
theorem varDeclaration_agree {ts us : List Token} (hlen : ts.length ≤ n) (h : Twins ρ ts us)
    (hkeyword : keyword? (current us) = keyword? (current ts)) :
    AgreeTree ρ (varDeclaration ts) (varDeclaration us) := by
  rw [varDeclaration, varDeclaration]
  cases h with
  | nil => trivial
  | @cons t u r s htu hplace hexport hrs =>
    have hkeyword : keyword? u = keyword? t := hkeyword
    have hpos : ρ.left (start (t :: r)) = ρ.right (start (u :: s)) := hplace
    cases hk : (keyword? t).isSome
    · rw [take?_cons_of_neg hk, take?_cons_of_neg (by rw [hkeyword, hk])]
      trivial
    · rw [take?_cons_of_pos hk, take?_cons_of_pos (by rw [hkeyword, hk])]
      dsimp only
      rw [hkeyword]
      have hle := Nat.le_of_succ_le hlen
      refine (declarators_agree ih (by simpa using hle) hrs).bind_taken fun _ _ _ _ _ _ hds hrs => ?_
      refine hrs.semicolon.bind_taken fun _ _ _ _ _ _ _ hrs => ?_
      exact ⟨.node hpos (by rw [Node.map, Node.map, map_muted_of_same hds]), hrs⟩

theorem functionDeclaration_agree {ts us : List Token} (hlen : ts.length ≤ n)
    (h : Twins ρ ts us) : AgreeTree ρ (functionDeclaration ts) (functionDeclaration us) := by
  rw [functionDeclaration, functionDeclaration]
  refine (h.word "function").bind_taken fun _ r hr _ _ _ _ hrs => ?_
  refine hrs.name.bind_taken fun _ r' hr' _ _ _ hm hrs => ?_
  refine (parameters_agree hrs).bind_taken fun _ r'' hr'' _ _ _ hparams hrs => ?_
  refine (block_agree ih (by omega) hrs).bind_taken fun _ _ _ _ _ _ hbody hrs => ?_
  exact ⟨.node h.start (by rw [Node.map, Node.map, hm, hparams, hbody]), hrs⟩

theorem ifStatement_agree {ts us : List Token} (hlen : ts.length ≤ n) (h : Twins ρ ts us) :
    AgreeTree ρ (ifStatement ts) (ifStatement us) := by
  rw [ifStatement, ifStatement]
  refine (h.word "if").bind_taken fun _ r hr _ _ _ _ hrs => ?_
  refine (hrs.mark "(").bind_taken fun _ r' hr' _ _ _ _ hrs => ?_
  refine (ih.expression (by omega) hrs).bind_taken fun _ r₂ hr₂ _ _ _ hc hrs => ?_
  refine (hrs.mark ")").bind_taken fun _ r₃ hr₃ _ _ _ _ hrs => ?_
  refine (ih.statement (by omega) hrs).bind_taken fun _ r₄ hr₄ _ _ _ hy hrs => ?_
  dsimp only
  obtain ⟨e, e'⟩ | ⟨t, r₅, hr₅, u, s₅, hs₅, e, e', hrs'⟩ := hrs.word? "else"
  · rw [e, e']
    exact ⟨.node h.start (by rw [Node.map, Node.map, hc, hy]; rfl), hrs⟩
  · rw [e, e']
    refine (ih.statement (by omega) hrs').bind_taken fun _ _ _ _ _ _ hn hrs => ?_
    exact ⟨.node h.start (by rw [Node.map, Node.map, hc, hy, hn]), hrs⟩

theorem returnStatement_agree {ts us : List Token} (hlen : ts.length ≤ n) (h : Twins ρ ts us) :
    AgreeTree ρ (returnStatement ts) (returnStatement us) := by
  rw [returnStatement, returnStatement]
  refine (h.word "return").bind_taken fun _ r hr _ _ _ _ hrs => ?_
  dsimp only
  rw [hrs.current.isMark_eq, hrs.current.endsStatement_eq]
  refine .ite (fun _ => ?_) fun _ => ?_
  · exact hrs.semicolon.bind_taken fun _ _ _ _ _ _ _ hrs => ⟨.node h.start rfl, hrs⟩
  · refine (ih.expression (by omega) hrs).bind_taken fun _ _ _ _ _ _ hx hrs => ?_
    refine hrs.semicolon.bind_taken fun _ _ _ _ _ _ _ hrs => ?_
    exact ⟨.node h.start (by rw [Node.map, Node.map, hx]), hrs⟩

theorem throwStatement_agree {ts us : List Token} (hlen : ts.length ≤ n) (h : Twins ρ ts us) :
    AgreeTree ρ (throwStatement ts) (throwStatement us) := by
  rw [throwStatement, throwStatement]
  refine (h.word "throw").bind_taken fun _ r hr _ _ _ _ hrs => ?_
  dsimp only
  rw [hrs.current.afterBreak_eq]
  refine .ite (fun _ => trivial) fun _ => ?_
  refine (ih.expression (by omega) hrs).bind_taken fun _ _ _ _ _ _ hx hrs => ?_
  refine hrs.semicolon.bind_taken fun _ _ _ _ _ _ _ hrs => ?_
  exact ⟨.node h.start (by rw [Node.map, Node.map, hx]), hrs⟩

theorem expressionStatement_agree {ts us : List Token} (hlen : ts.length ≤ n)
    (h : Twins ρ ts us) : AgreeTree ρ (expressionStatement ts) (expressionStatement us) := by
  rw [expressionStatement, expressionStatement]
  refine (expression_agree ih hlen h).bind_taken fun _ _ _ _ _ _ hx hrs => ?_
  refine hrs.semicolon.bind_taken fun _ _ _ _ _ _ _ hrs => ?_
  exact ⟨.node h.start (by rw [Node.map, Node.map, hx]), hrs⟩

omit ih in
theorem functionDeclaration_of_string {ts : List Token} (h : (current ts).kind = .string) :
    ∃ e, functionDeclaration ts = .error e := by
  rw [functionDeclaration, word, take]
  cases ts with
  | nil => exact ⟨_, rfl⟩
  | cons t r =>
    have ht : t.kind = .string := h
    rw [take?_cons_of_neg (by simp [Token.isWord, ht])]
    exact ⟨_, rfl⟩

/-- Here alone a string may act as a word. -/
theorem exportStatement_agree {ts us : List Token} (hlen : ts.length ≤ n) (h : Twins ρ ts us) :
    AgreeTree ρ (exportStatement ts) (exportStatement us) := by
  rw [exportStatement, exportStatement]
  refine h.exportWord.bind ?_
  rintro ⟨_, r, hr⟩ ⟨_, s, hs⟩ ⟨hrs, hkeyword⟩
  dsimp only at hrs hkeyword ⊢
  obtain ⟨e, e'⟩ | ⟨t, r', hr', u, s', hs', e, e', hrs'⟩ := hrs.word? "default"
  · rw [e, e']
    dsimp only
    rw [hkeyword]
    refine .ite (fun _ => ?_) fun _ => ?_
    · refine (varDeclaration_agree ih (by omega) hrs hkeyword).bind_taken
        fun _ _ _ _ _ _ hd hrs => ?_
      exact ⟨.node h.start (by rw [Node.map, Node.map, hd]), hrs⟩
    · -- a string `function` passes this check, but not the next one
      by_cases hf : (current r).kind = .string
      · obtain ⟨e, he⟩ := functionDeclaration_of_string hf
        obtain ⟨e', he'⟩ := functionDeclaration_of_string (hrs.current.kind_eq.trans hf)
        rw [he, he']
        cases (current r).text == "function" <;> cases (current s).text == "function" <;> trivial
      · rw [hrs.current.text_eq hf]
        refine .ite (fun _ => ?_) fun _ => trivial
        refine (functionDeclaration_agree ih (by omega) hrs).bind_taken
          fun _ _ _ _ _ _ hd hrs => ?_
        exact ⟨.node h.start (by rw [Node.map, Node.map, hd]), hrs⟩
  · rw [e, e']
    dsimp only
    rw [hrs'.atWord_eq]
    refine .ite (fun _ => ?_) fun _ => ?_
    · refine (functionExpression_agree ih (by omega) hrs').bind_taken fun _ _ _ _ _ _ hx hrs => ?_
      refine hrs.semicolon.bind_taken fun _ _ _ _ _ _ _ hrs => ?_
      exact ⟨.node h.start (by rw [Node.map, Node.map, hx]), hrs⟩
    · refine (ih.expression (by omega) hrs').bind_taken fun _ _ _ _ _ _ hx hrs => ?_
      refine hrs.semicolon.bind_taken fun _ _ _ _ _ _ _ hrs => ?_
      exact ⟨.node h.start (by rw [Node.map, Node.map, hx]), hrs⟩

theorem statement_agree {ts us : List Token} (hlen : ts.length ≤ n) (h : Twins ρ ts us) :
    AgreeTree ρ (statement ts) (statement us) := by
  have hkeyword {text : String} (ht : (current ts).isWord text = true) :
      keyword? (current us) = keyword? (current ts) := by
    refine h.current.keyword?_eq fun hk => ?_
    simp [Token.isWord, hk] at ht
  rw [statement, statement]
  simp only [h.current.isMark_eq, h.current.isWord_eq, h.next.isMark_eq, h.next.kind_eq]
  refine .ite (fun _ => block_agree ih hlen h) fun _ => ?_
  refine .ite (fun _ => ?_) fun _ => ?_
  · exact (h.mark ";").bind_taken fun _ _ _ _ _ _ _ hrs => ⟨.node h.start rfl, hrs⟩
  refine .ite (fun _ => importStatement_agree h) fun _ => ?_
  refine .ite (fun _ => exportStatement_agree ih hlen h) fun _ => ?_
  refine .ite (fun hw => varDeclaration_agree ih hlen h ?_) fun _ => ?_
  · rcases Bool.or_eq_true_iff.1 hw with hw | hw
    · exact hkeyword hw
    · exact hkeyword hw
  refine .ite (fun hw => varDeclaration_agree ih hlen h ?_) fun _ => ?_
  · exact hkeyword (Bool.and_eq_true_iff.1 hw).1
  refine .ite (fun _ => functionDeclaration_agree ih hlen h) fun _ => ?_
  refine .ite (fun _ => ifStatement_agree ih hlen h) fun _ => ?_
  refine .ite (fun _ => returnStatement_agree ih hlen h) fun _ => ?_
  exact .ite (fun _ => throwStatement_agree ih hlen h) fun _ => expressionStatement_agree ih hlen h

end

theorem agreeBelow (ρ : Places) (n : Nat) : AgreeBelow ρ n := by
  induction n with
  | zero => exact ⟨fun h => absurd h (Nat.not_lt_zero _), fun h => absurd h (Nat.not_lt_zero _)⟩
  | succ n ih =>
    exact ⟨fun hn => statement_agree ih (Nat.le_of_lt_succ hn),
      fun hn => expression_agree ih (Nat.le_of_lt_succ hn)⟩

/-- Twin scripts are both refused, or are both read with the same statements. -/
theorem script_agree {ts us : List Token} (h : Twins ρ ts us) :
    Agree (List.Forall₂ (Same ρ)) (script ts) (script us) := by
  rw [script, script, h.atEnd_eq]
  refine .ite (fun _ => .nil) fun _ => ?_
  refine ((agreeBelow ρ (ts.length + 1)).statement (Nat.lt_succ_self _) h).bind_taken
    fun x r hr y s _ hx hrs => ?_
  exact (script_agree hrs).bind fun xs ys hxs => .cons hx hxs
termination_by ts.length

end Grammar

end DebugGuard
