import DebugGuard.Forest.Parser
import DebugGuard.Proofs.Forest.Layout
import DebugGuard.Proofs.Script.Reading

/-!
# The parser lays out the tree of the grammar

The forest that the parser makes, node by node as the phrases are read, is the layout of the tree
that the grammar reads.  Each phrase, at work on a forest, gives what building its tree on that
forest gives (`planted`); the readers that go on behind a part (`callTail`, `binaryTail`,
`importSource`) do so from the forest in which that part has been built.

Main statement: `Forest.parse_eq`.
-/

namespace DebugGuard.Parser

open Cursor
open Grammar (keyword? atom? isUnary isAssigning parameters arrowParameters propertyKey)

/-! ### Building as the tokens are read -/

/-- What is read, with what building it on `f` gives in its place. -/
def planted {τ α β : Type} {least : Nat} {ts : List τ} (build : α → Build β) (f : Forest)
    (a : Read least ts α) : Read least ts β × Forest :=
  (⟨(build a.value f).1, a.rest, a.bound⟩, (build a.value f).2)

theorem bind_eq {α α' β β' : Type} {x : Growing α} {f : Forest} {y : Reading α'}
    {plant : α' → α × Forest} {k : α → Growing β} {k' : α' → Reading β'}
    {plant' : β' → β × Forest} (hx : x f = y.map plant)
    (hk : ∀ a, k (plant a).1 (plant a).2 = (k' a).map plant') :
    (x >>= k) f = (y >>= k').map plant' := by
  change (x f >>= fun p => k p.1 p.2) = _
  rw [hx]
  cases y with
  | error e => rfl
  | ok a => exact hk a

section

variable {α β γ δ : Type} {least : Nat} {f g : Forest}

/-- A reader that adds nothing goes first. -/
theorem lift_bind (ts : List Token) {y : Reading (Read least ts α)}
    {k : Read least ts α → Growing γ} {k' : Read least ts α → Reading δ}
    {plant : δ → γ × Forest}
    (hk : ∀ v r h, k ⟨v, r, h⟩ f = (k' ⟨v, r, h⟩).map plant) :
    (liftM y >>= k) f = (y >>= k').map plant := by
  have hy : (liftM y : Growing _) f = y.map fun a => (a, f) := by cases y <;> rfl
  exact bind_eq hy fun a => hk a.value a.rest a.bound

/-- A reader that builds what it reads goes first. -/
theorem planted_bind {ts : List Token} {x : Growing (Read least ts β)}
    {y : Reading (Read least ts α)} {build : α → Build β} {k : Read least ts β → Growing γ}
    {k' : Read least ts α → Reading δ} {plant : δ → γ × Forest}
    (hx : x g = y.map (planted build f))
    (hk : ∀ v r h, k ⟨(build v f).1, r, h⟩ (build v f).2 = (k' ⟨v, r, h⟩).map plant) :
    (x >>= k) g = (y >>= k').map plant :=
  bind_eq hx fun a => hk a.value a.rest a.bound

/-- Both ask the same question, and go on alike after either answer. -/
theorem ite_eq {c : Prop} [Decidable c] {x x' : Growing γ} {y y' : Reading δ}
    {plant : δ → γ × Forest} (hpos : c → x f = y.map plant) (hneg : ¬c → x' f = y'.map plant) :
    (if c then x else x') f = (if c then y else y').map plant := by
  by_cases hc : c
  · rw [if_pos hc, if_pos hc]
    exact hpos hc
  · rw [if_neg hc, if_neg hc]
    exact hneg hc

end

/-- A node is added on top of its parts. -/
theorem add_bind {β : Type} (start : Nat) (top : Node Tree) (f : Forest) (k : Ref → Growing β) :
    (add start (Build.slots top f).1 >>= k) (Build.slots top f).2 =
      k (Build.tree (.node start top) f).1 (Build.tree (.node start top) f).2 := by
  rw [Build.tree_node]
  rfl

theorem slots_atom {t : Token} {top : Node Tree} (h : atom? t = some top) (f : Forest) :
    Build.slots top f = (top.map fun _ => none, f) := by
  unfold atom? at h
  repeat' split at h
  all_goals cases h <;> rfl

theorem nodeIs_isAssignable (t : Tree) (f : Forest) :
    (Build.tree t f).2.nodeIs Node.isAssignable (Build.tree t f).1 =
      t.topIs Node.isAssignable := by
  cases t with
  | node start top =>
    -- the question is answered by the form of a node, and building its parts keeps that
    have hshape : (Build.slots top f).1.shape = top.shape := (Build.slots_spec top f).1
    have hassignable := congrArg Node.isAssignable hshape
    rw [Node.shape, Node.shape, Node.isAssignable_map, Node.isAssignable_map] at hassignable
    simp [Build.tree_node, Forest.nodeIs, Tree.topIs, Tree.top?, hassignable]
  | _ => rfl

theorem commaList_eq {close : String} {ts : List Token}
    {item : (us : List Token) → us.length ≤ ts.length → Growing (Taken us Ref)}
    {item' : (us : List Token) → us.length ≤ ts.length → Reading (Taken us Tree)}
    (hitem : ∀ us hus f, item us hus f = (item' us hus).map (planted Build.tree f)) (f : Forest) :
    commaList close ts item f =
      (Cursor.commaList close ts item').map (planted Build.trees f) := by
  rw [commaList, Cursor.commaList]
  cases mark? close ts with
  | some a => rfl
  | none =>
    refine planted_bind (hitem ts _ f) fun x r h => ?_
    dsimp only [planted]
    cases mark? "," r with
    | some a =>
      exact planted_bind (commaList_eq (fun us _ => hitem us _) _) fun _ _ _ => rfl
    | none =>
      exact lift_bind r fun _ _ _ => rfl
termination_by ts.length
decreasing_by exact Nat.lt_trans a.shorter h

/-! ### Imports -/

variable {ts : List Token} {f : Forest}

theorem importName_eq :
    importName ts f = (Grammar.importName ts).map (planted Build.tree f) := by
  rw [importName, Grammar.importName]
  refine lift_bind ts fun imported r h => ?_
  dsimp only
  cases word? "as" r with
  | none => exact add_bind _ (.importName _ _) f _
  | some a =>
    refine lift_bind a.rest fun bound r' h' => ?_
    exact add_bind _ (.importName _ _) f _

theorem importSource_eq {start : Nat} (specifiers : List Tree) :
    importSource start (Build.trees specifiers f).1 ts (Build.trees specifiers f).2 =
      (Grammar.importSource start specifiers ts).map (planted Build.tree f) := by
  rw [importSource, Grammar.importSource]
  refine lift_bind ts fun _ r h => ?_
  refine lift_bind r fun source r' h' => ?_
  refine lift_bind r' fun _ r'' h'' => ?_
  exact add_bind start (.importFrom specifiers source.text) f _

theorem importNames_eq :
    importNames ts f = (Grammar.importNames ts).map (planted Build.trees f) := by
  rw [importNames, Grammar.importNames]
  cases mark? "*" ts with
  | some a =>
    refine lift_bind a.rest fun _ r h => ?_
    refine lift_bind r fun bound r' h' => ?_
    exact add_bind _ (.importAll bound.text) f _
  | none =>
    refine lift_bind ts fun _ r h => ?_
    exact planted_bind (commaList_eq (fun _ _ _ => importName_eq) _) fun _ _ _ => rfl

theorem importStatement_eq :
    importStatement ts f = (Grammar.importStatement ts).map (planted Build.tree f) := by
  rw [importStatement, Grammar.importStatement]
  refine lift_bind ts fun _ r h => ?_
  dsimp only
  refine ite_eq (fun _ => ?_) fun _ => ite_eq (fun _ => ?_) fun _ => ?_
  · refine lift_bind r fun source r' h' => ?_
    refine lift_bind r' fun _ r'' h'' => ?_
    exact add_bind _ (.importFrom [] source.text) f _
  · refine lift_bind r fun bound r' h' => ?_
    refine (add_bind (start r) (.importDefault bound.text) f _).trans ?_
    dsimp only
    cases mark? "," r' with
    | none =>
      exact planted_bind (importSource_eq [.node _ (.importDefault bound.text)]) fun _ _ _ => rfl
    | some a =>
      refine planted_bind importNames_eq fun xs r'' h'' => ?_
      exact planted_bind (importSource_eq (.node _ (.importDefault bound.text) :: xs))
        fun _ _ _ => rfl
  · refine planted_bind importNames_eq fun xs r' h' => ?_
    exact planted_bind (importSource_eq xs) fun _ _ _ => rfl

/-! ### Statements and expressions -/

/-- Statements and expressions of fewer than `n` tokens are built as they are read. -/
structure BuildsBelow (n : Nat) : Prop where
  statement (ts : List Token) {f : Forest} (hlen : ts.length < n) :
    statement ts f = (Grammar.statement ts).map (planted Build.tree f)
  expression (ts : List Token) {f : Forest} (hlen : ts.length < n) :
    expression ts f = (Grammar.expression ts).map (planted Build.tree f)

section

variable {n : Nat} (ih : BuildsBelow n)
include ih

theorem statements_eq (ts : List Token) {f : Forest} (hlen : ts.length < n) :
    statements ts f = (Grammar.statements ts).map (planted Build.trees f) := by
  rw [statements, Grammar.statements]
  cases mark? "\x7d" ts with
  | some a => rfl
  | none =>
    dsimp only
    refine ite_eq (fun _ => rfl) fun _ => ?_
    refine planted_bind (ih.statement ts hlen) fun x r h => ?_
    exact planted_bind (statements_eq r (by omega)) fun _ _ _ => rfl
termination_by ts.length

theorem block_eq (ts : List Token) {f : Forest} (hlen : ts.length ≤ n) :
    block ts f = (Grammar.block ts).map (planted Build.tree f) := by
  rw [block, Grammar.block]
  refine lift_bind ts fun _ r h => ?_
  refine planted_bind (statements_eq ih r (by omega)) fun body r' h' => ?_
  exact add_bind _ (.block body) f _

theorem arguments_eq (ts : List Token) {f : Forest} (hlen : ts.length ≤ n) :
    arguments ts f = (Grammar.arguments ts).map (planted Build.trees f) := by
  rw [arguments, Grammar.arguments]
  refine lift_bind ts fun _ r h => ?_
  exact planted_bind (commaList_eq (fun us hus _ => ih.expression us (by omega)) _) fun _ _ _ => rfl

theorem property_eq (ts : List Token) {f : Forest} (hlen : ts.length ≤ n) :
    property ts f = (Grammar.property ts).map (planted Build.tree f) := by
  rw [property, Grammar.property]
  refine lift_bind ts fun (key, quoted) r h => ?_
  dsimp only
  cases mark? ":" r with
  | some a =>
    obtain ⟨_, r', h'⟩ := a
    refine planted_bind (ih.expression r' (by omega)) fun value r'' h'' => ?_
    exact add_bind _ (.property key quoted value false) f _
  | none =>
    cases quoted with
    | true => rfl
    | false =>
      dsimp only
      rw [if_neg Bool.false_ne_true, if_neg Bool.false_ne_true]
      refine (add_bind (start ts) (.identifier key) f _).trans ?_
      exact add_bind (start ts) (.property key false (.node (start ts) (.identifier key)) true) f _

theorem functionExpression_eq (ts : List Token) {f : Forest} (hlen : ts.length ≤ n) :
    functionExpression ts f = (Grammar.functionExpression ts).map (planted Build.tree f) := by
  rw [functionExpression, Grammar.functionExpression]
  refine lift_bind ts fun _ r h => ?_
  dsimp only
  refine ite_eq (fun _ => ?_) fun _ => ?_
  · refine lift_bind r fun name r' h' => ?_
    refine lift_bind r' fun params r'' h'' => ?_
    refine planted_bind (block_eq ih r'' (by omega)) fun body r₃ h₃ => ?_
    exact add_bind _ (.functionExpression (some name.text) params body) f _
  · refine lift_bind r fun params r' h' => ?_
    refine planted_bind (block_eq ih r' (by omega)) fun body r'' h'' => ?_
    exact add_bind _ (.functionExpression none params body) f _

theorem primary_eq (ts : List Token) {f : Forest} (hlen : ts.length ≤ n) :
    primary ts f = (Grammar.primary ts).map (planted Build.tree f) := by
  rw [primary, Grammar.primary]
  cases htake : take? (fun t => (atom? t).isSome) ts with
  | some a =>
    obtain ⟨t, r, h⟩ := a
    obtain ⟨top, htop⟩ := Option.isSome_iff_exists.1 (front_of_take? htake).2
    dsimp only
    rw [htop]
    -- a literal or a name has no parts, so nothing is built below it
    have hadd := add_bind (start ts) top f fun n => pure (⟨n, r, h⟩ : Taken ts Ref)
    rwa [slots_atom htop f] at hadd
  | none =>
    dsimp only
    refine ite_eq (fun _ => functionExpression_eq ih ts hlen) fun _ => ?_
    cases mark? "(" ts with
    | some a =>
      obtain ⟨_, r, h⟩ := a
      refine planted_bind (ih.expression r (by omega)) fun e r' h' => ?_
      refine lift_bind r' fun _ r'' h'' => ?_
      exact add_bind _ (.parenthesized e) f _
    | none =>
      dsimp only
      cases mark? "\x7b" ts with
      | some a =>
        obtain ⟨_, r, h⟩ := a
        refine planted_bind (commaList_eq (fun us hus _ => property_eq ih us (by omega)) _)
          fun xs r' h' => ?_
        exact add_bind _ (.object xs) f _
      | none =>
        dsimp only
        cases mark? "[" ts with
        | some a =>
          obtain ⟨_, r, h⟩ := a
          refine planted_bind (commaList_eq (fun us hus _ => ih.expression us (by omega)) _)
            fun xs r' h' => ?_
          exact add_bind _ (.array xs) f _
        | none => rfl

/-- What may be an access, with what building it on `f` gives; without one, `object` has been
built. -/
def plantedAccess {ts : List Token} (object : Tree) (f : Forest) :
    Option (Taken ts Tree) → Option (Taken ts Ref) × Forest
  | none => (none, (Build.tree object f).2)
  | some a => (some (planted Build.tree f a).1, (planted Build.tree f a).2)

theorem access?_eq {start : Nat} {object : Tree} (ts : List Token) {f : Forest}
    (hlen : ts.length ≤ n) :
    access? start (Build.tree object f).1 ts (Build.tree object f).2 =
      (Grammar.access? start object ts).map (plantedAccess object f) := by
  rw [access?, Grammar.access?]
  cases mark? "." ts with
  | some a =>
    obtain ⟨_, r, h⟩ := a
    refine lift_bind r fun property r' h' => ?_
    exact add_bind start (.member object property.text) f _
  | none =>
    dsimp only
    cases mark? "[" ts with
    | some a =>
      obtain ⟨_, r, h⟩ := a
      refine planted_bind (ih.expression r (by omega)) fun index r' h' => ?_
      refine lift_bind r' fun _ r'' h'' => ?_
      exact add_bind start (.element object index) f _
    | none => rfl

theorem accessTail_eq {start : Nat} (object : Tree) (ts : List Token) {f : Forest}
    (hlen : ts.length ≤ n) :
    accessTail start (Build.tree object f).1 ts (Build.tree object f).2 =
      (Grammar.accessTail start object ts).map (planted Build.tree f) := by
  rw [accessTail, Grammar.accessTail]
  refine bind_eq (access?_eq ih ts hlen) fun a => ?_
  cases a with
  | none => rfl
  | some a =>
    have := a.shorter
    exact planted_bind (accessTail_eq a.value a.rest (by omega)) fun _ _ _ => rfl
termination_by ts.length

theorem construct_eq (ts : List Token) {f : Forest} (hlen : ts.length ≤ n) :
    construct ts f = (Grammar.construct ts).map (planted Build.tree f) := by
  rw [construct, Grammar.construct]
  refine lift_bind ts fun _ r h => ?_
  refine planted_bind (primary_eq ih r (by omega)) fun first r' h' => ?_
  refine planted_bind (accessTail_eq ih _ r' (by omega)) fun callee r'' h'' => ?_
  dsimp only [planted]
  refine ite_eq (fun _ => ?_) fun _ => add_bind _ (.construct callee []) f _
  refine planted_bind (arguments_eq ih r'' (by omega)) fun args r₃ h₃ => ?_
  exact add_bind _ (.construct callee args) f _

theorem callTail_eq {start : Nat} (callee : Tree) (ts : List Token) {f : Forest}
    (hlen : ts.length ≤ n) :
    callTail start (Build.tree callee f).1 ts (Build.tree callee f).2 =
      (Grammar.callTail start callee ts).map (planted Build.tree f) := by
  rw [callTail, Grammar.callTail]
  refine ite_eq (fun _ => ?_) fun _ => ?_
  · refine planted_bind (arguments_eq ih ts hlen) fun args r h => ?_
    -- the rest goes on with the call for its callee
    refine (add_bind start (.call callee args) f _).trans ?_
    exact planted_bind (callTail_eq _ r (by omega)) fun _ _ _ => rfl
  · refine bind_eq (access?_eq ih ts hlen) fun a => ?_
    cases a with
    | none => rfl
    | some a =>
      have := a.shorter
      exact planted_bind (callTail_eq a.value a.rest (by omega)) fun _ _ _ => rfl
termination_by ts.length

theorem unary_eq (ts : List Token) {f : Forest} (hlen : ts.length ≤ n) :
    unary ts f = (Grammar.unary ts).map (planted Build.tree f) := by
  rw [unary, Grammar.unary]
  cases take? isUnary ts with
  | some a =>
    obtain ⟨op, r, h⟩ := a
    refine planted_bind (unary_eq r (by omega)) fun operand r' h' => ?_
    exact add_bind _ (.unary op.text operand) f _
  | none =>
    dsimp only
    by_cases hnew : atWord "new" ts
    · rw [if_pos hnew, if_pos hnew]
      refine planted_bind (construct_eq ih ts hlen) fun callee r h => ?_
      exact planted_bind (callTail_eq ih _ r (by omega)) fun _ _ _ => rfl
    · rw [if_neg hnew, if_neg hnew]
      refine planted_bind (primary_eq ih ts hlen) fun callee r h => ?_
      exact planted_bind (callTail_eq ih _ r (by omega)) fun _ _ _ => rfl
termination_by ts.length

set_option linter.unusedSectionVars false in
mutual

theorem binary_eq {least : Nat} (ts : List Token) {f : Forest} (hlen : ts.length ≤ n) :
    binary least ts f = (Grammar.binary least ts).map (planted Build.tree f) := by
  rw [binary, Grammar.binary]
  refine planted_bind (unary_eq ih ts hlen) fun left r h => ?_
  exact planted_bind (binaryTail_eq r (by omega)) fun _ _ _ => rfl
termination_by (ts.length, 1)

theorem binaryTail_eq {start least : Nat} {left : Tree} (ts : List Token) {f : Forest}
    (hlen : ts.length ≤ n) :
    binaryTail start least (Build.tree left f).1 ts (Build.tree left f).2 =
      (Grammar.binaryTail start least left ts).map (planted Build.tree f) := by
  rw [binaryTail, Grammar.binaryTail]
  cases binaryOperator? least ts with
  | none => rfl
  | some a =>
    obtain ⟨⟨op, precedence⟩, r, h⟩ := a
    refine planted_bind (binary_eq r (by omega)) fun right r' h' => ?_
    -- the operators behind take this operation for their left operand
    refine (add_bind start (.binary left op right) f _).trans ?_
    exact planted_bind (binaryTail_eq r' (by omega)) fun _ _ _ => rfl
termination_by (ts.length, 0)

end

theorem conditional_eq (ts : List Token) {f : Forest} (hlen : ts.length ≤ n) :
    conditional ts f = (Grammar.conditional ts).map (planted Build.tree f) := by
  rw [conditional, Grammar.conditional]
  refine planted_bind (binary_eq ih ts hlen) fun condition r h => ?_
  dsimp only [planted]
  cases mark? "?" r with
  | none => rfl
  | some a =>
    obtain ⟨_, r', h'⟩ := a
    refine planted_bind (ih.expression r' (by omega)) fun yes r'' h'' => ?_
    refine lift_bind r'' fun _ r₃ h₃ => ?_
    refine planted_bind (ih.expression r₃ (by omega)) fun no r₄ h₄ => ?_
    exact add_bind _ (.conditional condition yes no) f _

theorem arrow_eq (ts : List Token) {f : Forest} (hlen : ts.length ≤ n) :
    arrow ts f = (Grammar.arrow ts).map (planted Build.tree f) := by
  rw [arrow, Grammar.arrow]
  refine lift_bind ts fun params r h => ?_
  refine lift_bind r fun _ r' h' => ?_
  dsimp only
  by_cases hblock : atMark "\x7b" r'
  · rw [if_pos hblock, if_pos hblock]
    refine planted_bind (block_eq ih r' (by omega)) fun body r'' h'' => ?_
    exact add_bind _ (.arrow params body) f _
  · rw [if_neg hblock, if_neg hblock]
    refine planted_bind (ih.expression r' (by omega)) fun body r'' h'' => ?_
    exact add_bind _ (.arrow params body) f _

theorem expression_eq (ts : List Token) {f : Forest} (hlen : ts.length ≤ n) :
    expression ts f = (Grammar.expression ts).map (planted Build.tree f) := by
  rw [expression, Grammar.expression]
  refine ite_eq (fun _ => arrow_eq ih ts hlen) fun _ => ?_
  refine planted_bind (conditional_eq ih ts hlen) fun target r h => ?_
  dsimp only [planted]
  cases take? isAssigning r with
  | none => rfl
  | some a =>
    obtain ⟨op, r', h'⟩ := a
    change (if (Build.tree target f).2.nodeIs Node.isAssignable (Build.tree target f).1 then _
      else _ : Growing _) _ = _
    rw [nodeIs_isAssignable]
    dsimp only
    refine ite_eq (fun _ => ?_) fun _ => rfl
    refine planted_bind (ih.expression r' (by omega)) fun value r'' h'' => ?_
    exact add_bind _ (.assignment target op.text value) f _

theorem initializer_eq {keyword : VarKeyword} (ts : List Token) {f : Forest}
    (hlen : ts.length ≤ n) :
    initializer keyword ts f = (Grammar.initializer keyword ts).map (planted Build.tree f) := by
  rw [initializer, Grammar.initializer]
  cases mark? "=" ts with
  | some a =>
    obtain ⟨_, r, h⟩ := a
    exact planted_bind (ih.expression r (by omega)) fun _ _ _ => rfl
  | none => cases keyword <;> rfl

theorem declarators_eq {keyword : VarKeyword} (ts : List Token) {f : Forest}
    (hlen : ts.length ≤ n) :
    declarators keyword ts f = (Grammar.declarators keyword ts).map (planted Build.trees f) := by
  rw [declarators, Grammar.declarators]
  refine lift_bind ts fun name r h => ?_
  refine planted_bind (initializer_eq ih r (by omega)) fun init r' h' => ?_
  refine (add_bind _ (.declarator name.text init) f _).trans ?_
  dsimp only
  cases mark? "," r' with
  | some a =>
    obtain ⟨_, r'', h''⟩ := a
    exact planted_bind (declarators_eq r'' (by omega)) fun _ _ _ => rfl
  | none => rfl
termination_by ts.length

theorem varDeclaration_eq (ts : List Token) {f : Forest} (hlen : ts.length ≤ n) :
    varDeclaration ts f = (Grammar.varDeclaration ts).map (planted Build.tree f) := by
  rw [varDeclaration, Grammar.varDeclaration]
  cases take? (fun t => (keyword? t).isSome) ts with
  | none => rfl
  | some a =>
    obtain ⟨t, r, h⟩ := a
    refine planted_bind (declarators_eq ih r (by omega)) fun ds r' h' => ?_
    refine lift_bind r' fun _ r'' h'' => ?_
    exact add_bind _ (.varDeclaration _ ds) f _

theorem functionDeclaration_eq (ts : List Token) {f : Forest} (hlen : ts.length ≤ n) :
    functionDeclaration ts f =
      (Grammar.functionDeclaration ts).map (planted Build.tree f) := by
  rw [functionDeclaration, Grammar.functionDeclaration]
  refine lift_bind ts fun _ r h => ?_
  refine lift_bind r fun name r' h' => ?_
  refine lift_bind r' fun params r'' h'' => ?_
  refine planted_bind (block_eq ih r'' (by omega)) fun body r₃ h₃ => ?_
  exact add_bind _ (.functionDeclaration name.text params body) f _

theorem ifStatement_eq (ts : List Token) {f : Forest} (hlen : ts.length ≤ n) :
    ifStatement ts f = (Grammar.ifStatement ts).map (planted Build.tree f) := by
  rw [ifStatement, Grammar.ifStatement]
  refine lift_bind ts fun _ r h => ?_
  refine lift_bind r fun _ r' h' => ?_
  refine planted_bind (ih.expression r' (by omega)) fun condition r'' h'' => ?_
  refine lift_bind r'' fun _ r₃ h₃ => ?_
  refine planted_bind (ih.statement r₃ (by omega)) fun yes r₄ h₄ => ?_
  dsimp only [planted]
  cases word? "else" r₄ with
  | some a =>
    obtain ⟨_, r₅, h₅⟩ := a
    refine planted_bind (ih.statement r₅ (by omega)) fun no r₆ h₆ => ?_
    exact add_bind _ (.ifElse condition yes no) f _
  | none => exact add_bind _ (.ifElse condition yes .absent) f _

theorem returnStatement_eq (ts : List Token) {f : Forest} (hlen : ts.length ≤ n) :
    returnStatement ts f = (Grammar.returnStatement ts).map (planted Build.tree f) := by
  rw [returnStatement, Grammar.returnStatement]
  refine lift_bind ts fun _ r h => ?_
  dsimp only
  refine ite_eq (fun _ => ?_) fun _ => ?_
  · refine lift_bind r fun _ r' h' => ?_
    exact add_bind _ (.returnStatement .absent) f _
  · refine planted_bind (ih.expression r (by omega)) fun e r' h' => ?_
    refine lift_bind r' fun _ r'' h'' => ?_
    exact add_bind _ (.returnStatement e) f _

theorem throwStatement_eq (ts : List Token) {f : Forest} (hlen : ts.length ≤ n) :
    throwStatement ts f = (Grammar.throwStatement ts).map (planted Build.tree f) := by
  rw [throwStatement, Grammar.throwStatement]
  refine lift_bind ts fun _ r h => ?_
  dsimp only
  refine ite_eq (fun _ => rfl) fun _ => ?_
  refine planted_bind (ih.expression r (by omega)) fun e r' h' => ?_
  refine lift_bind r' fun _ r'' h'' => ?_
  exact add_bind _ (.throwStatement e) f _

theorem expressionStatement_eq (ts : List Token) {f : Forest} (hlen : ts.length ≤ n) :
    expressionStatement ts f =
      (Grammar.expressionStatement ts).map (planted Build.tree f) := by
  rw [expressionStatement, Grammar.expressionStatement]
  refine planted_bind (expression_eq ih ts hlen) fun e r h => ?_
  refine lift_bind r fun _ r' h' => ?_
  exact add_bind _ (.expressionStatement e) f _

theorem exportStatement_eq (ts : List Token) {f : Forest} (hlen : ts.length ≤ n) :
    exportStatement ts f = (Grammar.exportStatement ts).map (planted Build.tree f) := by
  rw [exportStatement, Grammar.exportStatement]
  refine lift_bind ts fun _ r h => ?_
  dsimp only
  cases word? "default" r with
  | some a =>
    obtain ⟨_, r', h'⟩ := a
    dsimp only
    by_cases hf : atWord "function" r'
    · rw [if_pos hf, if_pos hf]
      refine planted_bind (functionExpression_eq ih r' (by omega)) fun e r'' h'' => ?_
      refine lift_bind r'' fun _ r₃ h₃ => ?_
      exact add_bind _ (.exportDefault e) f _
    · rw [if_neg hf, if_neg hf]
      refine planted_bind (ih.expression r' (by omega)) fun e r'' h'' => ?_
      refine lift_bind r'' fun _ r₃ h₃ => ?_
      exact add_bind _ (.exportDefault e) f _
  | none =>
    dsimp only
    by_cases hk : (keyword? (current r)).isSome
    · rw [if_pos hk, if_pos hk]
      refine planted_bind (varDeclaration_eq ih r (by omega)) fun d r' h' => ?_
      exact add_bind _ (.exportDeclaration d) f _
    rw [if_neg hk, if_neg hk]
    by_cases hf : (current r).text == "function"
    · rw [if_pos hf, if_pos hf]
      refine planted_bind (functionDeclaration_eq ih r (by omega)) fun d r' h' => ?_
      exact add_bind _ (.exportDeclaration d) f _
    · rw [if_neg hf, if_neg hf]
      rfl

theorem statement_eq (ts : List Token) {f : Forest} (hlen : ts.length ≤ n) :
    statement ts f = (Grammar.statement ts).map (planted Build.tree f) := by
  rw [statement, Grammar.statement]
  dsimp only
  refine ite_eq (fun _ => block_eq ih ts hlen) fun _ => ?_
  refine ite_eq (fun _ => ?_) fun _ => ?_
  · refine lift_bind ts fun _ r h => ?_
    exact add_bind _ .emptyStatement f _
  refine ite_eq (fun _ => importStatement_eq) fun _ => ?_
  refine ite_eq (fun _ => exportStatement_eq ih ts hlen) fun _ => ?_
  refine ite_eq (fun _ => varDeclaration_eq ih ts hlen) fun _ => ?_
  refine ite_eq (fun _ => varDeclaration_eq ih ts hlen) fun _ => ?_
  refine ite_eq (fun _ => functionDeclaration_eq ih ts hlen) fun _ => ?_
  refine ite_eq (fun _ => ifStatement_eq ih ts hlen) fun _ => ?_
  refine ite_eq (fun _ => returnStatement_eq ih ts hlen) fun _ => ?_
  exact ite_eq (fun _ => throwStatement_eq ih ts hlen) fun _ => expressionStatement_eq ih ts hlen

end

theorem buildsBelow (n : Nat) : BuildsBelow n := by
  induction n with
  | zero =>
    exact ⟨fun _ _ h => absurd h (Nat.not_lt_zero _), fun _ _ h => absurd h (Nat.not_lt_zero _)⟩
  | succ n ih =>
    exact ⟨fun ts _ h => statement_eq ih ts (Nat.le_of_lt_succ h),
      fun ts _ h => expression_eq ih ts (Nat.le_of_lt_succ h)⟩

theorem script_eq {ts : List Token} {f : Forest} :
    script ts f = (Grammar.script ts).map fun body => Build.trees body f := by
  rw [script, Grammar.script]
  refine ite_eq (fun _ => rfl) fun _ => ?_
  refine planted_bind ((buildsBelow _).statement ts (Nat.lt_succ_self _)) fun x r h => ?_
  exact bind_eq script_eq fun _ => rfl
termination_by ts.length

end DebugGuard.Parser

namespace DebugGuard.Forest

/-- The parser lays out the tree of the script. -/
theorem parse_eq (source : String) : parse source = (Tree.parse source).map ofTree := by
  rw [parse, Tree.parse]
  cases Token.scan source with
  | error e => rfl
  | ok ts =>
    change (Parser.script ts >>= fun body => Parser.add 0 (.program body)) empty =
      (Grammar.script ts >>= fun body => Except.ok (.node 0 (.program body))).map
        (Build.tree · empty)
    refine Parser.bind_eq Parser.script_eq fun body => ?_
    exact Parser.add_bind 0 (.program body) empty pure

theorem parse_eq_ok {source : String} {r : Ref} {f : Forest} :
    parse source = .ok (r, f) ↔ ∃ t, Tree.parse source = .ok t ∧ ofTree t = (r, f) := by
  rw [parse_eq]
  cases Tree.parse source <;> simp [Except.map]

end DebugGuard.Forest
