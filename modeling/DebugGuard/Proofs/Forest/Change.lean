import DebugGuard.Forest.Access
import DebugGuard.Forest.Edit
import DebugGuard.Proofs.Script.Part

/-!
# What an expansion changes in a script

`Changes` says what the nodes of a script hold after an expansion: which statements stand in the
place of an import, which expression stands in the place of a call, and what is put in front of the
script.  Everything else stays.
-/

namespace DebugGuard

namespace Node

variable {α : Type}

/-- A node that may declare names for what stands below it. -/
def isScope (n : Node α) : Bool :=
  n.statements?.isSome || n.isFunction

/-- A script or a block. -/
def isList (n : Node α) : Bool :=
  n.statements?.isSome

theorem exists_statements {n : Node α} (h : n.isList = true) :
    ∃ body, n.statements? = some body ∧ n.children = body := by
  cases n <;> first | exact ⟨_, rfl, rfl⟩ | cases h

end Node

/-- What an expansion puts in other places. -/
structure Changes where
  /-- The statements in the place of an import. -/
  replaced : Nat → Option (List Nat)
  /-- The expression in the place of the call in a statement. -/
  guarded : Nat → Option Nat
  /-- The statements in front of the script. -/
  front : List Nat

namespace Changes

/-- Nothing is changed. -/
def nothing : Changes := ⟨fun _ => none, fun _ => none, []⟩

/-- What stands in the place of one statement. -/
def place (c : Changes) : Ref → List Ref
  | none => [none]
  | some i => (c.replaced i).elim [some i] (·.map some)

/-- What stands in the place of several statements. -/
def list (c : Changes) (body : List Ref) : List Ref :=
  body.flatMap c.place

/-- What the node of the given number becomes. -/
def node (c : Changes) (i : Nat) : Node Ref → Node Ref
  | .program body => .program (c.front.map some ++ c.list body)
  | .block body => .block (c.list body)
  | .expressionStatement e => .expressionStatement ((c.guarded i).elim e some)
  | n => n

variable {c : Changes} {i j : Nat} {n : Node Ref} {r : Ref} {body : List Ref}

theorem list_cons : c.list (r :: body) = c.place r ++ c.list body := rfl

theorem list_append {body' : List Ref} : c.list (body ++ body') = c.list body ++ c.list body' :=
  List.flatMap_append

/-- What is put elsewhere does not touch a list that holds nothing of it. -/
theorem list_eq (h : ∀ i, some i ∈ body → c.replaced i = none) : c.list body = body := by
  induction body with
  | nil => rfl
  | cons r body ih =>
    have hr : c.place r = [r] := by
      cases r with
      | none => rfl
      | some i => simp [place, h i (by simp)]
    rw [list_cons, hr, ih fun i hi => h i (by simp [hi]), List.singleton_append]

theorem mem_list : some i ∈ c.list body ↔
    (some i ∈ body ∧ c.replaced i = none) ∨
      ∃ k ds, some k ∈ body ∧ c.replaced k = some ds ∧ i ∈ ds := by
  unfold list
  rw [List.mem_flatMap]
  constructor
  · rintro ⟨r, hr, hi⟩
    cases r with
    | none => simp [place] at hi
    | some k =>
      cases hk : c.replaced k with
      | none =>
        obtain rfl : i = k := by simpa [place, hk] using hi
        exact .inl ⟨hr, hk⟩
      | some ds => exact .inr ⟨k, ds, hr, hk, by simpa [place, hk] using hi⟩
  · rintro (⟨hr, hk⟩ | ⟨k, ds, hr, hk, hi⟩)
    · exact ⟨some i, hr, by simp [place, hk]⟩
    · exact ⟨some k, hr, by simpa [place, hk] using hi⟩

/-- Nodes that are no lists of statements and hold no expression as a statement stay. -/
theorem node_eq (hl : n.isList = false) (he : n.isExpressionStatement = false) :
    c.node i n = n := by
  cases n
  case program => cases hl
  case block => cases hl
  case expressionStatement => cases he
  all_goals rfl

/-- Nothing changes about a node that does not take part in the changes. -/
theorem node_self (hr : ∀ j, some j ∈ n.children → c.replaced j = none)
    (hg : c.guarded i = none) (hf : c.front = []) : c.node i n = n := by
  cases n
  case program body =>
    have hbody : c.list body = body := list_eq hr
    rw [node, hf, hbody, List.map_nil, List.nil_append]
  case block body =>
    have hbody : c.list body = body := list_eq hr
    rw [node, hbody]
  case expressionStatement e =>
    rw [node, hg]
    rfl
  all_goals rfl

@[simp] theorem node_nothing : nothing.node i n = n :=
  node_self (fun _ _ => rfl) rfl rfl

@[simp] theorem isFunction_node : (c.node i n).isFunction = n.isFunction := by
  cases n <;> rfl

@[simp] theorem isList_node : (c.node i n).isList = n.isList := by
  cases n <;> rfl

@[simp] theorem isExport_node : (c.node i n).isExport = n.isExport := by
  cases n <;> rfl

@[simp] theorem localName?_node : (c.node i n).localName? = n.localName? := by
  cases n <;> rfl

@[simp] theorem callParts?_node : (c.node i n).callParts? = n.callParts? := by
  cases n <;> rfl

@[simp] theorem identifierName?_node : (c.node i n).identifierName? = n.identifierName? := by
  cases n <;> rfl

theorem statementExpression?_node (h : c.guarded i = none) :
    (c.node i n).statementExpression? = n.statementExpression? := by
  cases n <;> first | rfl | simp [node, h]

@[simp] theorem importedName?_node : (c.node i n).importedName? = n.importedName? := by
  cases n <;> rfl

@[simp] theorem importSource?_node : (c.node i n).importSource? = n.importSource? := by
  cases n <;> rfl

@[simp] theorem stringValue?_node : (c.node i n).stringValue? = n.stringValue? := by
  cases n <;> rfl

@[simp] theorem mayLack_node : (c.node i n).mayLack = n.mayLack := by
  cases n <;> rfl

@[simp] theorem isExpression_node : (c.node i n).isExpression = n.isExpression := by
  cases n <;> rfl

@[simp] theorem takes_node_left {m : Node Ref} : (c.node i n).takes m = n.takes m := by
  cases n <;> rfl

@[simp] theorem takes_node_right {m : Node Ref} : m.takes (c.node i n) = m.takes n := by
  have hs : (c.node i n).isInnerStatement = n.isInnerStatement := by cases n <;> rfl
  have hb : (c.node i n).isBlock = n.isBlock := by cases n <;> rfl
  have hd : (c.node i n).isDeclaration = n.isDeclaration := by cases n <;> rfl
  have hr : (c.node i n).isDeclarator = n.isDeclarator := by cases n <;> rfl
  have hi : (c.node i n).isSpecifier = n.isSpecifier := by cases n <;> rfl
  have hp : (c.node i n).isProperty = n.isProperty := by cases n <;> rfl
  cases m <;> simp only [Node.takes, hs, isExpression_node, hb, hd, hr, hi, hp]

/-- What a changed node holds: what it held, what has come in the place of something, or what
stands in front of the script. -/
theorem mem_children_node : some j ∈ (c.node i n).children ↔
    (some j ∈ n.children ∧ (n.isList = true → c.replaced j = none) ∧
      (n.isExpressionStatement = true → c.guarded i = none)) ∨
    (n.isList = true ∧ ∃ k ds, some k ∈ n.children ∧ c.replaced k = some ds ∧ j ∈ ds) ∨
    (n.isProgram = true ∧ j ∈ c.front) ∨
    (n.isExpressionStatement = true ∧ c.guarded i = some j) := by
  cases n
  case program body =>
    simp only [node, Node.children, List.mem_append, List.mem_map, Option.some.injEq,
      exists_eq_right, mem_list, Node.isList, Node.statements?, Node.isExpressionStatement,
      Node.statementExpression?, Node.isProgram, Option.isSome_some, Option.isSome_none,
      true_imp_iff, Bool.false_eq_true, false_imp_iff, and_true, true_and, false_and, or_false]
    exact ⟨fun h => h.elim (fun h => .inr (.inr h)) (Or.imp_right .inl),
      fun h => h.elim (fun h => .inr (.inl h)) (Or.elim · (fun h => .inr (.inr h)) .inl)⟩
  case block body =>
    simp [node, Node.children, mem_list, Node.isList, Node.statements?,
      Node.isExpressionStatement, Node.statementExpression?, Node.isProgram]
  case expressionStatement e =>
    simp only [node, Node.children, List.mem_singleton, Node.isList, Node.statements?,
      Node.isExpressionStatement, Node.statementExpression?, Node.isProgram, Option.isSome_some,
      Option.isSome_none, true_imp_iff, Bool.false_eq_true, false_imp_iff, true_and, false_and,
      false_or]
    cases c.guarded i <;> simp [eq_comm]
  all_goals
    simp [node, Node.isList, Node.statements?, Node.isExpressionStatement,
      Node.statementExpression?, Node.isProgram]

/-- What stands in front of the statements of a node: the script is the only one with a front. -/
def frontOf (c : Changes) (n : Node Ref) : List Nat :=
  if n.isProgram then c.front else []

theorem statements?_node (h : n.isList = true) :
    (c.node i n).statements? = some ((c.frontOf n).map some ++ c.list n.children) := by
  cases n <;> first | rfl | cases h

theorem children_node (h : n.isList = true) :
    (c.node i n).children = (c.frontOf n).map some ++ c.list n.children := by
  cases n <;> first | rfl | cases h

theorem filterMap_frontOf : ((c.frontOf n).map some).filterMap id = c.frontOf n := by
  simp [List.filterMap_map]

theorem mem_front {d : Nat} (h : d ∈ c.frontOf n) : d ∈ c.front := by
  unfold frontOf at h
  split at h
  · exact h
  · cases h

/-! ### Further changes -/

/-- Other statements stand in the place of `i`. -/
def replace (c : Changes) (i : Nat) (ds : List Nat) : Changes :=
  { c with replaced := Function.update c.replaced i (some ds) }

/-- Another expression stands in the statement `s`. -/
def guard (c : Changes) (s e : Nat) : Changes :=
  { c with guarded := Function.update c.guarded s (some e) }

/-- One more statement stands in front of the script. -/
def put (c : Changes) (d : Nat) : Changes :=
  { c with front := d :: c.front }

theorem replaced_replace {ds : List Nat} :
    (c.replace i ds).replaced j = if j = i then some ds else c.replaced j :=
  Function.update_apply ..

theorem guarded_guard {s e : Nat} :
    (c.guard s e).guarded j = if j = s then some e else c.guarded j :=
  Function.update_apply ..

/-- All that is put elsewhere has a number from `n` on. -/
structure Above (c : Changes) (n : Nat) : Prop where
  replaced : ∀ ⦃i ds⦄, c.replaced i = some ds → ∀ d ∈ ds, n ≤ d
  guarded : ∀ ⦃s e⦄, c.guarded s = some e → n ≤ e
  front : ∀ d ∈ c.front, n ≤ d

theorem above_nothing {n : Nat} : nothing.Above n :=
  ⟨nofun, nofun, nofun⟩

/-- A node that is not new was held before. -/
theorem Above.mem_children {m : Nat} (h : c.Above m) (hj : j < m)
    (hmem : some j ∈ (c.node i n).children) : some j ∈ n.children := by
  rcases mem_children_node.1 hmem with ⟨hmem, -⟩ | ⟨-, k, ds, -, hk, hmem⟩ | ⟨-, hmem⟩ | ⟨-, hg⟩
  · exact hmem
  · exact absurd (h.replaced hk j hmem) (Nat.not_le_of_lt hj)
  · exact absurd (h.front j hmem) (Nat.not_le_of_lt hj)
  · exact absurd (h.guarded hg) (Nat.not_le_of_lt hj)

section

variable {m s e d : Nat} {ds : List Nat}

theorem Above.replace (h : c.Above m) (hds : ∀ d ∈ ds, m ≤ d) : (c.replace i ds).Above m where
  __ := h
  replaced := by
    intro k ds' hk
    by_cases hki : k = i
    · subst hki
      obtain rfl : ds = ds' := by simpa [Changes.replace] using hk
      exact hds
    · exact h.replaced (by simpa [Changes.replace, hki] using hk)

theorem Above.guard (h : c.Above m) (he : m ≤ e) : (c.guard s e).Above m where
  __ := h
  guarded := by
    intro k e' hk
    by_cases hks : k = s
    · subst hks
      obtain rfl : e = e' := by simpa [Changes.guard] using hk
      exact he
    · exact h.guarded (by simpa [Changes.guard, hks] using hk)

theorem Above.put (h : c.Above m) (hd : m ≤ d) : (c.put d).Above m where
  __ := h
  front := by
    intro k hk
    rcases List.mem_cons.1 hk with rfl | hk
    · exact hd
    · exact h.front k hk

theorem list_replace_of_not_mem (h : some i ∉ body) : (c.replace i ds).list body = c.list body := by
  induction body with
  | nil => rfl
  | cons r body ih =>
    rw [List.mem_cons, not_or] at h
    have hr : (c.replace i ds).place r = c.place r := by
      cases r with
      | none => rfl
      | some k =>
        have hk : k ≠ i := fun hk => h.1 (by rw [hk])
        simp [place, Changes.replace, hk]
    rw [list_cons, list_cons, hr, ih h.2]

/-- A list of which `i` is one entry, before and after something else takes its place. -/
theorem node_replace {k : Nat} (ds : List Nat) (hl : n.isList = true) (h : c.replaced i = none)
    {before after : List Ref} (hn : n.children = before ++ some i :: after)
    (hbefore : some i ∉ before) (hafter : some i ∉ after) :
    (c.node k n).statements? =
        some ((c.frontOf n).map some ++ c.list before ++ some i :: c.list after) ∧
      (c.replace i ds).node k n = (c.node k n).withStatements
        ((c.frontOf n).map some ++ c.list before ++ ds.map some ++ c.list after) := by
  have hbody : c.list n.children = c.list before ++ some i :: c.list after := by
    rw [hn, list_append, list_cons]
    simp [place, h]
  have hbody' : (c.replace i ds).list n.children =
      c.list before ++ ds.map some ++ c.list after := by
    rw [hn, list_append, list_cons, list_replace_of_not_mem hbefore,
      list_replace_of_not_mem hafter]
    simp [place, Changes.replace]
  constructor
  · rw [statements?_node hl, hbody, List.append_assoc]
  · rw [List.append_assoc, List.append_assoc, ← List.append_assoc (c.list before), ← hbody']
    cases n <;> rfl

/-- Only the list that holds `i` changes if something else takes its place. -/
theorem node_replace_of_not_mem {k : Nat} (h : some i ∉ n.children) :
    (c.replace i ds).node k n = c.node k n := by
  cases n
  case program body =>
    have hbody : (c.replace i ds).list body = c.list body := list_replace_of_not_mem h
    rw [node, node, hbody]
    rfl
  case block body =>
    have hbody : (c.replace i ds).list body = c.list body := list_replace_of_not_mem h
    rw [node, node, hbody]
  all_goals rfl

theorem node_guard_of_ne {k : Nat} (h : k ≠ s) : (c.guard s e).node k n = c.node k n := by
  cases n <;> first | rfl | simp [node, Changes.guard, h]

theorem node_put (h : n.isProgram = false) : (c.put d).node i n = c.node i n := by
  cases n
  case program => cases h
  all_goals rfl

end

end Changes

end DebugGuard
