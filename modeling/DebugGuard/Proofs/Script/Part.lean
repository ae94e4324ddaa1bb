import DebugGuard.Proofs.Script.Shape

/-!
# The parts of a script

A script, the phrases in it and the specifiers of its imports.  `Node.takes` says which kind of node
may stand in a slot of which other one, and `Part.child` that this holds all over a script.
-/

namespace DebugGuard

namespace Node

variable {α β : Type}

/-- A whole script. -/
def isProgram : Node α → Bool
  | .program _ => true
  | _ => false

/-- An import specifier. -/
def isSpecifier : Node α → Bool
  | .importName .. | .importDefault _ | .importAll _ => true
  | _ => false

/-- One variable of a declaration. -/
def isDeclarator : Node α → Bool
  | .declarator .. => true
  | _ => false

/-- A property of an object. -/
def isProperty : Node α → Bool
  | .property .. => true
  | _ => false

/-- A statement that may stand below another node. -/
def isInnerStatement (n : Node α) : Bool :=
  n.isStatement && !n.isProgram

/-- What is left: a node that has a value. -/
def isExpression (n : Node α) : Bool :=
  !n.isStatement && !n.isSpecifier && !n.isDeclarator && !n.isProperty

/-- The kinds of node that the slots of a node take. -/
def takes (n : Node α) (m : Node β) : Bool :=
  match n with
  | .program _ | .block _ => m.isInnerStatement
  | .importFrom .. => m.isSpecifier
  | .exportDeclaration _ => m.isDeclaration
  | .varDeclaration .. => m.isDeclarator
  | .functionDeclaration .. | .functionExpression .. => m.isBlock
  | .arrow .. => m.isBlock || m.isExpression
  | .ifElse .. => m.isExpression || m.isInnerStatement
  | .object _ => m.isProperty
  | _ => m.isExpression

@[simp] theorem takes_map_left {γ : Type} (f : α → γ) (n : Node α) (m : Node β) :
    (n.map f).takes m = n.takes m := by
  cases n <;> rfl

@[simp] theorem takes_map_right {γ : Type} (f : β → γ) (n : Node α) (m : Node β) :
    n.takes (m.map f) = n.takes m := by
  have hs : (m.map f).isInnerStatement = m.isInnerStatement := by cases m <;> rfl
  have he : (m.map f).isExpression = m.isExpression := by cases m <;> rfl
  have hb : (m.map f).isBlock = m.isBlock := by cases m <;> rfl
  have hd : (m.map f).isDeclaration = m.isDeclaration := by cases m <;> rfl
  have hr : (m.map f).isDeclarator = m.isDeclarator := by cases m <;> rfl
  have hi : (m.map f).isSpecifier = m.isSpecifier := by cases m <;> rfl
  have hp : (m.map f).isProperty = m.isProperty := by cases m <;> rfl
  cases n <;> simp only [takes, hs, he, hb, hd, hr, hi, hp]

/-- A slot of the node may be left empty. -/
def mayLack : Node α → Bool
  | .declarator .. | .ifElse .. | .returnStatement _ => true
  | _ => false

@[simp] theorem mayLack_map (f : α → β) (n : Node α) : (n.map f).mayLack = n.mayLack := by
  cases n <;> rfl

end Node

namespace Tree

/-- The kind of node that stands for a phrase. -/
def Phrase.covers (p : Phrase) (n : Node Tree) : Bool :=
  match p with
  | .statement => n.isInnerStatement
  | .declarator _ => n.isDeclarator
  | .expression => n.isExpression
  | .property => n.isProperty

theorem Fits.covers {p : Phrase} {t : Tree} (h : Fits p t) :
    ∃ pos top, t = .node pos top ∧ p.covers top = true := by
  cases h <;> exact ⟨_, _, rfl, rfl⟩

/-- A script, or a phrase or an import specifier in one. -/
inductive Part : Tree → Prop
  | script {pos body} (hs : ∀ s ∈ body, Fits .statement s) : Part (.node pos (.program body))
  | phrase {p t} (h : Fits p t) : Part t
  | importName {t} (h : IsImportName t) : Part t
  | importDefault {t} (h : IsImportDefault t) : Part t
  | importAll {t} (h : IsImportAll t) : Part t
  /-- The value of a property that is named alone. -/
  | shorthand {pos key} : Part (.node pos (.identifier key))

/-- The slot of a node holds a part that belongs there, or it is one that may be empty. -/
def Filled (n : Node Tree) (c : Tree) : Prop :=
  (c = .absent ∧ n.mayLack = true) ∨
    ∃ pos top, c = .node pos top ∧ Part c ∧ n.takes top = true

theorem Fits.filled {p : Phrase} {c : Tree} (h : Fits p c) {n : Node Tree}
    (hn : ∀ top : Node Tree, p.covers top = true → n.takes top = true) : Filled n c := by
  obtain ⟨pos, top, rfl, hc⟩ := h.covers
  exact .inr ⟨pos, top, rfl, .phrase h, hn top hc⟩

theorem Fits.filled_of_topIs {p : Phrase} {c : Tree} (h : Fits p c) {q : Node Tree → Bool}
    (ht : c.topIs q = true) {n : Node Tree} (hn : ∀ top : Node Tree, q top → n.takes top = true) :
    Filled n c := by
  obtain ⟨pos, top, rfl, -⟩ := h.covers
  exact .inr ⟨pos, top, rfl, .phrase h, hn top ht⟩

theorem Part.child {pos : Nat} {top : Node Tree} (h : Part (.node pos top)) {c : Tree}
    (hc : c ∈ top.children) : Filled top c := by
  cases h with
  | script hs => exact (hs c hc).filled fun _ h => h
  | importName h =>
    obtain ⟨_, _, _, heq, -⟩ := h
    cases heq
    cases hc
  | importDefault h =>
    obtain ⟨_, _, heq, -⟩ := h
    cases heq
    cases hc
  | importAll h =>
    obtain ⟨_, _, heq, -⟩ := h
    cases heq
    cases hc
  | shorthand => cases hc
  | phrase h =>
    cases h <;> simp only [Node.children, List.mem_cons, List.not_mem_nil, or_false] at hc
    case importFrom hfirst hrest =>
      rcases List.mem_append.1 hc with hc | hc
      · rcases hfirst with rfl | ⟨s, rfl, hs⟩
        · cases hc
        · obtain rfl := List.mem_singleton.1 hc
          obtain ⟨pos, bound, rfl, -⟩ := id hs
          exact .inr ⟨_, _, rfl, .importDefault hs, rfl⟩
      · rcases hrest with ⟨s, rfl, hs⟩ | hs
        · obtain rfl := List.mem_singleton.1 hc
          obtain ⟨pos, bound, rfl, -⟩ := id hs
          exact .inr ⟨_, _, rfl, .importAll hs, rfl⟩
        · obtain ⟨pos, imported, bound, rfl, -⟩ := id (hs c hc)
          exact .inr ⟨_, _, rfl, .importName (hs _ hc), rfl⟩
    case exportDeclaration hd ht =>
      subst hc
      exact hd.filled_of_topIs ht fun _ h => h
    case exportDefault he _ =>
      subst hc
      exact he.filled fun _ h => h
    case varDeclaration _ hds => exact (hds c hc).filled fun _ h => h
    case functionDeclaration _ _ hb ht =>
      subst hc
      exact hb.filled_of_topIs ht fun _ h => h
    case block hs => exact (hs c hc).filled fun _ h => h
    case expressionStatement he _ _ _ =>
      subst hc
      exact he.filled fun _ h => h
    case ifOnly hc' hy =>
      rcases hc with rfl | rfl | rfl
      · exact hc'.filled fun top h => Bool.or_eq_true_iff.2 (.inl h)
      · exact hy.filled fun top h => Bool.or_eq_true_iff.2 (.inr h)
      · exact .inl ⟨rfl, rfl⟩
    case ifElse hc' hy hn _ =>
      rcases hc with rfl | rfl | rfl
      · exact hc'.filled fun top h => Bool.or_eq_true_iff.2 (.inl h)
      · exact hy.filled fun top h => Bool.or_eq_true_iff.2 (.inr h)
      · exact hn.filled fun top h => Bool.or_eq_true_iff.2 (.inr h)
    case returnOnly => exact .inl ⟨hc, rfl⟩
    case returnStatement he =>
      subst hc
      exact he.filled fun _ h => h
    case throwStatement he =>
      subst hc
      exact he.filled fun _ h => h
    case uninitialized => exact .inl ⟨hc, rfl⟩
    case declarator hi =>
      subst hc
      exact hi.filled fun _ h => h
    case call hc' _ hargs =>
      rcases hc with rfl | hc
      · exact hc'.filled fun _ h => h
      · exact (hargs c hc).filled fun _ h => h
    case construct hc' _ hargs =>
      rcases hc with rfl | hc
      · exact hc'.filled fun _ h => h
      · exact (hargs c hc).filled fun _ h => h
    case member ho _ _ =>
      subst hc
      exact ho.filled fun _ h => h
    case element ho _ hi =>
      rcases hc with rfl | rfl
      · exact ho.filled fun _ h => h
      · exact hi.filled fun _ h => h
    case unary _ he _ =>
      subst hc
      exact he.filled fun _ h => h
    case binary hl hr _ _ =>
      rcases hc with rfl | rfl
      · exact hl.filled fun _ h => h
      · exact hr.filled fun _ h => h
    case assignment ht _ hv =>
      rcases hc with rfl | rfl
      · exact ht.filled fun _ h => h
      · exact hv.filled fun _ h => h
    case conditional hc' _ hy hn =>
      rcases hc with rfl | rfl | rfl
      · exact hc'.filled fun _ h => h
      · exact hy.filled fun _ h => h
      · exact hn.filled fun _ h => h
    case object hps => exact (hps c hc).filled fun _ h => h
    case array hes => exact (hes c hc).filled fun _ h => h
    case functionExpression _ _ hb ht =>
      subst hc
      exact hb.filled_of_topIs ht fun _ h => h
    case arrowBlock _ hb ht =>
      subst hc
      exact hb.filled_of_topIs ht fun top h => Bool.or_eq_true_iff.2 (.inl h)
    case arrow _ hb _ =>
      subst hc
      exact hb.filled fun top h => Bool.or_eq_true_iff.2 (.inr h)
    case parenthesized he =>
      subst hc
      exact he.filled fun _ h => h
    case shorthand => exact .inr ⟨_, _, hc, hc ▸ .shorthand, rfl⟩
    case property _ hv =>
      subst hc
      exact hv.filled fun _ h => h

/-- A part that is neither a script nor a specifier nor a name is a phrase. -/
theorem Part.fits {pos : Nat} {top : Node Tree} (h : Part (.node pos top))
    (hprogram : top.isProgram = false) (hspecifier : top.isSpecifier = false)
    (hname : ∀ x, top ≠ .identifier x) : ∃ p, Fits p (.node pos top) := by
  cases h with
  | script => cases hprogram
  | phrase hf => exact ⟨_, hf⟩
  | importName h =>
    obtain ⟨_, _, _, heq, -⟩ := h
    cases heq
    cases hspecifier
  | importDefault h =>
    obtain ⟨_, _, heq, -⟩ := h
    cases heq
    cases hspecifier
  | importAll h =>
    obtain ⟨_, _, heq, -⟩ := h
    cases heq
    cases hspecifier
  | shorthand => exact absurd rfl (hname _)

/-- A node of a script is the top of one of its parts. -/
theorem Part.exists_of_mem {t : Tree} {n : Node Tree} (h : Part t) (hn : n ∈ t.nodes) :
    ∃ pos, Part (.node pos n) ∧ (Tree.node pos n).nodes ⊆ t.nodes := by
  induction t using Tree.induct with
  | absent => cases hn
  | dangling => cases hn
  | node pos top ih =>
    rcases mem_nodes_node.1 hn with rfl | ⟨c, hc, hn⟩
    · exact ⟨pos, h, List.Subset.refl _⟩
    · rcases h.child hc with ⟨rfl, -⟩ | ⟨pos', top', rfl, hpart, -⟩
      · cases hn
      · obtain ⟨pos'', hpart', hsub⟩ := ih _ hc hpart hn
        exact ⟨pos'', hpart', List.Subset.trans hsub (nodes_subset hc)⟩

end Tree

end DebugGuard
