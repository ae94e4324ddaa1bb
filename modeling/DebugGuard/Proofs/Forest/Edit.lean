import DebugGuard.Forest.Access
import DebugGuard.Proofs.Forest.Basic

/-!
# What an edit leaves as it is

An edit exchanges the data of one node, which `Forest.Alters` describes, and moves parent links.

Main statements:

* `splice_eq_ok`, `putFirst_eq_ok` and `setExpression_eq_ok`: when an edit goes through, and what
  makes it up;
* `splice_alters`, `putFirst_alters` and `alters_exchanged`: which node each edit alters, and where
  the parent links lead afterwards.
-/

namespace DebugGuard.Forest

variable {f g : Forest} {r target : Ref} {body statements : List Ref} {slot : Nat}

theorem statements?_eq_some : f.statements? r = some body ↔
    ∃ n, f.node? r = some n ∧ n.statements? = some body := by
  unfold statements?
  exact Option.bind_eq_some_iff

theorem has_congr (h : g.size = f.size) : g.Has r ↔ f.Has r := by
  cases r with
  | none => simp
  | some i => rw [has_some, has_some, h]

theorem eq_and_has_iff {i : Nat} (hi : i < f.size) : r = some i ∧ f.Has r ↔ r = some i := by
  refine and_iff_left_of_imp ?_
  rintro rfl
  exact has_some.2 hi

theorem parentOf_of_not_has (h : ¬f.Has r) : f.parentOf r = none := by
  cases r with
  | none => rfl
  | some i => exact parentOf_eq_none (Nat.le_of_not_lt fun hi => h (has_some.2 hi))

@[simp] theorem has_setParent {p c : Ref} : (f.setParent p c).Has r ↔ f.Has r :=
  has_congr size_setParent

@[simp] theorem has_adopt {p : Ref} {cs : List Ref} : (f.adopt p cs).Has r ↔ f.Has r :=
  has_congr size_adopt

@[simp] theorem has_setNode {n : Node Ref} : (f.setNode target n).Has r ↔ f.Has r :=
  has_congr size_setNode

/-- The node `p`, which is `n` in the forest `f`, is `n'` in `g`.  Nothing else is another but for
parent links. -/
structure Alters (f : Forest) (p : Nat) (n n' : Node Ref) (g : Forest) : Prop where
  before : f.node? (some p) = some n
  after : g.node? (some p) = some n'
  size : g.size = f.size
  others : ∀ ⦃i⦄, i ≠ p → g.node? (some i) = f.node? (some i)
  pos : ∀ r, g.startOf? r = f.startOf? r

theorem Alters.lt_size {p : Nat} {n n' : Node Ref} (h : f.Alters p n n' g) : p < f.size :=
  lt_size_of_node? h.before

/-! ### Statement lists -/

theorem children_of_statements? {α : Type} {m : Node α} {body : List α}
    (h : m.statements? = some body) :
    m.children = body ∧ ∀ body', (m.withStatements body').children = body' := by
  cases m <;> simp only [Node.statements?, Option.some.injEq, reduceCtorEq] at h
  all_goals exact ⟨h, fun _ => rfl⟩

@[simp] theorem size_setStatements : (f.setStatements target body).size = f.size := by
  unfold setStatements
  split <;> simp

theorem node?_setStatements : (f.setStatements target body).node? r =
    if r = target then (f.node? r).map (·.withStatements body) else f.node? r := by
  unfold setStatements
  split
  next h =>
    split
    · next hr => simp [hr, h]
    · rfl
  next n h =>
    rw [node?_setNode]
    by_cases hr : r = target
    · subst hr
      simp [h, has_of_node? h]
    · simp [hr]

@[simp] theorem parentOf_setStatements :
    (f.setStatements target body).parentOf r = f.parentOf r := by
  unfold setStatements
  split <;> simp

@[simp] theorem startOf?_setStatements :
    (f.setStatements target body).startOf? r = f.startOf? r := by
  unfold setStatements
  split <;> simp

@[simp] theorem has_setStatements : (f.setStatements target body).Has r ↔ f.Has r :=
  has_congr size_setStatements

/-! ### Splicing -/

/-- The forest in which `statements` stand in the place of `target`, which is the entry `slot` of
its list. -/
def spliced (f : Forest) (target : Ref) (statements body : List Ref) (slot : Nat) : Forest :=
  ((f.adopt (f.parentOf target) statements).setStatements (f.parentOf target)
    (body.take slot ++ statements ++ body.drop (slot + 1))).setParent none target

theorem splice_eq_ok : f.splice target statements = .ok g ↔
    ∃ body slot, f.statements? (f.parentOf target) = some body ∧
      body.idxOf? target = some slot ∧ g = f.spliced target statements body slot := by
  unfold splice
  constructor
  · intro h
    dsimp only at h
    split at h
    next body hb =>
      split at h
      next slot hs =>
        cases h
        exact ⟨body, slot, hb, hs, rfl⟩
      next => cases h
    next => cases h
  · rintro ⟨body, slot, hb, hs, rfl⟩
    simp only [hb, hs]
    rfl

@[simp] theorem size_spliced : (f.spliced target statements body slot).size = f.size := by
  simp [spliced]

theorem node?_spliced : (f.spliced target statements body slot).node? r =
    if r = f.parentOf target then
      (f.node? r).map (·.withStatements (body.take slot ++ statements ++ body.drop (slot + 1)))
    else f.node? r := by
  simp only [spliced, node?_setParent, node?_setStatements, node?_adopt]

@[simp] theorem startOf?_spliced :
    (f.spliced target statements body slot).startOf? r = f.startOf? r := by
  simp [spliced]

theorem parentOf_spliced : (f.spliced target statements body slot).parentOf r =
    if r = target ∧ f.Has r then none
    else if r ∈ statements ∧ f.Has r then f.parentOf target else f.parentOf r := by
  simp only [spliced, parentOf_setParent, parentOf_setStatements, parentOf_adopt,
    has_setStatements, has_adopt]

theorem take_idxOf?_drop {α : Type} [BEq α] [LawfulBEq α] {a : α} {l : List α} {k : Nat}
    (h : l.idxOf? a = some k) : l = l.take k ++ a :: l.drop (k + 1) := by
  obtain ⟨hk, ha, -⟩ := List.findIdx?_eq_some_iff_getElem.1 h
  obtain rfl := LawfulBEq.eq_of_beq ha
  rw [List.getElem_cons_drop, List.take_append_drop]

/-- The list in which a statement stands, before and after others have taken its place. -/
theorem splice_alters (h : f.splice target statements = .ok g) :
    ∃ t p n before after, target = some t ∧ f.parentOf (some t) = some p ∧
      n.statements? = some (before ++ some t :: after) ∧
      f.Alters p n (n.withStatements (before ++ statements ++ after)) g ∧
      ∀ r, g.parentOf r = if r = some t then none
        else if r ∈ statements ∧ f.Has r then some p else f.parentOf r := by
  obtain ⟨body, slot, hbody, hslot, rfl⟩ := splice_eq_ok.1 h
  obtain ⟨n, hn, hstatements⟩ := statements?_eq_some.1 hbody
  obtain ⟨p, hp⟩ := exists_eq_some hn
  rw [hp] at hn
  obtain ⟨t, rfl⟩ : ∃ t, target = some t := by
    cases target with
    | none => cases hp
    | some t => exact ⟨t, rfl⟩
  refine ⟨t, p, n, body.take slot, body.drop (slot + 1), rfl, hp, ?_,
    ⟨hn, ?_, size_spliced, fun i hi => ?_, fun r => startOf?_spliced⟩, fun r => ?_⟩
  · rw [← take_idxOf?_drop hslot, hstatements]
  · rw [node?_spliced, hp, if_pos rfl, hn, Option.map_some]
  · rw [node?_spliced, hp, if_neg (by simpa using hi)]
  · rw [parentOf_spliced, hp]
    refine if_congr (and_iff_left_of_imp ?_) rfl rfl
    rintro rfl
    exact has_some.2 (lt_size_of_parentOf hp)

/-! ### Putting a statement in front -/

theorem putFirst_eq_ok {list statement : Ref} : f.putFirst list statement = .ok g ↔
    ∃ body, f.statements? list = some body ∧
      g = (f.setStatements list (statement :: body)).setParent list statement := by
  unfold putFirst
  constructor
  · intro h
    split at h
    next body hb =>
      cases h
      exact ⟨body, hb, rfl⟩
    next => cases h
  · rintro ⟨body, hb, rfl⟩
    simp only [hb]

/-- The list before and after a statement has been put in front of it. -/
theorem putFirst_alters {list statement : Ref} (h : f.putFirst list statement = .ok g) :
    ∃ p n body, list = some p ∧ n.statements? = some body ∧
      f.Alters p n (n.withStatements (statement :: body)) g ∧
      ∀ r, g.parentOf r = if r = statement ∧ f.Has r then some p else f.parentOf r := by
  obtain ⟨body, hbody, rfl⟩ := putFirst_eq_ok.1 h
  obtain ⟨n, hn, hstatements⟩ := statements?_eq_some.1 hbody
  obtain ⟨p, rfl⟩ := exists_eq_some hn
  refine ⟨p, n, body, rfl, hstatements, ⟨hn, ?_, by simp, fun i hi => ?_, fun r => by simp⟩,
    fun r => ?_⟩
  · rw [node?_setParent, node?_setStatements, if_pos rfl, hn, Option.map_some]
  · rw [node?_setParent, node?_setStatements, if_neg (by simpa using hi)]
  · rw [parentOf_setParent, parentOf_setStatements]
    exact if_congr (by rw [has_setStatements]) rfl rfl

/-! ### Exchanging an expression -/

/-- The forest in which a statement holds another expression. -/
def exchanged (f : Forest) (statement old expression : Ref) : Forest :=
  let changed := f.setNode statement (.expressionStatement expression)
  (if f.parentOf old = statement then changed.setParent none old else changed).setParent
    statement expression

theorem setExpression_eq_ok {statement expression : Ref} :
    f.setExpression statement expression = .ok g ↔
      ∃ old, f.node? statement = some (.expressionStatement old) ∧
        g = f.exchanged statement old expression := by
  unfold setExpression
  constructor
  · intro h
    split at h
    next old hold =>
      cases h
      exact ⟨old, hold, rfl⟩
    next => cases h
  · rintro ⟨old, hold, rfl⟩
    simp only [hold]
    rfl

variable {statement old expression : Ref}

@[simp] theorem size_exchanged : (f.exchanged statement old expression).size = f.size := by
  unfold exchanged
  split <;> simp

theorem node?_exchanged : (f.exchanged statement old expression).node? r =
    if r = statement ∧ f.Has r then some (.expressionStatement expression) else f.node? r := by
  unfold exchanged
  split <;> simp [node?_setNode]

@[simp] theorem startOf?_exchanged :
    (f.exchanged statement old expression).startOf? r = f.startOf? r := by
  unfold exchanged
  split <;> simp

theorem alters_exchanged {s : Nat} (h : f.node? (some s) = some (.expressionStatement old))
    (expression : Ref) : f.Alters s (.expressionStatement old) (.expressionStatement expression)
      (f.exchanged (some s) old expression) where
  before := h
  after := by rw [node?_exchanged, if_pos ⟨rfl, has_of_node? h⟩]
  size := size_exchanged
  others i hi := by rw [node?_exchanged, if_neg (by simp [hi])]
  pos _ := startOf?_exchanged

theorem parentOf_exchanged :
    (f.exchanged statement old expression).parentOf r =
      if r = expression ∧ f.Has r then statement
      else if r = old ∧ f.parentOf old = statement then none else f.parentOf r := by
  unfold exchanged
  by_cases hold : f.parentOf old = statement
  · simp only [hold, if_true, and_true, parentOf_setParent, parentOf_setNode, has_setParent,
      has_setNode]
    by_cases h : f.Has r
    · simp [h]
    · simp [h, parentOf_of_not_has h]
  · simp only [hold, if_false, and_false, parentOf_setParent, parentOf_setNode, has_setNode]

end DebugGuard.Forest
