import DebugGuard.Proofs.Forest.Change
import DebugGuard.Proofs.Forest.Parsed
import DebugGuard.Proofs.Forest.Way

/-!
# New nodes in a script

An expansion adds nodes behind those of a parsed script and hangs them into it.  `Forest.Graft f keep
c site loose g` says how the forest `g` under work is related to the parsed one, `f`:

* a node of `f` is as the changes `c` say;
* a new node `j` belongs to the place `site j` of the script, and the parent links lead from it
  through new nodes to that place, or to a node that hangs nowhere yet, which is then `loose`;
* a node of `f` keeps its parent, or loses it, or has been lent to an expression in the statement
  that it stands in.

A graft may be added to (`Graft.add`).  What hangs new nodes into the script is in
`DebugGuard.Proofs.Forest.Planting`.
-/

namespace DebugGuard.Forest

/-- The node `j` of `g` is none of `f`, and it is `n`. -/
def Added (f g : Forest) (j : Nat) (n : Node Ref) : Prop :=
  f.size ≤ j ∧ g.node? (some j) = some n

/-- The statement `s` lends the node `i` to the expression that takes the place of its call: an
argument of the call, or the call itself if calls are kept. -/
def Lends (f : Forest) (keep : Prop) (s i : Nat) : Prop :=
  ∃ call callee args, f.node? (some s) = some (.expressionStatement (some call)) ∧
    f.node? (some call) = some (.call callee args) ∧ (some i ∈ args ∨ keep ∧ i = call)

/-- The node stands in the list of a script or a block. -/
def Listed (f : Forest) (i : Nat) : Prop :=
  ∃ p n, f.parentOf (some i) = some p ∧ f.node? (some p) = some n ∧ n.isList = true

/-- The forest `g` comes from the parsed forest `f` by the changes `c` and new nodes. -/
structure Graft (f : Forest) (keep : Prop) (c : Changes) (site : Nat → Nat) (loose : Set Nat)
    (g : Forest) : Prop where
  size_le : f.size ≤ g.size
  above : c.Above f.size
  old : ∀ ⦃i⦄, i < f.size → g.node? (some i) = (f.node? (some i)).map (c.node i)
  pos : ∀ ⦃i⦄, i < f.size → g.startOf? (some i) = f.startOf? (some i)
  kinded : g.Kinded
  /-- New nodes are no scopes. -/
  plain : ∀ ⦃j n⦄, f.size ≤ j → g.node? (some j) = some n → n.isScope = false
  up : ∀ ⦃j⦄, f.size ≤ j → j < g.size →
    (g.parentOf (some j) = none ∧ j ∈ loose) ∨
    (∃ k, g.parentOf (some j) = some k ∧ j < k ∧ k < g.size ∧ site k = site j) ∨
    (g.parentOf (some j) = some (site j) ∧ site j < f.size)
  stays : ∀ ⦃i⦄, i < f.size →
    g.parentOf (some i) = f.parentOf (some i) ∨ g.parentOf (some i) = none ∨
    ∃ k, g.parentOf (some i) = some k ∧ f.size ≤ k ∧ k < g.size ∧ f.Lends keep (site k) i
  /-- What a new node holds belongs to the same place, or is lent from there. -/
  holds : ∀ ⦃j n⦄, f.size ≤ j → g.node? (some j) = some n → ∀ ⦃i⦄, some i ∈ n.children →
    (f.size ≤ i ∧ site i = site j) ∨
    (f.Lends keep (site j) i ∧ ∃ k, g.parentOf (some i) = some k ∧ f.size ≤ k)
  /-- A new node that a node of the script holds belongs there. -/
  planted : ∀ ⦃i n⦄, i < f.size → g.node? (some i) = some n → ∀ ⦃j⦄, some j ∈ n.children →
    f.size ≤ j → site j = i
  /-- A node of the script without a parent is held by none. -/
  unheld : ∀ ⦃i⦄, i < f.size → g.parentOf (some i) = none →
    ∀ ⦃j n⦄, g.node? (some j) = some n → some i ∉ n.children

variable {f g g' : Forest} {keep : Prop} {c : Changes} {site : Nat → Nat} {loose : Set Nat}
  {root i j p s : Nat} {n : Node Ref}

/-! ### The parsed script -/

theorem Lends.call (h : f.Lends keep s i) (hp : f.Parsed root) :
    ∃ call callee args, f.node? (some s) = some (.expressionStatement (some call)) ∧
      f.node? (some call) = some (.call callee args) ∧ f.parentOf (some call) = some s ∧
      (some i ∈ args ∧ f.parentOf (some i) = some call ∨ keep ∧ i = call) := by
  obtain ⟨call, callee, args, hs, hc, hi⟩ := h
  refine ⟨call, callee, args, hs, hc, (hp.of_mem_children hs (by simp [Node.children])).2.1, ?_⟩
  refine hi.imp (fun hi => ⟨hi, ?_⟩) id
  exact (hp.of_mem_children hc (by simp [Node.children, hi])).2.1

/-- What is lent is an expression. -/
theorem Lends.isExpression (h : f.Lends keep s i) (hp : f.Parsed root) :
    ∃ m, f.node? (some i) = some m ∧ m.isExpression = true := by
  obtain ⟨call, callee, args, hs, hc, hi | ⟨-, rfl⟩⟩ := h
  · obtain ⟨-, -, m, hm, htakes⟩ := hp.of_mem_children hc (i := i) (by simp [Node.children, hi])
    exact ⟨m, hm, htakes⟩
  · exact ⟨_, hc, rfl⟩

theorem Lends.lt_size (h : f.Lends keep s i) (hp : f.Parsed root) : i < f.size := by
  obtain ⟨m, hm, -⟩ := h.isExpression hp
  exact lt_size_of_node? hm

/-- No two statements lend the same node. -/
theorem Lends.unique (h : f.Lends keep s i) {s' : Nat} (h' : f.Lends keep s' i)
    (hp : f.Parsed root) : s = s' := by
  obtain ⟨call, callee, args, hs, hc, hcs, hi⟩ := h.call hp
  obtain ⟨call', callee', args', hs', hc', hcs', hi'⟩ := h'.call hp
  rcases hi with ⟨-, hi⟩ | ⟨-, rfl⟩ <;> rcases hi' with ⟨-, hi'⟩ | ⟨-, rfl⟩
  · rw [hi, Option.some.injEq] at hi'
    subst hi'
    exact Option.some.inj (hcs.symm.trans hcs')
  · -- The parent of the node would be a call and a statement.
    rw [hi, Option.some.injEq] at hcs'
    subst hcs'
    rw [hc] at hs'
    cases hs'
  · rw [hi', Option.some.injEq] at hcs
    subst hcs
    rw [hc'] at hs
    cases hs
  · exact Option.some.inj (hcs.symm.trans hcs')

/-- A parsed script in which nothing is changed. -/
theorem Parsed.graft (hp : f.Parsed root) : Graft f keep .nothing site ∅ f where
  size_le := Nat.le_refl _
  above := Changes.above_nothing
  old i _ := by
    have hid : Changes.nothing.node i = id := funext fun n => Changes.node_nothing
    rw [hid, Option.map_id, id]
  pos _ _ := rfl
  kinded := hp.kinded
  plain j n hj hn := absurd (lt_size_of_node? hn) (Nat.not_lt_of_le hj)
  up j hj hlt := absurd hlt (Nat.not_lt_of_le hj)
  stays i _ := .inl rfl
  holds j n hj hn := absurd (lt_size_of_node? hn) (Nat.not_lt_of_le hj)
  planted i n hi hn j hj hle := by
    have := (hp.of_mem_children hn hj).1
    omega
  unheld i _ hi j n hn hmem := by
    rw [(hp.of_mem_children hn hmem).2.1] at hi
    cases hi

namespace Graft

theorem eq_node (h : Graft f keep c site loose g) {m : Node Ref}
    (hm : f.node? (some p) = some m) (hn : g.node? (some p) = some n) : c.node p m = n := by
  have hold := h.old (lt_size_of_node? hm)
  rw [hm, hn] at hold
  exact (Option.some.inj hold).symm

/-- A statement in which another expression has taken the place of the call. -/
theorem node?_guarded (h : Graft f keep c site loose g) {r : Ref} {e : Nat}
    (hs : f.node? (some s) = some (.expressionStatement r)) (he : c.guarded s = some e) :
    g.node? (some s) = some (.expressionStatement (some e)) := by
  rw [h.old (lt_size_of_node? hs), hs, Option.map_some, Changes.node, he]
  rfl

/-- Nodes that are allowed to hang nowhere need not do so. -/
theorem mono (h : Graft f keep c site loose g) {loose' : Set Nat}
    (hsub : ∀ j, f.size ≤ j → j ∈ loose → j ∈ loose') : Graft f keep c site loose' g where
  __ := h
  up j hj hlt := (h.up hj hlt).imp_left fun h => ⟨h.1, hsub j hj h.2⟩

/-- The sites of numbers that are not in use do not matter. -/
theorem congr_site (h : Graft f keep c site loose g) {site' : Nat → Nat}
    (hsite : ∀ j < g.size, site' j = site j) : Graft f keep c site' loose g where
  __ := h
  up j hj hlt := by
    rw [hsite j hlt]
    refine (h.up hj hlt).imp_right (.imp_left ?_)
    rintro ⟨k, hk, hjk, hkg, hs⟩
    exact ⟨k, hk, hjk, hkg, by rw [hsite k hkg, hs]⟩
  stays i hi := by
    refine (h.stays hi).imp_right (.imp_right ?_)
    rintro ⟨k, hk, hle, hkg, hlends⟩
    exact ⟨k, hk, hle, hkg, by rwa [hsite k hkg]⟩
  holds j n hj hn i hi := by
    rw [hsite j (lt_size_of_node? hn)]
    refine (h.holds hj hn hi).imp_left ?_
    rintro ⟨hle, hs⟩
    rcases h.kinded hn _ hi with ⟨h, -⟩ | ⟨m, hm, -⟩
    · cases h
    · exact ⟨hle, by rw [hsite i (lt_size_of_node? hm), hs]⟩
  planted i n hi hn j hj hle := by
    rcases h.kinded hn _ hj with ⟨h, -⟩ | ⟨m, hm, -⟩
    · cases h
    · rw [hsite j (lt_size_of_node? hm)]
      exact h.planted hi hn hj hle

/-! ### Adding -/

/-- A new node is put on top of nodes of one place. -/
theorem add (h : Graft f keep c site loose g) (hscope : n.isScope = false)
    (hsite : site g.size = s)
    (hkind : ∀ r ∈ n.children, ∃ m, g.node? r = some m ∧ n.takes m = true)
    (hfrom : ∀ i, some i ∈ n.children →
      (f.size ≤ i ∧ site i = s) ∨ (i < f.size ∧ f.Lends keep s i)) :
    Graft f keep c site (insert g.size (loose \ {j | some j ∈ n.children})) (g.add n 0) := by
  have hlt {k : Nat} (hk : some k ∈ n.children) : k < g.size := by
    obtain ⟨m, hm, -⟩ := hkind _ hk
    exact lt_size_of_node? hm
  have hparent {k : Nat} (hk : some k ∈ n.children) :
      (g.add n 0).parentOf (some k) = some g.size := parentOf_add_of_mem hk (hlt hk)
  have hle := h.size_le
  constructor
  case size_le =>
    rw [size_add]
    omega
  case above => exact h.above
  case old =>
    intro i hi
    rw [node?_add_of_ne (by omega)]
    exact h.old hi
  case pos =>
    intro i hi
    rw [startOf?_add_of_ne (by omega)]
    exact h.pos hi
  case kinded => exact h.kinded.add hkind
  case plain =>
    intro j m hj hm
    rcases node?_add_eq_some.1 hm with ⟨-, rfl⟩ | hm
    · exact hscope
    · exact h.plain hj hm
  case up =>
    intro j hj hj'
    rw [size_add] at hj' ⊢
    by_cases hmem : some j ∈ n.children
    · have hs : site j = s := by
        rcases hfrom j hmem with ⟨-, hs⟩ | ⟨hlt, -⟩
        · exact hs
        · omega
      exact .inr (.inl ⟨g.size, hparent hmem, hlt hmem, by omega, by rw [hs, hsite]⟩)
    · rw [parentOf_add_of_notMem hmem]
      rcases Nat.lt_or_ge j g.size with hjg | hjg
      · rcases h.up hj hjg with ⟨hnone, hl⟩ | ⟨k, hk, hjk, hkg, hs⟩ | hsite'
        · exact .inl ⟨hnone, Set.mem_insert_of_mem _ ⟨hl, hmem⟩⟩
        · exact .inr (.inl ⟨k, hk, hjk, by omega, hs⟩)
        · exact .inr (.inr hsite')
      · obtain rfl : j = g.size := by omega
        exact .inl ⟨parentOf_eq_none (Nat.le_refl _), Set.mem_insert _ _⟩
  case stays =>
    intro i hi
    rw [size_add]
    by_cases hmem : some i ∈ n.children
    · rcases hfrom i hmem with ⟨hle', -⟩ | ⟨-, hlends⟩
      · omega
      · exact .inr (.inr ⟨g.size, hparent hmem, hle, by omega, by rwa [hsite]⟩)
    · rw [parentOf_add_of_notMem hmem]
      refine (h.stays hi).imp_right (.imp_right ?_)
      rintro ⟨k, hk, hfk, hkg, hlends⟩
      exact ⟨k, hk, hfk, by omega, hlends⟩
  case holds =>
    intro j m hj hm i hi
    rcases node?_add_eq_some.1 hm with ⟨rfl, rfl⟩ | hm
    · rw [hsite]
      refine (hfrom i hi).imp_right fun ⟨_, hlends⟩ => ⟨hlends, g.size, hparent hi, hle⟩
    · refine (h.holds hj hm hi).imp_right fun ⟨hlends, k, hk, hfk⟩ => ⟨hlends, ?_⟩
      by_cases hmem : some i ∈ n.children
      · exact ⟨g.size, hparent hmem, hle⟩
      · exact ⟨k, by rw [parentOf_add_of_notMem hmem, hk], hfk⟩
  case planted =>
    intro i m hi hm j hj hfj
    rcases node?_add_eq_some.1 hm with ⟨rfl, rfl⟩ | hm
    · omega
    · exact h.planted hi hm hj hfj
  case unheld =>
    intro i hi hnone j m hm hmem
    by_cases hmem' : some i ∈ n.children
    · rw [hparent hmem'] at hnone
      cases hnone
    · rw [parentOf_add_of_notMem hmem'] at hnone
      rcases node?_add_eq_some.1 hm with ⟨-, rfl⟩ | hm
      · exact hmem' hmem
      · exact h.unheld hi hnone hm hmem

end Graft

end DebugGuard.Forest
