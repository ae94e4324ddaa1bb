import DebugGuard.Proofs.Expand.Cleanup
import DebugGuard.Proofs.Expand.Lent

/-!
# Where the nodes of an expanded script stand

New nodes are put into one list each (`Forest.Ledger`).  A node of the script is listed by the node
that it hung below, or by a new one that it has been lent to.  It is listed by both, or by two new
ones, if it is the test of a deprecation that is rendered as a call of the helper itself, and
otherwise not: the expanded script is a tree but for such tests (`placed_iff_not_shared`).
-/

namespace DebugGuard

open Forest

namespace Forest

/-- Of the nodes that are reached from the script, `j` alone lists `i`, once, and is its parent. -/
structure Placed (g : Forest) (root i j : Nat) : Prop where
  reached : g.Reaches root j
  parent : g.parentOf (some i) = some j
  once : (g.childrenOf (some j)).count i = 1
  alone : ∀ k, g.Reaches root k → i ∈ g.childrenOf (some k) → k = j

end Forest

variable {f g : Forest} {settings : Settings} {source flag : String} {root i j k s : Nat}
  {c : Changes} {site : Nat → Nat} {gone : Option Nat} {n : Node Ref}

/-- Below the place of a new node, the way to it leads through new nodes of that place. -/
theorem Forest.Graft.reaches_site {keep : Prop} (h : f.Graft keep c site ∅ g) (hp : f.Parsed root)
    (hreach : g.Reaches root j) (hj : f.size ≤ j) : g.Reaches root (site j) := by
  induction hreach with
  | refl =>
    have := hp.size_eq
    omega
  | @tail k j hk hmem ih =>
    obtain ⟨n, hn, hmem⟩ := mem_childrenOf.1 hmem
    rcases Nat.lt_or_ge k f.size with hkf | hkf
    · rw [h.planted hkf hn hmem hj]
      exact hk
    · rcases h.holds hkf hn hmem with ⟨-, hs⟩ | ⟨hlends, -⟩
      · exact hs ▸ ih hkf
      · exact absurd (hlends.lt_size hp) (Nat.not_lt_of_le hj)

/-- What is put elsewhere is new, so a list has no more of an old node than before. -/
theorem Changes.Above.count_list_le {m : Nat} (h : c.Above m) (hi : i < m) (body : List Ref) :
    (c.list body).count (some i) ≤ body.count (some i) := by
  induction body with
  | nil => exact Nat.le_refl _
  | cons r body ih =>
    have hplace : (c.place r).count (some i) ≤ [r].count (some i) := by
      cases r with
      | none => exact Nat.le_refl _
      | some k =>
        cases hk : c.replaced k with
        | none => simp [place, hk]
        | some ds =>
          have hds : some i ∉ c.place (some k) := by
            intro hmem
            have hid : i ∈ ds := by simpa [place, hk] using hmem
            exact Nat.not_le_of_lt hi (h.replaced hk i hid)
          rw [List.count_eq_zero_of_not_mem hds]
          exact Nat.zero_le _
    rw [list_cons, List.count_append, List.count_cons, Nat.add_comm]
    rw [List.count_singleton] at hplace
    exact Nat.add_le_add ih hplace

/-- A node lists another one of the script no more often than before. -/
theorem Changes.Above.count_le {m : Nat} (h : c.Above m) (hi : i < m) :
    (c.node j n).children.count (some i) ≤ n.children.count (some i) := by
  have hfront : some i ∉ c.front.map some := by
    intro hmem
    exact Nat.not_le_of_lt hi (h.front i (by simpa using hmem))
  cases n
  case program body =>
    rw [node, Node.children, List.count_append, List.count_eq_zero_of_not_mem hfront, Nat.zero_add]
    exact h.count_list_le hi body
  case block body => exact h.count_list_le hi body
  case expressionStatement expression =>
    rw [node]
    cases he : c.guarded j with
    | none => exact Nat.le_refl _
    | some e =>
      have hne : e ≠ i := by
        rintro rfl
        exact Nat.not_le_of_lt hi (h.guarded he)
      simp [Node.children, hne]
  all_goals exact Nat.le_refl _

namespace Expansion

/-- An expression that has taken the place of a call guards the call. -/
theorem guardsCall (h : Expansion f settings root gone flag c site g) {e : Nat}
    (he : c.guarded s = some e) : ∃ id, f.GuardsCall g settings flag s id e := by
  have hqueued : s ∈ f.queued settings f.size := by
    by_contra hnot
    cases (h.unguarded s hnot).symm.trans he
  obtain ⟨id, e', he', hguards⟩ := h.guarded s hqueued
  obtain rfl := Option.some.inj (he.symm.trans he')
  exact ⟨id, hguards⟩

/-- A new node that belongs to a statement with an expression is part of the guarded expression
there. -/
theorem exists_guard_of_site (h : Expansion f settings root gone flag c site g)
    (hj : f.size ≤ j) (hlt : j < g.size) {call : Nat}
    (hs : f.node? (some (site j)) = some (.expressionStatement (some call)))
    (hcall : call < f.size) :
    ∃ id e, c.guarded (site j) = some e ∧ f.GuardsCall g settings flag (site j) id e ∧
      ∀ i k, f.Bears g (some j) i k → f.Bears g (some e) i k := by
  -- Parents of new nodes are younger, so the induction goes down from the end of the forest.
  induction hd : g.size - j using Nat.strong_induction_on generalizing j with
  | _ d ih =>
    rcases h.graft.up hj hlt with ⟨-, hl⟩ | ⟨k, hk, hjk, hkg, hsite⟩ | ⟨hparent, hsf⟩
    · cases hl
    · obtain ⟨n, hn, hmem⟩ := mem_childrenOf.1 (h.ledger.linked hk)
      have hkf : f.size ≤ k := by omega
      rw [← hsite] at hs ⊢
      obtain ⟨id, e, he, hguards, hbears⟩ := ih (g.size - k) (by omega) hkf hkg hs rfl
      exact ⟨id, e, he, hguards, fun i l hil => hbears i l (.under ⟨hkf, hn⟩ hmem hil)⟩
    · obtain ⟨n, hn, hmem⟩ := mem_childrenOf.1 (h.ledger.linked hparent)
      rw [h.graft.old hsf, hs, Option.map_some, Changes.node] at hn
      obtain rfl := Option.some.inj hn
      cases hguarded : c.guarded (site j) with
      | none =>
        rw [hguarded] at hmem
        obtain rfl : j = call := by simpa [Node.children] using hmem
        omega
      | some e =>
        rw [hguarded] at hmem
        obtain rfl : j = e := by simpa [Node.children] using hmem
        obtain ⟨id, hguards⟩ := h.guardsCall hguarded
        exact ⟨id, j, rfl, hguards, fun i k hik => hik⟩

/-- What a new node holds of the script has been lent to the guarded expression that it is part
of. -/
theorem exists_guard_of_holds (h : Expansion f settings root gone flag c site g)
    (hj : f.size ≤ j) (hmem : i ∈ g.childrenOf (some j)) (hi : i < f.size) :
    f.Lends settings.KeepsCalls (site j) i ∧ ∃ id e, c.guarded (site j) = some e ∧
      f.GuardsCall g settings flag (site j) id e ∧ f.Bears g (some e) i j := by
  obtain ⟨n, hn, hmem⟩ := mem_childrenOf.1 hmem
  obtain ⟨hlends, -⟩ := (h.graft.holds hj hn hmem).resolve_left fun hnew =>
    Nat.not_lt_of_le hnew.1 hi
  obtain ⟨call, callee, args, hs, hc, -⟩ := id hlends
  obtain ⟨id, e, he, hguards, hbears⟩ :=
    h.exists_guard_of_site hj (lt_size_of_node? hn) hs (lt_size_of_node? hc)
  exact ⟨hlends, id, e, he, hguards, hbears i j (.here ⟨hj, hn⟩ hmem hi)⟩

/-- A node of the script that another one lists hung below it before, and is listed there once. -/
theorem parentOf_of_listed (h : Expansion f settings root gone flag c site g) (hp : f.Parsed root)
    (hi : i < f.size) (hj : j < f.size) (hij : i ∈ g.childrenOf (some j)) :
    f.parentOf (some i) = some j ∧ (g.childrenOf (some j)).count i = 1 := by
  obtain ⟨m, hm, hmem⟩ := mem_childrenOf.1 hij
  have hcount := count_childrenOf (i := i) hm
  rw [h.graft.old hj, Option.map_eq_some_iff] at hm
  obtain ⟨n, hn, rfl⟩ := hm
  have hnodup := List.nodup_iff_count_le_one.1 (hp.nodup hn) i
  rw [count_filterMap_id] at hnodup
  have hle := h.graft.above.count_le (c := c) (j := j) (n := n) hi
  have hpos := List.count_pos_iff.2 hmem
  exact ⟨(hp.of_mem_children hn (h.graft.above.mem_children hi hmem)).2.1, by omega⟩

/-- If two new nodes list the same node of the script, it is a shared test. -/
theorem eq_or_shared (h : Expansion f settings root gone flag c site g) (hp : f.Parsed root)
    (hi : i < f.size) (hj : f.size ≤ j) (hij : i ∈ g.childrenOf (some j)) (hk : f.size ≤ k)
    (hik : i ∈ g.childrenOf (some k)) : j = k ∨ f.Shared settings i := by
  obtain ⟨hlends, id, e, he, hguards, hbears⟩ := h.exists_guard_of_holds hj hij hi
  obtain ⟨hlends', id', e', he', -, hbears'⟩ := h.exists_guard_of_holds hk hik hi
  rw [← hlends.unique hlends' hp, he] at he'
  obtain rfl := Option.some.inj he'
  exact hguards.eq_or_shared hp hbears hbears'

/-- If a node of the script is listed where it was and by a new node too, it is a shared test. -/
theorem shared_of_both (h : Expansion f settings root gone flag c site g) (hp : f.Parsed root)
    (hi : i < f.size) (hj : j < f.size) (hreach : g.Reaches root j)
    (hij : i ∈ g.childrenOf (some j)) (hk : f.size ≤ k) (hik : i ∈ g.childrenOf (some k)) :
    f.Shared settings i := by
  have hparent := (h.parentOf_of_listed hp hi hj hij).1
  obtain ⟨hlends, id, e, he, hguards, hbears⟩ := h.exists_guard_of_holds hk hik hi
  obtain ⟨call, callee, args, hs, hc, hcs, ⟨-, hic⟩ | ⟨-, rfl⟩⟩ := hlends.call hp
  · -- an argument: the call that holds it is reached, so it is kept
    obtain rfl : call = j := Option.some.inj (hic.symm.trans hparent)
    have hkeeps : settings.KeepsCalls := by
      by_contra hkeeps
      exact h.call_unreached hp hkeeps hs hc he hreach
    refine hguards.shared_of_kept hp hbears hkeeps ?_
    rw [hic]
    rintro ⟨⟩
    cases hs.symm.trans hc
  · -- the call itself: its statement holds the guarded expression instead
    obtain rfl : site k = j := Option.some.inj (hcs.symm.trans hparent)
    rw [childrenOf_eq (h.graft.node?_guarded hs he)] at hij
    obtain rfl : i = e := by simpa [Node.children] using hij
    exact absurd hi (Nat.not_lt_of_le (h.graft.above.guarded he))

/-! ### Where a node is listed -/

/-- Of the nodes that are new or reached, one alone lists a node of the script that is no shared
test. -/
theorem eq_of_listed (h : Expansion f settings root gone flag c site g) (hp : f.Parsed root)
    (hshared : ¬f.Shared settings i) (hi : i < f.size)
    (hj : f.size ≤ j ∨ g.Reaches root j) (hij : i ∈ g.childrenOf (some j))
    (hk : f.size ≤ k ∨ g.Reaches root k) (hik : i ∈ g.childrenOf (some k)) : j = k := by
  rcases Nat.lt_or_ge j f.size with hjf | hjf <;> rcases Nat.lt_or_ge k f.size with hkf | hkf
  · have hparent := (h.parentOf_of_listed hp hi hjf hij).1
    exact Option.some.inj (hparent.symm.trans (h.parentOf_of_listed hp hi hkf hik).1)
  · have hreach := hj.resolve_left (Nat.not_le_of_lt hjf)
    exact absurd (h.shared_of_both hp hi hjf hreach hij hkf hik) hshared
  · have hreach := hk.resolve_left (Nat.not_le_of_lt hkf)
    exact absurd (h.shared_of_both hp hi hkf hreach hik hjf hij) hshared
  · exact (h.eq_or_shared hp hi hjf hij hkf hik).resolve_right hshared

/-- A node of the script that is reached and is no shared test is placed. -/
theorem placed_of_old (h : Expansion f settings root gone flag c site g) (hp : f.Parsed root)
    (hshared : ¬f.Shared settings i) (hi : i < f.size) (hj : g.Reaches root j)
    (hij : i ∈ g.childrenOf (some j)) : g.Placed root i j := by
  -- The node that lists it is its parent: either is new, or nothing has changed.
  have hparent : g.parentOf (some i) = some j := by
    have hnew {k : Nat} (hk : g.parentOf (some i) = some k) (hkf : f.size ≤ k) : k = j :=
      h.eq_of_listed hp hshared hi (.inl hkf) (h.ledger.linked hk) (.inr hj) hij
    rcases Nat.lt_or_ge j f.size with hjf | hjf
    · have hfj := (h.parentOf_of_listed hp hi hjf hij).1
      rcases h.graft.stays hi with hs | hs | ⟨k, hk, hkf, -, -⟩
      · rw [hs, hfj]
      · obtain ⟨n, hn, hmem⟩ := mem_childrenOf.1 hij
        exact absurd hmem (h.graft.unheld hi hs hn)
      · rw [hk, hnew hk hkf]
    · obtain ⟨n, hn, hmem⟩ := mem_childrenOf.1 hij
      obtain ⟨-, k, hk, hkf⟩ := (h.graft.holds hjf hn hmem).resolve_left fun hle =>
        Nat.not_le_of_lt hi hle.1
      rw [hk, hnew hk hkf]
  refine ⟨hj, hparent, ?_, fun k hk hik =>
    h.eq_of_listed hp hshared hi (.inr hk) hik (.inr hj) hij⟩
  rcases Nat.lt_or_ge j f.size with hjf | hjf
  · exact (h.parentOf_of_listed hp hi hjf hij).2
  · obtain ⟨-, id, e, -, hguards, hbears⟩ := h.exists_guard_of_holds hjf hij hi
    obtain ⟨_, _, _, _, _, _, _, -, -, -, hborne⟩ := hguards.bears hp
    exact (hborne i j hbears).1

/-- A new node that is reached is placed. -/
theorem placed_of_new (h : Expansion f settings root gone flag c site g) (hi : f.size ≤ i)
    (hj : g.Reaches root j) (hij : i ∈ g.childrenOf (some j)) : g.Placed root i j := by
  obtain ⟨p, hparent⟩ : ∃ p, g.parentOf (some i) = some p := by
    rcases h.graft.up hi (h.ledger.lt_size hi hij) with ⟨-, hl⟩ | ⟨k, hk, -⟩ | ⟨hs, -⟩
    · cases hl
    · exact ⟨k, hk⟩
    · exact ⟨_, hs⟩
  obtain ⟨honce, halone⟩ := h.ledger.listed_once hi hparent
  obtain rfl := halone j hij
  exact ⟨hj, hparent, honce, fun k _ hik => halone k hik⟩

/-! ### Shared tests -/

/-- A call that stands as a statement is reached by way of the statement. -/
theorem reaches_of_call (h : Expansion f settings root gone flag c site g) (hp : f.Parsed root)
    {e : Ref} (hs : f.node? (some s) = some (.expressionStatement e))
    (his : f.parentOf (some i) = some s) (hreach : g.Reaches root i) : g.Reaches root s := by
  have hne : i ≠ root := by
    rintro rfl
    cases hp.top.symm.trans his
  obtain ⟨j, -, hj, -, -, hparent | ⟨hjf, hlends⟩⟩ :=
    h.graft.exists_holder hp hreach (lt_size_of_parentOf his) hne
  · exact Option.some.inj (his.symm.trans hparent) ▸ hj
  · exact hlends.site_of_call hp hs his ▸ h.graft.reaches_site hp hj hjf

/-- So is an argument of the call. -/
theorem reaches_of_argument (h : Expansion f settings root gone flag c site g) (hp : f.Parsed root)
    {call : Nat} {callee : Ref} {args : List Ref}
    (hs : f.node? (some s) = some (.expressionStatement (some call)))
    (hc : f.node? (some call) = some (.call callee args)) (hi : some i ∈ args)
    (hreach : g.Reaches root i) : g.Reaches root s := by
  have hic := (hp.of_mem_children hc (i := i) (by simp [Node.children, hi])).2.1
  have hcs := (hp.of_mem_children hs (i := call) (by simp [Node.children])).2.1
  have hne : i ≠ root := by
    rintro rfl
    cases hp.top.symm.trans hic
  obtain ⟨j, -, hj, -, -, hparent | ⟨hjf, hlends⟩⟩ :=
    h.graft.exists_holder hp hreach (lt_size_of_parentOf hic) hne
  · obtain rfl : call = j := Option.some.inj (hic.symm.trans hparent)
    exact h.reaches_of_call hp hs hcs hj
  · have hlends' : f.Lends settings.KeepsCalls s i := ⟨call, callee, args, hs, hc, .inl hi⟩
    exact hlends.unique hlends' hp ▸ h.graft.reaches_site hp hj hjf

/-- A shared test is listed by two nodes that are reached. -/
theorem not_placed_of_shared (h : Expansion f settings root gone flag c site g) (hp : f.Parsed root)
    (hshared : f.Shared settings i) : ¬g.Placed root i j := by
  obtain ⟨hext, s, call, callee, args, hhelper, hs, hc, htest⟩ := hshared
  intro hplaced
  have hqueued : s ∈ f.queued settings f.size := by
    refine mem_queued.2 ⟨lt_size_of_node? hs, ?_⟩
    by_contra hnone
    rw [helper?, Option.not_isSome_iff_eq_none.1 hnone] at hhelper
    cases hhelper
  obtain ⟨id, e, he, hguards⟩ := h.guarded s hqueued
  have hgs := h.graft.node?_guarded hs he
  have hgc : g.node? (some call) = some (.call callee args) := by
    rw [h.graft.old (lt_size_of_node? hc), hc]
    rfl
  obtain ⟨k, l, hkl, hk, hl, hik, hil⟩ := hguards.shares hext hhelper hs hc htest hgc
  have hreach : g.Reaches root i := hplaced.reached.tail (h.ledger.linked hplaced.parent)
  have he' : g.Reaches root e :=
    (h.reaches_of_argument hp hs hc (List.mem_of_getElem? htest) hreach).tail
      (mem_childrenOf.2 ⟨_, hgs, List.mem_singleton_self _⟩)
  exact hkl ((hplaced.alone k (he'.trans hk) hik).trans (hplaced.alone l (he'.trans hl) hil).symm)

end Expansion

/-- The expanded script is a tree, but for the tests of deprecations that are calls of the helper
itself: every node that can be reached, other than the script, is listed once in all, and by its
parent, exactly if it is no such test. -/
theorem placed_iff_not_shared (h : Expands settings source root f g) :
    g.parentOf (some root) = none ∧
      ∀ i, i ≠ root → g.Reaches root i → ((∃ j, g.Placed root i j) ↔ ¬f.Shared settings i) := by
  have hp := h.parsed
  obtain ⟨-, flag, c, site, hexp⟩ := exists_expansion h
  refine ⟨hexp.graft.parentOf_root hp, fun i hne hreach => ⟨?_, fun hshared => ?_⟩⟩
  · rintro ⟨j, hplaced⟩ hshared
    exact hexp.not_placed_of_shared hp hshared hplaced
  · obtain rfl | ⟨j, hj, hij⟩ := Relation.ReflTransGen.cases_tail hreach
    · exact absurd rfl hne
    · rcases Nat.lt_or_ge i f.size with hi | hi
      · exact ⟨j, hexp.placed_of_old hp hshared hi hj hij⟩
      · exact ⟨j, hexp.placed_of_new hi hj hij⟩

/-- The test of a deprecation has two places if the helper stays an import. -/
theorem deprecation_test_unplaced : ∃ root f g,
    Expands { Settings.standard with helpers := ⟨none, true, none⟩ }
        ("import { deprecate } from \"@ember/debug-tools\"; " ++
          "deprecate(\"m\", x, \x7b id: \"a\", until: \"1\" \x7d);") root f g ∧
      g.Reaches root 4 ∧ g.node? (some 4) = some (.identifier "x") ∧ ¬∃ j, g.Placed root 4 j := by
  have hrun : expandsTo { Settings.standard with helpers := ⟨none, true, none⟩ }
      ("import { deprecate } from \"@ember/debug-tools\"; " ++
        "deprecate(\"m\", x, \x7b id: \"a\", until: \"1\" \x7d);")
      (fun root f g => decide (root = 12 ∧
        f.helper? { Settings.standard with helpers := ⟨none, true, none⟩ } 11 = some .deprecate ∧
        f.node? (some 11) = some (.expressionStatement (some 10)) ∧
        f.node? (some 10) = some (.call (some 2) [some 3, some 4, some 9]) ∧
        11 ∈ g.childrenOf (some 12) ∧ 21 ∈ g.childrenOf (some 11) ∧ 20 ∈ g.childrenOf (some 21) ∧
        10 ∈ g.childrenOf (some 20) ∧ 4 ∈ g.childrenOf (some 10) ∧
        g.node? (some 4) = some (.identifier "x"))) = true := by
    decide +kernel
  obtain ⟨root, f, g, h, hf⟩ := exists_of_expandsTo hrun
  obtain ⟨rfl, hhelper, hs, hc, h₁₁, h₂₁, h₂₀, h₁₀, h₄, hx⟩ := of_decide_eq_true hf
  have hreach : g.Reaches 12 4 :=
    ((((Reaches.refl.tail h₁₁).tail h₂₁).tail h₂₀).tail h₁₀).tail h₄
  obtain ⟨-, hplaced⟩ := placed_iff_not_shared h
  refine ⟨12, f, g, h, hreach, hx, fun hj => ?_⟩
  exact (hplaced 4 (by decide) hreach).1 hj ⟨rfl, 11, 10, some 2, _, hhelper, hs, hc, rfl⟩

end DebugGuard
