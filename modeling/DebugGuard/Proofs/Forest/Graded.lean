import DebugGuard.Proofs.Forest.Layout
import DebugGuard.Proofs.Forest.WellFormed

/-!
# Heights in a forest

If every node has a height above the heights of all the nodes that it lists, no child list leads
back to where it started, and every tree in the forest can be read to its end
(`Forest.Graded f height`).  Heights are rational numbers, so there is room right below any node:
whatever is built for a place finds a height there, and no other height has to move.

A parent link need not follow the child lists here.  While an expansion is under way it may lead to
a node that nothing lists yet.

Main statements:

* `Graded.tree_eq`: the trees of a graded forest stay what they are if nodes are added;
* `Graded.exists_add`, `Graded.splice`, `Graded.putFirst` and `Graded.setExpression`: changes that
  put things below what is higher keep a forest graded;
* `Parsed.graded`: the forest of a parsed script is graded.
-/

namespace DebugGuard.Forest

variable {f g : Forest} {height height' : Nat → ℚ} {x y : ℚ} {i : Nat} {r : Ref} {rs : List Ref}
  {n : Node Ref} {pos : Nat}

/-- Every node is higher than the nodes that it lists, and no link leads out of the forest. -/
structure Graded (f : Forest) (height : Nat → ℚ) : Prop where
  child : ∀ ⦃i n⦄, f.node? (some i) = some n → ∀ ⦃c⦄, some c ∈ n.children →
    c < f.size ∧ height c < height i
  parent : ∀ ⦃i p⦄, f.parentOf (some i) = some p → p < f.size

/-- The reference is empty, or there is a node for it whose height is below `x`. -/
def Under (f : Forest) (height : Nat → ℚ) (x : ℚ) (r : Ref) : Prop :=
  ∀ i, r = some i → i < f.size ∧ height i < x

theorem Under.mono (h : f.Under height x r) (hxy : x ≤ y) : f.Under height y r :=
  fun i hi => ⟨(h i hi).1, lt_of_lt_of_le (h i hi).2 hxy⟩

/-- There is a height between some nodes and what is above all of them. -/
theorem exists_between_under (h : ∀ r ∈ rs, f.Under height x r) :
    ∃ y < x, ∀ r ∈ rs, f.Under height y r := by
  induction rs with
  | nil => exact ⟨x - 1, by linarith, nofun⟩
  | cons r rs ih =>
    obtain ⟨y, hy, hrs⟩ := ih fun r hr => h r (List.mem_cons_of_mem _ hr)
    have hr := h r List.mem_cons_self
    cases r with
    | none => exact ⟨y, hy, List.forall_mem_cons.2 ⟨nofun, hrs⟩⟩
    | some i =>
      obtain ⟨z, hiz, hzx⟩ := exists_between (hr i rfl).2
      refine ⟨max y z, max_lt hy hzx, List.forall_mem_cons.2 ⟨?_, fun r hr => ?_⟩⟩
      · rintro j ⟨⟩
        exact ⟨(hr i rfl).1, lt_of_lt_of_le hiz (le_max_right y z)⟩
      · exact (hrs r hr).mono (le_max_left y z)

theorem Graded.under (h : f.Graded height) (hn : f.node? (some i) = some n)
    (hr : r ∈ n.children) : f.Under height (height i) r := by
  rintro c rfl
  exact h.child hn hr

/-! ### Reading trees -/

/-- The nodes below a height. -/
def lower (f : Forest) (height : Nat → ℚ) (x : ℚ) : Finset Nat :=
  (Finset.range f.size).filter fun j => height j < x

theorem card_lower_lt (hi : i < f.size) (hx : height i < x) :
    (f.lower height (height i)).card < (f.lower height x).card := by
  refine Finset.card_lt_card (Finset.ssubset_iff_of_subset ?_ |>.2 ⟨i, ?_, ?_⟩)
  · intro j hj
    rw [lower, Finset.mem_filter] at hj ⊢
    exact ⟨hj.1, hj.2.trans hx⟩
  · simp [lower, hi, hx]
  · simp [lower]

/-- `g` is the forest `f` with further nodes in it. -/
structure Grows (f g : Forest) : Prop where
  size_le : f.size ≤ g.size
  node : ∀ i < f.size, g.node? (some i) = f.node? (some i)
  pos : ∀ i < f.size, g.startOf? (some i) = f.startOf? (some i)

theorem Grows.refl : Grows f f :=
  ⟨Nat.le_refl _, fun _ _ => rfl, fun _ _ => rfl⟩

theorem Grows.trans {k : Forest} (h : Grows f g) (h' : Grows g k) : Grows f k where
  size_le := Nat.le_trans h.size_le h'.size_le
  node i hi := (h'.node i (Nat.lt_of_lt_of_le hi h.size_le)).trans (h.node i hi)
  pos i hi := (h'.pos i (Nat.lt_of_lt_of_le hi h.size_le)).trans (h.pos i hi)

theorem grows_add : Grows f (f.add n pos) where
  size_le := by
    rw [size_add]
    exact Nat.le_succ _
  node i hi := node?_add_of_ne (Nat.ne_of_lt hi)
  pos i hi := startOf?_add_of_ne (Nat.ne_of_lt hi)

theorem Grows.exists_cell (h : Grows f g) (hi : i < f.size) :
    ∃ c d : Cell, f.cells[i]? = some c ∧ g.cells[i]? = some d ∧ d.node = c.node ∧
      d.start = c.start := by
  obtain ⟨c, hc⟩ : ∃ c, f.cells[i]? = some c := ⟨_, Array.getElem?_eq_getElem hi⟩
  obtain ⟨d, hd⟩ : ∃ d, g.cells[i]? = some d :=
    ⟨_, Array.getElem?_eq_getElem (Nat.lt_of_lt_of_le hi h.size_le)⟩
  have hn := h.node i hi
  have hp := h.pos i hi
  simp only [node?, startOf?, cell?, Option.bind_some, hc, hd, Option.map_some,
    Option.some.injEq] at hn hp
  exact ⟨c, d, hc, hd, hn, hp⟩

/-- Read with enough fuel, a node makes the same tree in a forest that has grown. -/
theorem Graded.treeUpTo_eq (h : f.Graded height) (hg : Grows f g) {fuel fuel' : Nat}
    (hr : f.Under height x r) (hfuel : (f.lower height x).card ≤ fuel)
    (hfuel' : (f.lower height x).card ≤ fuel') : g.treeUpTo fuel' r = f.treeUpTo fuel r := by
  induction fuel generalizing r x fuel' with
  | zero =>
    cases r with
    | none => cases fuel' <;> rfl
    | some i =>
      have hlt := card_lower_lt (hr i rfl).1 (hr i rfl).2
      omega
  | succ fuel ih =>
    cases r with
    | none => cases fuel' <;> rfl
    | some i =>
      obtain ⟨hi, hx⟩ := hr i rfl
      have hlt := card_lower_lt hi hx
      obtain ⟨fuel', rfl⟩ : ∃ k, fuel' = k + 1 := ⟨fuel' - 1, by omega⟩
      obtain ⟨c, d, hc, hd, hnode, hpos⟩ := hg.exists_cell hi
      have hn : f.node? (some i) = some c.node := by
        rw [node?, cell?, Option.bind_some, hc, Option.map_some]
      simp only [treeUpTo, hc, hd, hnode, hpos]
      -- what the node lists is lower, so one step less is enough for it
      refine congrArg _ (Node.map_congr fun r hr => ih (h.under hn hr) ?_ ?_)
      · omega
      · omega

/-- The trees of a graded forest stay what they are if nodes are added. -/
theorem Graded.tree_eq (h : f.Graded height) (hg : Grows f g) (hi : i < f.size) :
    g.tree (some i) = f.tree (some i) := by
  have hunder : f.Under height (height i + 1) (some i) := by
    rintro j ⟨⟩
    exact ⟨hi, by linarith⟩
  have hcard : (f.lower height (height i + 1)).card ≤ f.size := by
    have hle : (f.lower height (height i + 1)).card ≤ (Finset.range f.size).card :=
      Finset.card_filter_le _ _
    rwa [Finset.card_range] at hle
  exact h.treeUpTo_eq hg hunder hcard (hcard.trans hg.size_le)

/-! ### Changes -/

/-- `g` is graded by `height'`, and the nodes of `f` have kept their heights. -/
structure Regraded (f : Forest) (height : Nat → ℚ) (g : Forest) (height' : Nat → ℚ) : Prop where
  graded : g.Graded height'
  size_le : f.size ≤ g.size
  same : ∀ i < f.size, height' i = height i

theorem Regraded.refl (h : f.Graded height) : Regraded f height f height :=
  ⟨h, Nat.le_refl _, fun _ _ => rfl⟩

theorem Regraded.trans {k : Forest} {height'' : Nat → ℚ} (h : Regraded f height g height')
    (h' : Regraded g height' k height'') : Regraded f height k height'' where
  graded := h'.graded
  size_le := Nat.le_trans h.size_le h'.size_le
  same i hi := (h'.same i (Nat.lt_of_lt_of_le hi h.size_le)).trans (h.same i hi)

theorem Regraded.under (h : Regraded f height g height') (hr : f.Under height x r) :
    g.Under height' x r := by
  intro i hi
  obtain ⟨hlt, hx⟩ := hr i hi
  exact ⟨Nat.lt_of_lt_of_le hlt h.size_le, by rwa [h.same i hlt]⟩

/-- A node on top of what is below a place finds a height below that place, too. -/
theorem Graded.exists_add (pos : Nat) (h : f.Graded height)
    (hn : ∀ r ∈ n.children, f.Under height x r) :
    ∃ height', Regraded f height (f.add n pos) height' ∧
      (f.add n pos).Under height' x (some f.size) := by
  obtain ⟨y, hyx, hy⟩ := exists_between_under hn
  have hold : ∀ i < f.size, Function.update height f.size y i = height i := fun i hi =>
    Function.update_of_ne (Nat.ne_of_lt hi) ..
  have hnew : Function.update height f.size y f.size = y := Function.update_self ..
  refine ⟨Function.update height f.size y, ⟨⟨fun i m hm c hc => ?_, fun i p hp => ?_⟩, ?_, hold⟩, ?_⟩
  · rw [size_add]
    rcases node?_add_eq_some.1 hm with ⟨rfl, rfl⟩ | hm
    · obtain ⟨hlt, hcy⟩ := hy _ hc c rfl
      exact ⟨Nat.lt_succ_of_lt hlt, by rwa [hold c hlt, hnew]⟩
    · obtain ⟨hlt, hci⟩ := h.child hm hc
      exact ⟨Nat.lt_succ_of_lt hlt, by rwa [hold c hlt, hold i (lt_size_of_node? hm)]⟩
  · rw [size_add]
    rcases parentOf_add_eq_some hp with ⟨rfl, -⟩ | hp
    · exact Nat.lt_succ_self _
    · exact Nat.lt_succ_of_lt (h.parent hp)
  · rw [size_add]
    exact Nat.le_succ _
  · rintro _ ⟨⟩
    rw [size_add, hnew]
    exact ⟨Nat.lt_succ_self _, hyx⟩

/-- An edit keeps a forest graded if what it gives a node to list is below that node. -/
theorem Graded.alters {p : Nat} {n' : Node Ref} (h : f.Graded height) (halters : f.Alters p n n' g)
    (hchild : ∀ r ∈ n'.children, r ∈ n.children ∨ f.Under height (height p) r)
    (hparent : ∀ ⦃i q⦄, g.parentOf (some i) = some q → f.parentOf (some i) = some q ∨ q = p) :
    Regraded f height g height where
  graded := by
    refine ⟨fun i m hm c hc => ?_, fun i q hq => ?_⟩
    · rw [halters.size]
      by_cases hi : i = p
      · subst hi
        obtain rfl := Option.some.inj (halters.after.symm.trans hm)
        rcases hchild _ hc with hc | hunder
        · exact h.child halters.before hc
        · exact hunder c rfl
      · rw [halters.others hi] at hm
        exact h.child hm hc
    · rw [halters.size]
      exact (hparent hq).elim (fun hq => h.parent hq) fun hq => hq ▸ halters.lt_size
  size_le := Nat.le_of_eq halters.size.symm
  same _ _ := rfl

theorem Graded.splice {target : Ref} {statements : List Ref} (h : f.Graded height)
    (hs : ∀ p, f.parentOf target = some p → ∀ r ∈ statements, f.Under height (height p) r)
    (hok : f.splice target statements = .ok g) : Regraded f height g height := by
  obtain ⟨t, p, n, before, after, rfl, hp, hlist, halters, hparent⟩ := splice_alters hok
  obtain ⟨hchildren, hwith⟩ := children_of_statements? hlist
  refine h.alters halters (fun r hr => ?_) fun i q hq => ?_
  · rw [hwith, List.mem_append, List.mem_append] at hr
    rw [hchildren, List.mem_append, List.mem_cons]
    rcases hr with (hr | hr) | hr
    · exact .inl (.inl hr)
    · exact .inr (hs p hp r hr)
    · exact .inl (.inr (.inr hr))
  · rw [hparent] at hq
    split at hq
    next => cases hq
    next =>
      split at hq
      next => exact .inr (Option.some.inj hq).symm
      next => exact .inl hq

theorem Graded.putFirst {list statement : Ref} (h : f.Graded height)
    (hs : ∀ p, list = some p → f.Under height (height p) statement)
    (hok : f.putFirst list statement = .ok g) : Regraded f height g height := by
  obtain ⟨p, n, body, rfl, hlist, halters, hparent⟩ := putFirst_alters hok
  obtain ⟨hchildren, hwith⟩ := children_of_statements? hlist
  refine h.alters halters (fun r hr => ?_) fun i q hq => ?_
  · rw [hwith] at hr
    rw [hchildren]
    rcases List.mem_cons.1 hr with rfl | hr
    · exact .inr (hs p rfl)
    · exact .inl hr
  · rw [hparent] at hq
    split at hq
    next => exact .inr (Option.some.inj hq).symm
    next => exact .inl hq

theorem Graded.setExpression {s e : Nat} (h : f.Graded height)
    (he : f.Under height (height s) (some e))
    (hok : f.setExpression (some s) (some e) = .ok g) : Regraded f height g height := by
  obtain ⟨old, hold, rfl⟩ := setExpression_eq_ok.1 hok
  refine h.alters (alters_exchanged hold (some e)) (fun r hr => ?_) fun i q hq => ?_
  · obtain rfl := List.mem_singleton.1 hr
    exact .inr he
  · -- the statement is the only parent that is given to a node
    rw [parentOf_exchanged] at hq
    split at hq
    next => exact .inr (Option.some.inj hq).symm
    next =>
      split at hq
      next => cases hq
      next => exact .inl hq

/-- In a parsed script the children stand before their parent. -/
theorem Parsed.graded {root : Nat} (hp : f.Parsed root) : f.Graded fun i => (i : ℚ) where
  child i n hn c hc := by
    obtain ⟨hlt, -⟩ := hp.of_mem_children hn hc
    exact ⟨Nat.lt_trans hlt (lt_size_of_node? hn), Nat.cast_lt.2 hlt⟩
  parent i p h := (hp.lt_of_parentOf h).2

end DebugGuard.Forest
