import DebugGuard.Proofs.Forest.Edit
import DebugGuard.Proofs.Forest.Graft

/-!
# Hanging new nodes into a script

An edit lets new nodes stand in a node of the script, and may leave one without a parent that hung
there.  `Forest.Planting f g c c' site place n put gone g'` says so of an edit that makes `g'` of the
forest `g` under work.

Main statements:

* `Graft.plant`: what is planted in a graft makes a graft;
* `Graft.splice`, `Graft.putFirst` and `Graft.setExpression`: each of the edits plants.
-/

namespace DebugGuard.Forest

/-- The edit that makes `g'` of `g` lets the new nodes `put` stand in the node `place` of the script,
which is `n` there, and the changes are `c'` then instead of `c`.  A node `gone` that hung in that
place may be left without a parent. -/
structure Planting (f g : Forest) (c c' : Changes) (site : Nat → Nat) (place : Nat) (n : Node Ref)
    (put : List Nat) (gone : Option Nat) (g' : Forest) : Prop where
  node : f.node? (some place) = some n
  alters : g.Alters place (c.node place n) (c'.node place n) g'
  above : c'.Above f.size
  others : ∀ ⦃k m⦄, f.node? (some k) = some m → k ≠ place → c'.node k m = c.node k m
  put_new : ∀ d ∈ put, f.size ≤ d ∧ d < g.size ∧ site d = place
  gone_old : ∀ i, gone = some i →
    f.parentOf (some i) = some place ∧ g.parentOf (some i) = some place
  parent : ∀ j, g'.parentOf (some j) =
    if j ∈ put then some place else if gone = some j then none else g.parentOf (some j)
  child : ∀ r ∈ (c'.node place n).children,
    (r ∈ (c.node place n).children ∧ ∀ i, gone = some i → r ≠ some i) ∨
    ∃ d ∈ put, r = some d ∧ ∃ m, g.node? (some d) = some m ∧ n.takes m = true

variable {f g g' : Forest} {keep : Prop} {c c' : Changes} {site : Nat → Nat} {loose : Set Nat}
  {root i j p s place : Nat} {n m : Node Ref} {put : List Nat} {gone : Option Nat}

namespace Planting

variable (h : f.Planting g c c' site place n put gone g')
include h

theorem place_lt : place < f.size :=
  lt_size_of_node? h.node

theorem notMem_put (hi : i < f.size) : i ∉ put := fun hm =>
  Nat.not_lt_of_le (h.put_new i hm).1 hi

theorem gone_ne (hj : f.size ≤ j) : gone ≠ some j := fun hm =>
  Nat.not_lt_of_le hj (lt_size_of_parentOf (h.gone_old j hm).1)

/-- Nothing becomes of new nodes. -/
theorem new (hj : f.size ≤ j) : g'.node? (some j) = g.node? (some j) := by
  have := h.place_lt
  exact h.alters.others (by omega)

theorem added (hm : f.Added g j m) : f.Added g' j m :=
  ⟨hm.1, by rw [h.new hm.1, hm.2]⟩

/-- The nodes of the script are as the new changes say. -/
theorem old (hg : Graft f keep c site loose g) (hi : i < f.size) :
    g'.node? (some i) = (f.node? (some i)).map (c'.node i) := by
  by_cases hip : i = place
  · subst hip
    rw [h.alters.after, h.node, Option.map_some]
  · rw [h.alters.others hip, hg.old hi]
    exact Option.map_congr fun m hm => (h.others hm hip).symm

theorem parent_old (hi : i < f.size) :
    g'.parentOf (some i) = if gone = some i then none else g.parentOf (some i) := by
  rw [h.parent, if_neg (h.notMem_put hi)]

theorem parent_eq (hi : i < f.size) (hne : gone ≠ some i) :
    g'.parentOf (some i) = g.parentOf (some i) := by
  rw [h.parent_old hi, if_neg hne]

theorem exists_node (hg : Graft f keep c site loose g) (hi : i < f.size)
    (hm : g'.node? (some i) = some m) :
    ∃ n, f.node? (some i) = some n ∧ g.node? (some i) = some (c.node i n) ∧ m = c'.node i n := by
  rw [h.old hg hi, Option.map_eq_some_iff] at hm
  obtain ⟨n, hn, rfl⟩ := hm
  exact ⟨n, hn, by rw [hg.old hi, hn, Option.map_some], rfl⟩

/-- A node of the script lists nothing but what it listed, without the node that is gone, and what is
put into it. -/
theorem mem_children (hg : Graft f keep c site loose g) (hp : f.Parsed root)
    (hm : f.node? (some i) = some m) {r : Ref} (hr : r ∈ (c'.node i m).children) :
    (r ∈ (c.node i m).children ∧ ∀ k, gone = some k → r ≠ some k) ∨
      i = place ∧ ∃ d ∈ put, r = some d ∧ ∃ n, g.node? (some d) = some n ∧ m.takes n = true := by
  by_cases hip : i = place
  · subst hip
    obtain rfl := Option.some.inj (h.node.symm.trans hm)
    exact (h.child r hr).imp_right fun hd => ⟨rfl, hd⟩
  · rw [h.others hm hip] at hr
    refine .inl ⟨hr, ?_⟩
    rintro k hk rfl
    -- What is gone stood in its place, and nowhere else in the script.
    obtain ⟨hkp, -⟩ := h.gone_old k hk
    have hki := (hp.of_mem_children hm (hg.above.mem_children (lt_size_of_parentOf hkp) hr)).2.1
    exact hip (Option.some.inj (hki.symm.trans hkp))

/-- Where a node may stand, it may stand after the edit. -/
theorem exists_takes (hg : Graft f keep c site loose g) {r : Ref} (hr : g.node? r = some m)
    {k : Node Ref} (ht : k.takes m = true) : ∃ m', g'.node? r = some m' ∧ k.takes m' = true := by
  cases r with
  | none => cases hr
  | some i =>
    rcases Nat.lt_or_ge i f.size with hi | hi
    · rw [hg.old hi, Option.map_eq_some_iff] at hr
      obtain ⟨m₀, hm₀, rfl⟩ := hr
      rw [Changes.takes_node_right] at ht
      exact ⟨_, by rw [h.old hg hi, hm₀, Option.map_some], by rwa [Changes.takes_node_right]⟩
    · exact ⟨m, by rw [h.new hi, hr], ht⟩

/-- What is gone is held by no new node. -/
theorem gone_unheld (hg : Graft f keep c site loose g) (hi : gone = some i) (hj : f.size ≤ j)
    (hm : g.node? (some j) = some m) : some i ∉ m.children := by
  intro hmem
  obtain ⟨hif, hig⟩ := h.gone_old i hi
  have hlt := lt_size_of_parentOf hif
  have hplace := h.place_lt
  rcases hg.holds hj hm hmem with ⟨hge, -⟩ | ⟨-, k, hk, hge⟩
  · omega
  · rw [hig, Option.some.injEq] at hk
    omega

theorem kinded (hg : Graft f keep c site loose g) (hp : f.Parsed root) : g'.Kinded := by
  intro j m hm r hr
  rcases Nat.lt_or_ge j f.size with hj | hj
  · obtain ⟨n₀, hn₀, hgn, rfl⟩ := h.exists_node hg hj hm
    simp only [Changes.mayLack_node, Changes.takes_node_left]
    rcases h.mem_children hg hp hn₀ hr with ⟨hr, -⟩ | ⟨-, d, -, rfl, k, hk, ht⟩
    · rcases hg.kinded hgn r hr with hnone | ⟨k, hk, ht⟩
      · exact .inl (by simpa using hnone)
      · exact .inr (h.exists_takes hg hk (by simpa using ht))
    · exact .inr (h.exists_takes hg hk ht)
  · rw [h.new hj] at hm
    exact (hg.kinded hm r hr).imp_right fun ⟨k, hk, ht⟩ => h.exists_takes hg hk ht

/-- A node of the script that has no parent after the edit is held by none. -/
theorem unheld (hg : Graft f keep c site loose g) (hp : f.Parsed root) (hi : i < f.size)
    (hnone : g'.parentOf (some i) = none) (hm : g'.node? (some j) = some m) :
    some i ∉ m.children := by
  intro hmem
  rw [h.parent_old hi] at hnone
  rcases Nat.lt_or_ge j f.size with hj | hj
  · obtain ⟨n₀, hn₀, hgn, rfl⟩ := h.exists_node hg hj hm
    rcases h.mem_children hg hp hn₀ hmem with ⟨hmem, hne⟩ | ⟨-, d, hd, hid, -⟩
    · split at hnone
      next hgone => exact hne i hgone rfl
      next => exact hg.unheld hi hnone hgn hmem
    · cases hid
      exact h.notMem_put hi hd
  · rw [h.new hj] at hm
    split at hnone
    next hgone => exact h.gone_unheld hg hgone hj hm hmem
    next => exact hg.unheld hi hnone hm hmem

end Planting

namespace Graft

/-- What is planted in a graft is a part of it, and does not hang nowhere any more. -/
theorem plant (h : Graft f keep c site loose g) (hp : f.Parsed root)
    (hplant : f.Planting g c c' site place n put gone g') :
    Graft f keep c' site (loose \ {d | d ∈ put}) g' where
  size_le := hplant.alters.size ▸ h.size_le
  above := hplant.above
  old i hi := hplant.old h hi
  pos i hi := (hplant.alters.pos _).trans (h.pos hi)
  kinded := hplant.kinded h hp
  plain j m hj hm := h.plain hj (hplant.new hj ▸ hm)
  up j hj hlt := by
    rw [hplant.alters.size] at hlt ⊢
    rw [hplant.parent]
    by_cases hm : j ∈ put
    · rw [if_pos hm, (hplant.put_new j hm).2.2]
      exact .inr (.inr ⟨rfl, hplant.place_lt⟩)
    · rw [if_neg hm, if_neg (hplant.gone_ne hj)]
      exact (h.up hj hlt).imp_left fun hl => ⟨hl.1, hl.2, hm⟩
  stays i hi := by
    rw [hplant.parent_old hi, hplant.alters.size]
    split
    · exact .inr (.inl rfl)
    · exact h.stays hi
  holds j m hj hm i hi := by
    rw [hplant.new hj] at hm
    refine (h.holds hj hm hi).imp_right ?_
    rintro ⟨hlends, k, hk, hfk⟩
    refine ⟨hlends, k, ?_, hfk⟩
    rw [hplant.parent_eq (hlends.lt_size hp) fun hg => hplant.gone_unheld h hg hj hm hi, hk]
  planted i m hi hm j hj hfj := by
    obtain ⟨n₀, hn₀, hgn, rfl⟩ := hplant.exists_node h hi hm
    rcases hplant.mem_children h hp hn₀ hj with ⟨hj, -⟩ | ⟨rfl, d, hd, hjd, -⟩
    · exact h.planted hi hgn hj hfj
    · cases hjd
      exact (hplant.put_new j hd).2.2
  unheld i hi hnone j m hm := hplant.unheld h hp hi hnone hm

/-! ### Replacing an import -/

theorem notMem_list (h : Graft f keep c site loose g) {body : List Ref} (hi : i < f.size)
    (hbody : some i ∉ body) : some i ∉ c.list body := by
  rw [Changes.mem_list]
  rintro (⟨hmem, -⟩ | ⟨k, ds, -, hk, hmem⟩)
  · exact hbody hmem
  · exact Nat.not_le_of_lt hi (h.above.replaced hk i hmem)

theorem notMem_front (h : Graft f keep c site loose g) (hi : i < f.size) :
    some i ∉ (c.frontOf n).map some := by
  intro hmem
  obtain ⟨d, hd, ⟨⟩⟩ := List.mem_map.1 hmem
  exact Nat.not_le_of_lt hi (h.above.front i (Changes.mem_front hd))

/-- A node that is not lent, such as an import, hangs where it was, if it hangs anywhere. -/
theorem parentOf_eq (h : Graft f keep c site loose g) (hp : f.Parsed root)
    (hi : f.node? (some i) = some n) (hexpr : n.isExpression = false)
    (hparent : g.parentOf (some i) = some p) : f.parentOf (some i) = some p := by
  rcases h.stays (lt_size_of_node? hi) with hs | hs | ⟨k, -, -, -, hlends⟩
  · rw [← hs, hparent]
  · rw [hparent] at hs
    cases hs
  · obtain ⟨m, hm, he⟩ := hlends.isExpression hp
    rw [hi, Option.some.injEq] at hm
    rw [← hm, hexpr] at he
    cases he

/-- Statements that belong to the list take the place of an import in it. -/
theorem splice (h : Graft f keep c site loose g) (hp : f.Parsed root)
    (hi : f.node? (some i) = some n) (hexpr : n.isExpression = false)
    (hclear : c.replaced i = none) (ds : List Nat)
    (hds : ∀ d ∈ ds, f.size ≤ d ∧ f.parentOf (some i) = some (site d) ∧
      ∃ m, g.node? (some d) = some m ∧ m.isInnerStatement = true)
    (hok : g.splice (some i) (ds.map some) = .ok g') :
    f.Listed i ∧ ∃ p m, f.Planting g c (c.replace i ds) site p m ds (some i) g' := by
  obtain ⟨_, p, n', before, after, ⟨⟩, hgp, hlist, halters, hparent⟩ := splice_alters hok
  have hif : i < f.size := lt_size_of_node? hi
  have hfp := h.parentOf_eq hp hi hexpr hgp
  obtain ⟨m, hm, hmem⟩ := hp.of_parentOf hfp
  obtain rfl : c.node p m = n' := h.eq_node hm halters.before
  have hl : m.isList = true := by rw [← Changes.isList_node, Node.isList, hlist]; rfl
  -- The entry of the list at which it is cut is the one of the import.
  obtain ⟨before₀, after₀, hsplit, hb, ha⟩ := hp.exists_split hm hmem
  obtain ⟨hstatements, hnode⟩ := Changes.node_replace ds hl hclear hsplit hb ha
  have hfirst : some i ∉ (c.frontOf m).map some ++ c.list before₀ := by
    rw [List.mem_append, not_or]
    exact ⟨h.notMem_front hif, h.notMem_list hif hb⟩
  obtain ⟨rfl, -, rfl⟩ := (List.append_cons_inj_of_notMem hfirst (h.notMem_list hif ha)).1
    (Option.some.inj (hstatements.symm.trans hlist))
  refine ⟨⟨p, m, hfp, hm, hl⟩, p, m, ?_⟩
  constructor
  case node => exact hm
  case alters => rwa [hnode]
  case above => exact h.above.replace fun d hd => (hds d hd).1
  case others =>
    intro k m' hm' hkp
    refine Changes.node_replace_of_not_mem fun hmem' => hkp ?_
    exact Option.some.inj ((hp.of_mem_children hm' hmem').2.1.symm.trans hfp)
  case put_new =>
    intro d hd
    obtain ⟨hfd, hsite, m', hm', -⟩ := hds d hd
    exact ⟨hfd, lt_size_of_node? hm', Option.some.inj (hsite.symm.trans hfp)⟩
  case gone_old =>
    rintro _ ⟨⟩
    exact ⟨hfp, hgp⟩
  case parent =>
    intro j
    have hj : (some j ∈ ds.map some ∧ g.Has (some j)) ↔ j ∈ ds := by
      rw [List.mem_map_of_injective (Option.some_injective _), has_some]
      refine and_iff_left_of_imp fun hd => ?_
      obtain ⟨-, -, m', hm', -⟩ := hds j hd
      exact lt_size_of_node? hm'
    rw [hparent]
    by_cases hji : j = i
    · subst hji
      have hjds : j ∉ ds := fun hd => Nat.not_le_of_lt hif (hds j hd).1
      rw [if_pos rfl, if_neg hjds, if_pos rfl]
    · rw [if_neg (by simpa using hji), if_congr hj rfl rfl,
        if_neg (show some i ≠ some j by simpa using Ne.symm hji)]
  case child =>
    intro r hr
    obtain ⟨hchildren, hwith⟩ := children_of_statements? hlist
    rw [hnode, hwith, List.mem_append, List.mem_append] at hr
    rw [hchildren]
    rcases hr with (hr | hr) | hr
    · refine .inl ⟨List.mem_append_left _ hr, ?_⟩
      rintro _ ⟨⟩ rfl
      exact hfirst hr
    · obtain ⟨d, hd, rfl⟩ := List.mem_map.1 hr
      obtain ⟨-, -, m', hm', hst⟩ := hds d hd
      refine .inr ⟨d, hd, rfl, m', hm', ?_⟩
      cases m <;> first | exact hst | cases hl
    · refine .inl ⟨List.mem_append_right _ (.tail _ hr), ?_⟩
      rintro _ ⟨⟩ rfl
      exact h.notMem_list hif ha hr

/-! ### Putting in front -/

/-- A statement that belongs to the script is put in front of it. -/
theorem putFirst (h : Graft f keep c site loose g) (hp : f.Parsed root) {d : Nat} {m : Node Ref}
    (hd : f.size ≤ d) (hsite : site d = root) (hm : g.node? (some d) = some m)
    (hst : m.isInnerStatement = true) (hok : g.putFirst (some root) (some d) = .ok g') :
    ∃ n, f.Planting g c (c.put d) site root n [d] none g' := by
  obtain ⟨_, n', now, ⟨⟩, hnow, halters, hparent⟩ := putFirst_alters hok
  obtain ⟨body, hbody⟩ := hp.script
  obtain rfl : c.node root (.program body) = n' := h.eq_node hbody halters.before
  obtain rfl : c.front.map some ++ c.list body = now := Option.some.inj hnow
  refine ⟨.program body, ?_⟩
  constructor
  case node => exact hbody
  case alters => exact halters
  case above => exact h.above.put hd
  case others => exact fun k m hm hk => Changes.node_put (hp.isProgram_eq_false hm hk)
  case put_new =>
    intro j hj
    obtain rfl := List.mem_singleton.1 hj
    exact ⟨hd, lt_size_of_node? hm, hsite⟩
  case gone_old => exact nofun
  case parent =>
    intro j
    rw [hparent, if_congr (eq_and_has_iff (lt_size_of_node? hm)) rfl rfl]
    simp
  case child =>
    intro r hr
    rcases List.mem_cons.1 hr with rfl | hr
    · exact .inr ⟨d, List.mem_singleton_self d, rfl, m, hm, hst⟩
    · exact .inl ⟨hr, nofun⟩

/-! ### Exchanging a call -/

/-- A new expression that belongs to a statement takes the place of the one in it. -/
theorem setExpression (h : Graft f keep c site loose g) (hp : f.Parsed root) {e call : Nat}
    (hs : f.node? (some s) = some (.expressionStatement (some call)))
    (hclear : c.guarded s = none) (he : f.size ≤ e) (hsite : site e = s) {m : Node Ref}
    (hm : g.node? (some e) = some m) (hexpr : m.isExpression = true)
    (hok : g.setExpression (some s) (some e) = .ok g') :
    f.Planting g c (c.guard s e) site s (.expressionStatement (some call)) [e]
      (if g.parentOf (some call) = some s then some call else none) g' := by
  have hnow : c.node s (.expressionStatement (some call)) = .expressionStatement (some call) := by
    rw [Changes.node, hclear]
    rfl
  have hthen : (c.guard s e).node s (.expressionStatement (some call)) =
      .expressionStatement (some e) := by simp [Changes.node, Changes.guard]
  obtain ⟨old, hold, rfl⟩ := setExpression_eq_ok.1 hok
  obtain rfl : some call = old := by simpa [hnow] using h.eq_node hs hold
  constructor
  case node => exact hs
  case alters =>
    rw [hnow, hthen]
    exact alters_exchanged hold (some e)
  case above => exact h.above.guard he
  case others => exact fun k n _ hk => Changes.node_guard_of_ne hk
  case put_new =>
    intro j hj
    obtain rfl := List.mem_singleton.1 hj
    exact ⟨he, lt_size_of_node? hm, hsite⟩
  case gone_old =>
    intro i hi
    split at hi
    next hgp =>
      cases hi
      exact ⟨(hp.of_mem_children hs (i := call) (by simp [Node.children])).2.1, hgp⟩
    next => cases hi
  case parent =>
    intro j
    rw [parentOf_exchanged, if_congr (eq_and_has_iff (lt_size_of_node? hm)) rfl rfl]
    by_cases hgp : g.parentOf (some call) = some s <;> simp [hgp, eq_comm]
  case child =>
    intro r hr
    rw [hthen] at hr
    obtain rfl := List.mem_singleton.1 hr
    exact .inr ⟨e, List.mem_singleton_self e, rfl, m, hm, hexpr⟩

end Graft

end DebugGuard.Forest
