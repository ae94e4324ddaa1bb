import DebugGuard.Proofs.Forest.Graft

/-!
# Ways in an expanded script

Once no new node hangs loose, the parent links of an expanded script lead from each node that can be
reached up to the script: from a new node through its site (`Graft.leads_site`), from a node of the
script by its old parent or through the new nodes that it has been lent to (`Graft.leads_root`).
-/

namespace DebugGuard.Forest

variable {f g : Forest} {keep : Prop} {c : Changes} {site : Nat → Nat} {root i j k p s : Nat}
  {n : Node Ref}

/-- A node that has a parent in the script is lent from the statement above it only. -/
theorem Lends.site_of_call (h : f.Lends keep s i) (hp : f.Parsed root) {t : Nat} {e : Ref}
    (ht : f.node? (some t) = some (.expressionStatement e)) (hi : f.parentOf (some i) = some t) :
    s = t := by
  obtain ⟨call, callee, args, hs, hc, hcs, ⟨-, hi'⟩ | ⟨-, rfl⟩⟩ := h.call hp
  · obtain rfl : call = t := Option.some.inj (hi'.symm.trans hi)
    rw [hc] at ht
    cases ht
  · exact Option.some.inj (hcs.symm.trans hi)

theorem Lends.lt_site (h : f.Lends keep s i) (hp : f.Parsed root) : i < s := by
  obtain ⟨call, callee, args, hs, hc, hi⟩ := h
  have hcs := (hp.of_mem_children hs (i := call) (by simp [Node.children])).1
  rcases hi with hi | ⟨-, rfl⟩
  · have := (hp.of_mem_children hc (i := i) (by simp [Node.children, hi])).1
    omega
  · exact hcs

/-- A way that goes on has a parent to go on to. -/
theorem Leads.parentOf_ne_none (h : g.Leads i root) (hne : i ≠ root) :
    g.parentOf (some i) ≠ none := by
  rcases Relation.ReflTransGen.cases_head h with rfl | ⟨p, hp, -⟩
  · exact absurd rfl hne
  · rw [hp]
    nofun

theorem Parsed.lt_size_of_parentOf (hp : f.Parsed root) (h : f.parentOf (some i) = some p) :
    p < f.size := by
  obtain ⟨n, hn, -⟩ := hp.of_parentOf h
  exact lt_size_of_node? hn

/-- In a parsed script, the parent links lead from everywhere to the script. -/
theorem Parsed.leads_root (hp : f.Parsed root) (hi : i < f.size) : f.Leads i root := by
  have hsize := hp.size_eq
  -- Parents come behind their children, so the induction goes up to the last node.
  induction hd : root - i using Nat.strong_induction_on generalizing i with
  | _ d ih =>
    by_cases hir : i = root
    · subst hir
      exact .refl
    · obtain ⟨p, n, hip, hn, hmem⟩ := hp.parent (i := i) (by omega)
      have := (hp.of_mem_children hn hmem).1
      have := lt_size_of_node? hn
      exact .head hip (ih (root - p) (by omega) (by omega) rfl)

/-- The way up from a node of a parsed script leads through higher numbers. -/
theorem Parsed.le_of_mem_way (hp : f.Parsed root) {r : Ref} {l : List Nat} (h : f.Way r l)
    (hr : ∀ i, r = some i → k ≤ i ∧ i < f.size) : ∀ j ∈ l, k ≤ j ∧ j < f.size := by
  induction h with
  | top => nofun
  | @up i l _ ih =>
    have hi := hr i rfl
    intro j hj
    rcases List.mem_cons.1 hj with rfl | hj
    · exact hi
    · refine ih (fun p hip => ?_) j hj
      have := hp.lt_of_parentOf hip
      omega

namespace Graft

theorem parentOf_root {loose : Set Nat} (h : Graft f keep c site loose g) (hp : f.Parsed root) :
    g.parentOf (some root) = none := by
  obtain ⟨body, hbody⟩ := hp.script
  rcases h.stays (lt_size_of_node? hbody) with hs | hs | ⟨k, -, -, -, hlends⟩
  · rw [hs, hp.top]
  · exact hs
  · obtain ⟨m, hm, he⟩ := hlends.isExpression hp
    rw [hbody, Option.some.injEq] at hm
    subst hm
    cases he

/-- A new node belongs to a node of the script, which stands above it. -/
theorem leads_site (h : Graft f keep c site ∅ g) (hj : f.size ≤ j) (hlt : j < g.size) :
    g.Leads j (site j) ∧ site j < f.size := by
  -- Parents of new nodes are younger, so the induction goes down from the end of the forest.
  induction hd : g.size - j using Nat.strong_induction_on generalizing j with
  | _ d ih =>
    rcases h.up hj hlt with ⟨-, hl⟩ | ⟨k, hk, hjk, hkg, hs⟩ | ⟨hs, hsf⟩
    · cases hl
    · obtain ⟨hlead, hsf⟩ := ih (g.size - k) (by omega) (by omega) hkg rfl
      rw [hs] at hlead hsf
      exact ⟨.head hk hlead, hsf⟩
    · exact ⟨.head hs .refl, hsf⟩

/-- A node of the script has a new parent only if it has been lent. -/
theorem lends_of_parentOf (h : Graft f keep c site ∅ g) (hp : f.Parsed root) (hi : i < f.size)
    (hk : g.parentOf (some i) = some k) (hfk : f.size ≤ k) :
    k < g.size ∧ f.Lends keep (site k) i := by
  rcases h.stays hi with hs | hs | ⟨k', hk', -, hkg, hlends⟩
  · have := hp.lt_size_of_parentOf (hs.symm.trans hk)
    omega
  · rw [hk] at hs
    cases hs
  · obtain rfl : k = k' := Option.some.inj (hk.symm.trans hk')
    exact ⟨hkg, hlends⟩

/-- From below a site, the way to the script leads through the site. -/
theorem site_leads_root (h : Graft f keep c site ∅ g) (hp : f.Parsed root) (hj : f.size ≤ j)
    (hlt : j < g.size) (hroot : g.Leads j root) : g.Leads (site j) root :=
  hroot.through (h.leads_site hj hlt).1 (h.parentOf_root hp)

/-- A call from which the way leads to the script leaves it to its statement to lead there. -/
theorem statement_leads_root (h : Graft f keep c site ∅ g) (hp : f.Parsed root) {call : Nat}
    (hs : f.node? (some s) = some (.expressionStatement (some call)))
    (hroot : g.Leads call root) : g.Leads s root := by
  obtain ⟨-, hcs, m, hm, htakes⟩ := hp.of_mem_children hs (i := call) (by simp [Node.children])
  have hcall := lt_size_of_node? hm
  have hne : call ≠ root := by
    rintro rfl
    rw [hp.top] at hcs
    cases hcs
  rcases h.stays hcall with hc | hc | ⟨k, hk, hfk, hkg, hlends⟩
  · exact hroot.of_parent hne (hc.trans hcs)
  · exact absurd hc (hroot.parentOf_ne_none hne)
  · rw [← hlends.site_of_call hp hs hcs]
    exact h.site_leads_root hp hfk hkg (hroot.of_parent hne hk)

/-- The parent links lead from all that can be reached back to the script. -/
theorem leads_root (h : Graft f keep c site ∅ g) (hp : f.Parsed root) (hi : g.Reaches root i) :
    g.Leads i root := by
  induction hi with
  | refl => exact .refl
  | @tail i j _ hj ih =>
    obtain ⟨n, hn, hmem⟩ := mem_childrenOf.1 hj
    have hig := lt_size_of_node? hn
    -- From a node that has been lent, the way leads through the statement that lends it.
    have hlent {k : Nat} (hjf : j < f.size) (hk : g.parentOf (some j) = some k) (hfk : f.size ≤ k)
        (hs : g.Leads (site k) root) : g.Leads j root :=
      .head hk ((h.leads_site hfk (h.lends_of_parentOf hp hjf hk hfk).1).1.trans hs)
    rcases Nat.lt_or_ge j f.size with hjf | hjf <;> rcases Nat.lt_or_ge i f.size with hif | hif
    · -- Both are nodes of the script: the link between them is the old one, or has been lent.
      rw [h.old hif, Option.map_eq_some_iff] at hn
      obtain ⟨n₀, hn₀, rfl⟩ := hn
      obtain ⟨-, hji, -⟩ := hp.of_mem_children hn₀ (h.above.mem_children hjf hmem)
      rcases h.stays hjf with hs | hs | ⟨k, hk, hfk, -, hlends⟩
      · exact .head (hs.trans hji) ih
      · refine absurd hmem (h.unheld hjf hs (j := i) ?_)
        rw [h.old hif, hn₀, Option.map_some]
      · refine hlent hjf hk hfk ?_
        obtain ⟨call, callee, args, hs, -, hcs, ⟨-, hj'⟩ | ⟨-, rfl⟩⟩ := hlends.call hp
        · obtain rfl : call = i := Option.some.inj (hj'.symm.trans hji)
          exact h.statement_leads_root hp hs ih
        · obtain rfl : site k = i := Option.some.inj (hcs.symm.trans hji)
          exact ih
    · -- A new node holds a node of the script only if that has been lent to it.
      rcases h.holds hif hn hmem with ⟨hfj, -⟩ | ⟨hlends, k, hk, hfk⟩
      · omega
      · refine hlent hjf hk hfk ?_
        rw [(h.lends_of_parentOf hp hjf hk hfk).2.unique hlends hp]
        exact h.site_leads_root hp hif hig ih
    · -- A new node that the script holds belongs to the place that holds it.
      rw [← h.planted hif hn hmem hjf] at ih
      rcases h.kinded hn _ hmem with ⟨h, -⟩ | ⟨m, hm, -⟩
      · cases h
      · exact (h.leads_site hjf (lt_size_of_node? hm)).1.trans ih
    · -- New nodes that hold each other belong to one place.
      rcases h.kinded hn _ hmem with ⟨h, -⟩ | ⟨m, hm, -⟩
      · cases h
      rcases h.holds hif hn hmem with ⟨-, hs⟩ | ⟨hlends, -⟩
      · have hroot := h.site_leads_root hp hif hig ih
        rw [← hs] at hroot
        exact (h.leads_site hjf (lt_size_of_node? hm)).1.trans hroot
      · have := hlends.lt_size hp
        omega

/-- A script or a block hangs where it was, as long as it hangs below the script. -/
theorem parentOf_list (h : Graft f keep c site ∅ g) (hp : f.Parsed root)
    (hn : f.node? (some i) = some n) (hl : n.isList = true) (hroot : g.Leads i root) :
    g.parentOf (some i) = f.parentOf (some i) := by
  rcases h.stays (lt_size_of_node? hn) with hs | hs | ⟨k, -, -, -, hlends⟩
  · exact hs
  · by_cases hir : i = root
    · rw [hir, h.parentOf_root hp, hp.top]
    · exact absurd hs (hroot.parentOf_ne_none hir)
  · obtain ⟨m, hm, he⟩ := hlends.isExpression hp
    obtain rfl : n = m := Option.some.inj (hn.symm.trans hm)
    cases n <;> first | cases he; done | cases hl

end Graft

end DebugGuard.Forest
