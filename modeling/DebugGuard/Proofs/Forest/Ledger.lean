import DebugGuard.Proofs.Forest.WellFormed

/-!
# Using each new node once

An expansion makes new nodes and puts each of them somewhere, while nodes that were there before may
come to stand in two places for a time.  `Forest.Ledger m out g` keeps account of the nodes from `m`
on: each is in one list at most, or it is one of `out`, the references that are still to be put
somewhere.  Every change draws on `out` for what it puts into a list, and adds what it makes.
-/

namespace DebugGuard.Forest

variable {f g : Forest} {m i p : Nat} {n : Node Ref} {pos : Nat} {r : Ref}
  {l l' rs statements body : List Ref}

/-- From `m` on, no node is used twice, be it in the lists or among the references in `l`. -/
structure Ledger (m : Nat) (l : List Ref) (g : Forest) : Prop where
  size_le : m ≤ g.size
  once : ∀ ⦃i⦄, m ≤ i → g.listing.count i + l.count (some i) ≤ if i < g.size then 1 else 0
  /-- A node with a parent is in its list. -/
  linked : ∀ ⦃i p⦄, g.parentOf (some i) = some p → i ∈ g.childrenOf (some p)

/-! ### Counting -/

theorem count_filterMap_id : (rs.filterMap id).count i = rs.count (some i) := by
  rw [List.count_filterMap]
  rfl

theorem count_childrenOf (h : g.node? (some p) = some n) :
    (g.childrenOf (some p)).count i = n.children.count (some i) := by
  rw [childrenOf_eq h, count_filterMap_id]

theorem count_listing :
    f.listing.count i = ∑ p ∈ Finset.range f.size, (f.childrenOf (some p)).count i := by
  rw [listing, List.count_flatMap]
  rfl

theorem count_childrenOf_le (p : Nat) : (f.childrenOf (some p)).count i ≤ f.listing.count i := by
  rw [count_listing]
  by_cases hp : p < f.size
  · exact Finset.single_le_sum (f := fun p => (f.childrenOf (some p)).count i)
      (fun _ _ => Nat.zero_le _) (Finset.mem_range.2 hp)
  · rw [childrenOf_eq_nil (Nat.le_of_not_lt hp)]
    exact Nat.zero_le _

theorem count_add_count_le {q : Nat} (h : p ≠ q) :
    (f.childrenOf (some p)).count i + (f.childrenOf (some q)).count i ≤ f.listing.count i := by
  by_cases hp : p < f.size
  · by_cases hq : q < f.size
    · have hsub : {p, q} ⊆ Finset.range f.size := by simp [Finset.insert_subset_iff, hp, hq]
      rw [count_listing, ← Finset.sum_pair (f := fun p => (f.childrenOf (some p)).count i) h]
      exact Finset.sum_le_sum_of_subset hsub
    · rw [childrenOf_eq_nil (Nat.le_of_not_lt hq)]
      exact count_childrenOf_le p
  · rw [childrenOf_eq_nil (Nat.le_of_not_lt hp), List.count_nil, Nat.zero_add]
    exact count_childrenOf_le q

/-- If the node `p` gets another list, only what is in it makes a difference. -/
theorem count_relisted (hsize : g.size = f.size) (hp : p < f.size)
    (h : ∀ q, q ≠ p → g.childrenOf (some q) = f.childrenOf (some q)) :
    g.listing.count i + (f.childrenOf (some p)).count i =
      f.listing.count i + (g.childrenOf (some p)).count i := by
  have hp' := Finset.mem_range.2 hp
  -- the two sums differ in the place `p` alone
  rw [count_listing, count_listing, hsize, ← Finset.add_sum_erase _ _ hp',
    ← Finset.add_sum_erase (Finset.range f.size) (fun p => (f.childrenOf (some p)).count i) hp',
    Finset.sum_congr rfl fun q hq => by rw [h q (Finset.ne_of_mem_erase hq)]]
  omega

theorem count_listing_add : (f.add n pos).listing.count i =
    f.listing.count i + n.children.count (some i) := by
  rw [count_listing, size_add, Finset.sum_range_succ, count_listing,
    count_childrenOf node?_add_size]
  congr 1
  refine Finset.sum_congr rfl fun q hq => congrArg _ (childrenOf_congr ?_)
  exact node?_add_of_ne (Nat.ne_of_lt (Finset.mem_range.1 hq))

namespace Ledger

/-! ### Drawing on the account -/

/-- References may be dropped, and those to nodes before `m` do not count. -/
theorem mono (h : Ledger m l g)
    (hle : ∀ i, m ≤ i → l'.count (some i) ≤ l.count (some i)) : Ledger m l' g where
  __ := h
  once i hi := Nat.le_trans (Nat.add_le_add_left (hle i hi) _) (h.once hi)

theorem perm (h : Ledger m l g) (hperm : l.Perm l') : Ledger m l' g :=
  h.mono fun i _ => Nat.le_of_eq (hperm.count_eq (some i)).symm

theorem append_old (h : Ledger m l g) (hrs : ∀ i, some i ∈ rs → i < m) :
    Ledger m (rs ++ l) g :=
  h.mono fun i hi => by
    have hnot : some i ∉ rs := fun hmem => Nat.not_lt_of_le hi (hrs i hmem)
    rw [List.count_append, List.count_eq_zero_of_not_mem hnot, Nat.zero_add]

theorem cons_old (h : Ledger m l g) (hr : ∀ i, r = some i → i < m) : Ledger m (r :: l) g := by
  have h' : Ledger m ([r] ++ l) g :=
    h.append_old fun i hi => hr i (List.mem_singleton.1 hi).symm
  exact h'

/-! ### Changes -/

/-- A new node is put on top of what is still to be put somewhere. -/
theorem add (h : Ledger m (n.children ++ l) g) : Ledger m (some g.size :: l) (g.add n pos) := by
  have hsize := h.size_le
  refine ⟨?_, fun i hi => ?_, fun i p hp => ?_⟩
  · rw [size_add]
    omega
  · have honce := h.once hi
    rw [List.count_append] at honce
    rw [count_listing_add, List.count_cons, size_add]
    by_cases heq : i = g.size
    · -- nothing could list the new node before it was there
      subst heq
      rw [if_neg (Nat.lt_irrefl _)] at honce
      rw [if_pos (beq_self_eq_true _), if_pos (Nat.lt_succ_self _)]
      omega
    · rw [if_neg (by simpa using Ne.symm heq)]
      split at honce <;> split <;> omega
  · rcases parentOf_add_eq_some hp with ⟨rfl, hmem⟩ | hp
    · rw [childrenOf_eq node?_add_size]
      exact List.mem_filterMap.2 ⟨_, hmem, rfl⟩
    · have hi := h.linked hp
      rwa [childrenOf_congr (node?_add_of_ne (Nat.ne_of_lt (lt_size_of_mem_childrenOf hi)))]

/-- Another list draws on the account for what comes into it. -/
theorem alters (rs : List Ref) (h : Ledger m (rs ++ l) g) {n' : Node Ref}
    (halters : g.Alters p n n' f)
    (hlist : ∀ i, (f.childrenOf (some p)).count i ≤
      (g.childrenOf (some p)).count i + rs.count (some i))
    (hlinked : ∀ ⦃i q⦄, f.parentOf (some i) = some q → i ∈ f.childrenOf (some q)) :
    Ledger m l f where
  size_le := halters.size ▸ h.size_le
  linked := hlinked
  once i hi := by
    have honce := h.once hi
    have hcount := count_relisted (i := i) halters.size halters.lt_size halters.childrenOf.2.2
    have hle := hlist i
    rw [List.count_append] at honce
    rw [halters.size]
    omega

/-- New statements take the place of one in a list. -/
theorem splice {target : Ref} {ds : List Nat} (h : Ledger m (ds.map some ++ l) g)
    (hok : g.splice target (ds.map some) = .ok f) : Ledger m l f := by
  obtain ⟨t, p, n, n', earlier, later, rfl, hp, halters, hlist, hlist', hparent⟩ :=
    splice_lists hok
  refine alters _ h halters (fun i => ?_) fun i q hq => ?_
  · have hcount : (ds.map some).count (some i) = ds.count i :=
      List.count_map_of_injective ds some (Option.some_injective _) i
    rw [hlist, hlist', hcount, List.count_append, List.count_append, List.count_append,
      List.count_cons]
    omega
  · rw [hparent] at hq
    split at hq
    next => cases hq
    next ht =>
      split at hq
      next hds =>
        cases hq
        rw [hlist', List.mem_append, List.mem_append]
        exact .inl (.inr hds.1)
      next =>
        have hi := h.linked hq
        by_cases hqp : q = p
        · subst hqp
          rw [hlist, List.mem_append, List.mem_cons] at hi
          rw [hlist', List.mem_append, List.mem_append]
          exact hi.elim (fun hi => .inl (.inl hi)) fun hi => .inr (hi.resolve_left ht)
        · rwa [halters.childrenOf.2.2 q hqp]

/-- A statement is taken out of its list. -/
theorem remove {target : Ref} (h : Ledger m l g) (hok : g.remove target = .ok f) :
    Ledger m l f := by
  have h' : Ledger m (([] : List Nat).map some ++ l) g := h
  exact h'.splice hok

/-- A new statement is put in front of a list. -/
theorem putFirst {list : Ref} {s : Nat} (h : Ledger m (some s :: l) g)
    (hok : g.putFirst list (some s) = .ok f) : Ledger m l f := by
  obtain ⟨p, n, n', rfl, halters, hlist', hparent⟩ := putFirst_lists hok
  refine alters [some s] h halters (fun i => ?_) fun i q hq => ?_
  · rw [hlist', List.count_cons, List.count_singleton]
    simp
  · rw [hparent] at hq
    split at hq
    next hs =>
      cases hq
      rw [hlist', hs.1]
      exact List.mem_cons_self
    next =>
      have hi := h.linked hq
      by_cases hqp : q = p
      · subst hqp
        rw [hlist']
        exact .tail _ hi
      · rwa [halters.childrenOf.2.2 q hqp]

/-- A new expression takes the place of the one in a statement. -/
theorem setExpression {statement : Ref} {e : Nat} (h : Ledger m (some e :: l) g)
    (hok : g.setExpression statement (some e) = .ok f) : Ledger m l f := by
  obtain ⟨old, hs, rfl⟩ := setExpression_eq_ok.1 hok
  obtain ⟨s, rfl⟩ := exists_eq_some hs
  have halters := alters_exchanged hs (some e)
  obtain ⟨hlist, hlist', hlists⟩ := halters.childrenOf
  change _ = [old].filterMap id at hlist
  change _ = [e] at hlist'
  refine alters [some e] h halters (fun i => ?_) fun i q hq => ?_
  · rw [hlist', List.count_singleton, List.count_singleton]
    simp
  · rw [parentOf_exchanged] at hq
    split at hq
    next hi =>
      cases hi.1
      cases hq
      rw [hlist']
      exact List.mem_singleton_self e
    next =>
      split at hq
      next => cases hq
      next hold =>
        have hi := h.linked hq
        by_cases hqs : q = s
        · subst hqs
          have hio : some i = old := by
            rw [hlist] at hi
            simpa using hi
          exact absurd ⟨hio, hio ▸ hq⟩ hold
        · rwa [hlists q hqs]

/-! ### What the account says in the end -/

/-- What is in a list is there. -/
theorem lt_size (h : Ledger m l g) (hi : m ≤ i) (hmem : i ∈ g.childrenOf (some p)) :
    i < g.size := by
  have honce := h.once hi
  have hin := List.count_pos_iff.2 hmem
  have hle := count_childrenOf_le (f := g) (i := i) p
  split at honce <;> omega

/-- A node from `m` on that has a parent is in the list of its parent once, and in no other. -/
theorem listed_once (h : Ledger m l g) (hi : m ≤ i) (hp : g.parentOf (some i) = some p) :
    (g.childrenOf (some p)).count i = 1 ∧ ∀ q, i ∈ g.childrenOf (some q) → q = p := by
  have hmem := h.linked hp
  have hin := List.count_pos_iff.2 hmem
  have hle := count_childrenOf_le (f := g) (i := i) p
  have honce : g.listing.count i ≤ 1 := by
    have := h.once hi
    split at this <;> omega
  refine ⟨by omega, fun q hq => ?_⟩
  by_contra hqp
  -- in two lists it would be listed twice
  have hin' := List.count_pos_iff.2 hq
  have := count_add_count_le (f := g) (i := i) hqp
  omega

end Ledger

theorem Parsed.ledger {root : Nat} (hp : f.Parsed root) : Ledger f.size [] f where
  size_le := Nat.le_refl _
  once i hi := by
    have hnot : i ∉ f.listing := by
      intro hmem
      obtain ⟨p, -, hp'⟩ := List.mem_flatMap.1 hmem
      exact Nat.not_lt_of_le hi (Forest.lt_size_of_parentOf ((hp.wellFormed.linked i p).2 hp'))
    rw [List.count_eq_zero_of_not_mem hnot]
    exact Nat.zero_le _
  linked i p h := (hp.wellFormed.linked i p).1 h

end DebugGuard.Forest
