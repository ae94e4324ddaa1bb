import DebugGuard.Proofs.Forest.Edit
import DebugGuard.Proofs.Forest.Parsed
import DebugGuard.Proofs.Forest.Way

/-!
# Well-formed forests

In a well-formed forest every node is listed at most once, the parent links say by which node, and
every way up ends (`Forest.WellFormed`).  Child lists and parent links are stored apart from each
other, and a change of a forest has to keep them in step.

Each such change gives one node another list.  `Forest.Relists f p g` says what it takes: the parent
links follow the list, and whatever comes into the list hung nowhere and is not above it.

Main statements:

* `Relists.wellFormed`: such a change keeps a forest well formed;
* `relists_add`, `relists_splice`, `relists_putFirst`, `relists_release` and `relists_fill`: the
  changes that are made are of this kind.
-/

namespace DebugGuard.Forest

variable {f g : Forest} {i j p : Nat} {n : Node Ref} {pos : Nat}

/-- Everything that is listed, in all lists together. -/
def listing (f : Forest) : List Nat :=
  (List.range f.size).flatMap fun p => f.childrenOf (some p)

/-- The lists of children and the parent links say the same, and every way up comes to an end. -/
structure WellFormed (f : Forest) : Prop where
  /-- No node is listed twice, be it by one node or by two. -/
  once : f.listing.Nodup
  linked : ∀ i p, f.parentOf (some i) = some p ↔ i ∈ f.childrenOf (some p)
  ends : ∀ i, ∃ l, f.Way (some i) l

/-- If the parent links say which node lists another one, no two lists can share a node. -/
theorem nodup_listing (hlinked : ∀ i p, i ∈ f.childrenOf (some p) → f.parentOf (some i) = some p)
    (h : ∀ p, (f.childrenOf (some p)).Nodup) : f.listing.Nodup := by
  refine List.nodup_flatMap.2 ⟨fun p _ => h p, List.nodup_range.imp fun {p q} hpq => ?_⟩
  intro i hp hq
  exact hpq (Option.some.inj ((hlinked i p hp).symm.trans (hlinked i q hq)))

theorem childrenOf_eq_nil (h : f.size ≤ p) : f.childrenOf (some p) = [] :=
  List.eq_nil_iff_forall_not_mem.2 fun _ hi =>
    absurd (lt_size_of_mem_childrenOf hi) (Nat.not_lt_of_le h)

theorem childrenOf_eq (h : f.node? (some p) = some n) :
    f.childrenOf (some p) = n.children.filterMap id := by
  rw [childrenOf, h, Option.elim_some]

theorem childrenOf_congr (h : g.node? (some p) = f.node? (some p)) :
    g.childrenOf (some p) = f.childrenOf (some p) := by
  rw [childrenOf, childrenOf, h]

theorem WellFormed.nodup (h : f.WellFormed) (p : Nat) : (f.childrenOf (some p)).Nodup := by
  by_cases hp : p < f.size
  · exact (List.nodup_flatMap.1 h.once).1 p (List.mem_range.2 hp)
  · rw [childrenOf_eq_nil (Nat.le_of_not_lt hp)]
    exact .nil

theorem WellFormed.lt_size (h : f.WellFormed) (hi : f.parentOf (some i) = some p) : p < f.size :=
  lt_size_of_mem_childrenOf ((h.linked i p).1 hi)

theorem Parsed.wellFormed {root : Nat} (hp : f.Parsed root) : f.WellFormed := by
  have hlinked (i p : Nat) : f.parentOf (some i) = some p ↔ i ∈ f.childrenOf (some p) := by
    rw [mem_childrenOf]
    exact ⟨hp.of_parentOf, fun ⟨_, hn, hmem⟩ => (hp.of_mem_children hn hmem).2.1⟩
  refine ⟨nodup_listing (fun i p => (hlinked i p).2) fun p => ?_, hlinked, fun i => ?_⟩
  · cases hn : f.node? (some p) with
    | none => simp [childrenOf, hn]
    | some n =>
      rw [childrenOf_eq hn]
      exact hp.nodup hn
  · -- parents come behind their children, so the way up gets shorter
    induction hd : f.size - i using Nat.strong_induction_on generalizing i with
    | _ d ih =>
      cases hi : f.parentOf (some i) with
      | none => exact ⟨[i], .up (hi ▸ .top)⟩
      | some p =>
        have hlt := hp.lt_of_parentOf hi
        obtain ⟨l, hl⟩ := ih (f.size - p) (by omega) p rfl
        exact ⟨i :: l, .up (hi ▸ hl)⟩

/-! ### Ways that end -/

theorem Way.leads {l : List Nat} (h : f.Way (some i) l) (hj : j ∈ l) : f.Leads i j := by
  induction l generalizing i with
  | nil => cases hj
  | cons k l ih =>
    cases h with
    | up h =>
      rcases List.mem_cons.1 hj with rfl | hj
      · exact .refl
      · cases hp : f.parentOf (some k) with
        | none =>
          rw [hp] at h
          cases h
          cases hj
        | some p =>
          rw [hp] at h
          exact .head hp (ih h hj)

/-- A node on a way that ends is not below where the way starts. -/
theorem Way.parentOf_ne {l : List Nat} (h : f.Way (some p) l) (hj : j ∈ l) :
    f.parentOf (some j) ≠ some p := by
  intro hp
  obtain ⟨l', hl', hle⟩ := h.of_mem hj
  have := congrArg List.length (hl'.unique (.up (hp ▸ h)))
  simp only [List.length_cons] at this
  omega

/-! ### What edits do to lists -/

theorem Alters.childrenOf {n' : Node Ref} (h : f.Alters p n n' g) :
    f.childrenOf (some p) = n.children.filterMap id ∧
      g.childrenOf (some p) = n'.children.filterMap id ∧
      ∀ q, q ≠ p → g.childrenOf (some q) = f.childrenOf (some q) :=
  ⟨childrenOf_eq h.before, childrenOf_eq h.after, fun _ hq => childrenOf_congr (h.others hq)⟩

/-- The list in which a statement stands, before and after others have taken its place. -/
theorem splice_lists {target : Ref} {statements : List Nat}
    (h : f.splice target (statements.map some) = .ok g) :
    ∃ t p n n' earlier later, target = some t ∧ f.parentOf (some t) = some p ∧
      f.Alters p n n' g ∧ f.childrenOf (some p) = earlier ++ t :: later ∧
      g.childrenOf (some p) = earlier ++ statements ++ later ∧
      ∀ i, g.parentOf (some i) = if i = t then none
        else if i ∈ statements ∧ i < f.size then some p else f.parentOf (some i) := by
  obtain ⟨t, p, n, before, after, rfl, hp, hstatements, halters, hparent⟩ := splice_alters h
  obtain ⟨hchildren, hwith⟩ := children_of_statements? hstatements
  obtain ⟨hlist, hlist', -⟩ := halters.childrenOf
  refine ⟨t, p, n, _, before.filterMap id, after.filterMap id, rfl, hp, halters, ?_, ?_, fun i => ?_⟩
  · rw [hlist, hchildren, List.filterMap_append]
    rfl
  · have hid : (statements.map some).filterMap id = statements := by simp
    rw [hlist', hwith, List.filterMap_append, List.filterMap_append, hid]
  · rw [hparent]
    exact if_congr (by simp) rfl (if_congr (by simp [has_some]) rfl rfl)

/-- A list before and after a statement has been put in front of it. -/
theorem putFirst_lists {list : Ref} {s : Nat} (h : f.putFirst list (some s) = .ok g) :
    ∃ p n n', list = some p ∧ f.Alters p n n' g ∧
      g.childrenOf (some p) = s :: f.childrenOf (some p) ∧
      ∀ i, g.parentOf (some i) = if i = s ∧ i < f.size then some p else f.parentOf (some i) := by
  obtain ⟨p, n, body, rfl, hstatements, halters, hparent⟩ := putFirst_alters h
  obtain ⟨hchildren, hwith⟩ := children_of_statements? hstatements
  obtain ⟨hlist, hlist', -⟩ := halters.childrenOf
  refine ⟨p, n, _, rfl, halters, ?_, fun i => ?_⟩
  · rw [hlist, hlist', hwith, hchildren]
    rfl
  · rw [hparent]
    exact if_congr (by simp [has_some]) rfl rfl

/-! ### Another list -/

/-- There is a node, and it hangs nowhere. -/
def Detached (f : Forest) (i : Nat) : Prop :=
  i < f.size ∧ f.parentOf (some i) = none

instance : DecidablePred f.Detached :=
  fun i => inferInstanceAs (Decidable (i < f.size ∧ f.parentOf (some i) = none))

/-- The node `p` has another list in `g` than in `f`. -/
structure Relists (f : Forest) (p : Nat) (g : Forest) : Prop where
  lists : ∀ q, q ≠ p → g.childrenOf (some q) = f.childrenOf (some q)
  nodup : (g.childrenOf (some p)).Nodup
  parent : ∀ i, g.parentOf (some i) =
    if i ∈ g.childrenOf (some p) then some p
    else if f.parentOf (some i) = some p then none else f.parentOf (some i)
  /-- What comes into the list has been detached, and is not the root above it. -/
  fresh : ∀ i ∈ g.childrenOf (some p), f.parentOf (some i) = some p ∨
    f.parentOf (some i) = none ∧ ¬f.Leads p i

theorem Relists.linked (h : Relists f p g) (hf : f.WellFormed) (i q : Nat) :
    g.parentOf (some i) = some q ↔ i ∈ g.childrenOf (some q) := by
  rw [h.parent]
  by_cases hq : q = p
  · subst hq
    split
    next hi => simp [hi]
    next hi =>
      split
      next => simp [hi]
      next hne => simp [hi, hne]
  · rw [h.lists q hq, ← hf.linked]
    split
    next hi =>
      rcases h.fresh i hi with hp | ⟨hp, -⟩
      · rw [hp]
      · rw [hp]
        simp [Ne.symm hq]
    next =>
      split
      next hp => simp [hp, Ne.symm hq]
      next => exact Iff.rfl

/-- The way up from where the list is stays the same, and every other way leads to it or stays the
same too. -/
theorem Relists.ends (h : Relists f p g) (hf : f.WellFormed) (i : Nat) :
    ∃ l, g.Way (some i) l := by
  obtain ⟨above, habove⟩ := hf.ends p
  have hp : g.Way (some p) above := by
    refine habove.congr fun j hj => ?_
    have hne := habove.parentOf_ne hj
    rw [h.parent, if_neg fun hmem => ?_, if_neg hne]
    rcases h.fresh j hmem with hparent | ⟨-, hleads⟩
    · exact hne hparent
    · exact hleads (habove.leads hj)
  obtain ⟨l, hl⟩ := hf.ends i
  induction l generalizing i with
  | nil => cases hl
  | cons k l ih =>
    cases hl with
    | up hl =>
      cases hg : g.parentOf (some k) with
      | none => exact ⟨[k], .up (hg ▸ .top)⟩
      | some q =>
        by_cases hq : q = p
        · subst hq
          exact ⟨k :: above, .up (hg ▸ hp)⟩
        · have hfq : f.parentOf (some k) = some q := by
            rw [h.linked hf, h.lists q hq] at hg
            exact (hf.linked k q).2 hg
          rw [hfq] at hl
          obtain ⟨l', hl'⟩ := ih q hl
          exact ⟨k :: l', .up (hg ▸ hl')⟩

theorem Relists.wellFormed (h : Relists f p g) (hf : f.WellFormed) : g.WellFormed := by
  refine ⟨nodup_listing (fun i q => (h.linked hf i q).2) fun q => ?_, h.linked hf, h.ends hf⟩
  by_cases hq : q = p
  · exact hq ▸ h.nodup
  · rw [h.lists q hq]
    exact hf.nodup q

/-! ### The changes -/

/-- A node is added on top of nodes that hang nowhere. -/
theorem relists_add (hf : f.WellFormed) (hnodup : (n.children.filterMap id).Nodup)
    (hn : ∀ i ∈ n.children.filterMap id, f.Detached i) : Relists f f.size (f.add n pos) := by
  have hmem {i : Nat} : i ∈ n.children.filterMap id ↔ some i ∈ n.children := by simp
  have hlist : (f.add n pos).childrenOf (some f.size) = n.children.filterMap id :=
    childrenOf_eq node?_add_size
  refine ⟨fun q hq => childrenOf_congr (node?_add_of_ne hq), hlist ▸ hnodup, fun i => ?_,
    fun i hi => ?_⟩
  · have hne : f.parentOf (some i) ≠ some f.size :=
      fun h => Nat.lt_irrefl _ (hf.lt_size h)
    rw [hlist, if_neg hne]
    by_cases hi : some i ∈ n.children
    · rw [parentOf_add_of_mem hi (hn i (hmem.2 hi)).1, if_pos (hmem.2 hi)]
    · rw [parentOf_add_of_notMem hi, if_neg fun h => hi (hmem.1 h)]
  · rw [hlist] at hi
    obtain ⟨hlt, hparent⟩ := hn i hi
    refine .inr ⟨hparent, fun hleads => ?_⟩
    -- the new node has had no parent that would lead anywhere
    rcases Relation.ReflTransGen.cases_head hleads with heq | ⟨q, hq, -⟩
    · omega
    · rw [parentOf_eq_none (Nat.le_refl _)] at hq
      cases hq

/-- Statements that hang nowhere take the place of one that stands in a list. -/
theorem relists_splice (hf : f.WellFormed) {target : Ref} {statements : List Nat}
    (hnodup : statements.Nodup) (hs : ∀ s ∈ statements, f.Detached s)
    (habove : ∀ p, f.parentOf target = some p → ∀ s ∈ statements, ¬f.Leads p s)
    (h : f.splice target (statements.map some) = .ok g) :
    ∃ t p n n', target = some t ∧ f.parentOf (some t) = some p ∧ f.Alters p n n' g ∧
      Relists f p g ∧ t ∉ g.childrenOf (some p) ∧ ∀ s ∈ statements, s ∈ g.childrenOf (some p) := by
  obtain ⟨t, p, n, n', earlier, later, rfl, hp, halters, hlist, hlist', hparent⟩ := splice_lists h
  have hunder (i : Nat) : f.parentOf (some i) = some p ↔ i ∈ earlier ∨ i = t ∨ i ∈ later := by
    rw [hf.linked, hlist, List.mem_append, List.mem_cons]
  have hout : ∀ s ∈ statements, f.parentOf (some s) ≠ some p := fun s hmem hsp => by
    rw [(hs s hmem).2] at hsp
    cases hsp
  have hold := hf.nodup p
  rw [hlist, List.nodup_middle, List.nodup_cons, List.mem_append, not_or] at hold
  obtain ⟨⟨htb, hta⟩, hold⟩ := hold
  have hts : t ∉ statements := fun hmem => hout t hmem hp
  refine ⟨t, p, n, n', rfl, hp, halters,
    ⟨halters.childrenOf.2.2, ?_, fun i => ?_, fun i hi => ?_⟩, ?_, fun s hmem => ?_⟩
  · rw [hlist', List.append_assoc, (List.perm_append_comm_assoc ..).nodup_iff,
      List.nodup_append]
    refine ⟨hnodup, hold, ?_⟩
    rintro s hmem _ hs' rfl
    exact hout s hmem ((hunder s).2 ((List.mem_append.1 hs').imp_right .inr))
  · have hin : i ∈ earlier ++ statements ++ later ↔
        i ∈ statements ∨ f.parentOf (some i) = some p ∧ i ≠ t := by
      rw [hunder, List.mem_append, List.mem_append]
      by_cases ht : i = t
      · simp [ht, htb, hta, hts]
      · simp only [ht]
        tauto
    rw [hparent, hlist']
    by_cases ht : i = t
    · subst ht
      rw [if_pos rfl, if_neg (mt hin.1 (by simp [hts])), if_pos hp]
    by_cases hs' : i ∈ statements
    · rw [if_neg ht, if_pos ⟨hs', (hs i hs').1⟩, if_pos (hin.2 (.inl hs'))]
    rw [if_neg ht, if_neg (by simp [hs'])]
    by_cases hip : f.parentOf (some i) = some p
    · rw [if_pos (hin.2 (.inr ⟨hip, ht⟩)), hip]
    · rw [if_neg (mt hin.1 (by simp [hs', hip])), if_neg hip]
  · rw [hlist', List.mem_append, List.mem_append] at hi
    rcases hi with (hi | hi) | hi
    · exact .inl ((hunder i).2 (.inl hi))
    · exact .inr ⟨(hs i hi).2, habove p hp i hi⟩
    · exact .inl ((hunder i).2 (.inr (.inr hi)))
  · rw [hlist', List.mem_append, List.mem_append]
    simp only [htb, hta, hts, or_self, not_false_eq_true]
  · rw [hlist', List.mem_append, List.mem_append]
    exact .inl (.inr hmem)

/-- A statement that hangs nowhere is put in front of a list. -/
theorem relists_putFirst (hf : f.WellFormed) {list : Ref} {s : Nat} (hs : f.Detached s)
    (habove : ∀ p, list = some p → ¬f.Leads p s) (h : f.putFirst list (some s) = .ok g) :
    ∃ p n n', list = some p ∧ f.Alters p n n' g ∧ Relists f p g ∧ s ∈ g.childrenOf (some p) := by
  obtain ⟨p, n, n', rfl, halters, hlist', hparent⟩ := putFirst_lists h
  have hout : s ∉ f.childrenOf (some p) := fun hmem => by
    have := (hf.linked s p).2 hmem
    rw [hs.2] at this
    cases this
  refine ⟨p, n, n', rfl, halters, ⟨halters.childrenOf.2.2, ?_, fun i => ?_, fun i hi => ?_⟩,
    hlist' ▸ List.mem_cons_self⟩
  · rw [hlist']
    exact List.nodup_cons.2 ⟨hout, hf.nodup p⟩
  · rw [hparent, hlist']
    by_cases hi : i = s
    · subst hi
      rw [if_pos ⟨rfl, hs.1⟩, if_pos List.mem_cons_self]
    by_cases hip : f.parentOf (some i) = some p
    · rw [if_neg (by simp [hi]), if_pos (.tail _ ((hf.linked i p).1 hip)), hip]
    · rw [if_neg (by simp [hi]), if_neg (by simp [hi, ← hf.linked, hip]), if_neg hip]
  · rw [hlist', List.mem_cons, ← hf.linked] at hi
    rcases hi with rfl | hi
    · exact .inr ⟨hs.2, habove p rfl⟩
    · exact .inl hi

/-! ### Exchanging an expression

A statement lets go of its expression and then takes another one.  In between its slot is empty.  The
parts of the new expression may be added before or after the old one is let go of: if one of them
takes it in, the statement does not hold it any more (`released_add`). -/

/-- The forest in which an expression statement has let go of its expression, which may have been
given another parent before. -/
def released (f : Forest) (statement old : Ref) : Forest :=
  let changed := f.setNode statement (.expressionStatement none)
  if f.parentOf old = statement then changed.setParent none old else changed

theorem ext_cell? (h : ∀ r, f.cell? r = g.cell? r) : f = g := by
  obtain ⟨cells⟩ := f
  obtain ⟨cells'⟩ := g
  rw [Forest.mk.injEq]
  exact Array.ext_getElem? fun i => h (some i)

variable {s e : Nat} {old r : Ref}

theorem cell?_released : (f.released (some s) old).cell? r =
    (f.cell? r).map fun cell =>
      ⟨if r = some s then .expressionStatement none else cell.node,
        if r = old ∧ f.parentOf old = some s then none else cell.parent, cell.start⟩ := by
  unfold released
  split
  next hold =>
    rw [cell?_setParent, cell?_setNode]
    cases f.cell? r <;> split_ifs <;> simp_all
  next hold =>
    rw [cell?_setNode]
    cases f.cell? r <;> split_ifs <;> simp_all

@[simp] theorem size_released : (f.released (some s) old).size = f.size := by
  unfold released
  split <;> simp

theorem node?_released (hr : f.Has r) : (f.released (some s) old).node? r =
    if r = some s then some (.expressionStatement none) else f.node? r := by
  obtain ⟨cell, hcell⟩ := Option.isSome_iff_exists.1 hr
  rw [node?, node?, cell?_released, hcell]
  split <;> simp [*]

@[simp] theorem startOf?_released : (f.released (some s) old).startOf? r = f.startOf? r := by
  unfold released
  split <;> simp

theorem parentOf_released : (f.released (some s) old).parentOf r =
    if r = old ∧ f.parentOf old = some s then none else f.parentOf r := by
  rw [parentOf, cell?_released, parentOf.eq_1 f r]
  cases f.cell? r with
  | none => simp
  | some cell => rw [Option.map_some, Option.bind_some, Option.bind_some]

/-- A statement lets go of its expression. -/
theorem relists_release (hf : f.WellFormed)
    (hs : f.node? (some s) = some (.expressionStatement old)) :
    Relists f s (f.released (some s) old) ∧
      (f.released (some s) old).childrenOf (some s) = [] := by
  have hnil : (f.released (some s) old).childrenOf (some s) = [] := by
    rw [childrenOf_eq (by rw [node?_released (has_of_node? hs), if_pos rfl])]
    rfl
  refine ⟨⟨fun q hq => ?_, hnil ▸ .nil, fun i => ?_, fun i hi => ?_⟩, hnil⟩
  · by_cases hlt : q < f.size
    · exact childrenOf_congr (by rw [node?_released (has_some.2 hlt), if_neg (by simp [hq])])
    · rw [childrenOf_eq_nil (Nat.le_of_not_lt hlt),
        childrenOf_eq_nil (by rw [size_released]; exact Nat.le_of_not_lt hlt)]
  · have hone : f.parentOf (some i) = some s ↔ some i = old := by
      rw [hf.linked, childrenOf_eq hs]
      cases old <;> simp [Node.children, eq_comm]
    have hnot : i ∉ (f.released (some s) old).childrenOf (some s) := by simp [hnil]
    rw [parentOf_released, if_neg hnot]
    by_cases hi : some i = old
    · rw [if_pos ⟨hi, hi ▸ hone.2 hi⟩, if_pos (hone.2 hi)]
    · rw [if_neg (fun h => hi h.1), if_neg (mt hone.1 hi)]
  · rw [hnil] at hi
    cases hi

/-- A statement without an expression takes one that hangs nowhere. -/
theorem relists_fill (hf : f.WellFormed)
    (hs : f.node? (some s) = some (.expressionStatement none)) (he : f.Detached e)
    (habove : ¬f.Leads s e) :
    Relists f s (f.exchanged (some s) none (some e)) ∧
      (f.exchanged (some s) none (some e)).childrenOf (some s) = [e] := by
  have halters := alters_exchanged hs (some e)
  obtain ⟨-, hlist, hlists⟩ := halters.childrenOf
  change _ = [e] at hlist
  refine ⟨⟨hlists, by simp [hlist], fun i => ?_, fun i hi => ?_⟩, hlist⟩
  · have hnone : f.parentOf (some i) ≠ some s := by
      rw [Ne, hf.linked, childrenOf_eq hs]
      exact List.not_mem_nil
    have hin : i ∈ (f.exchanged (some s) none (some e)).childrenOf (some s) ↔ i = e := by
      rw [hlist, List.mem_singleton]
    rw [parentOf_exchanged, if_neg hnone]
    by_cases hi : i = e
    · rw [if_pos (hin.2 hi), if_pos ⟨congrArg some hi, has_some.2 (hi ▸ he.1)⟩]
    · rw [if_neg (mt hin.1 hi), if_neg (by simp [hi]), if_neg (by simp)]
  · rw [hlist, List.mem_singleton] at hi
    subst hi
    exact .inr ⟨he.2, habove⟩

theorem cell?_exchanged : (f.exchanged (some s) old (some e)).cell? r =
    (f.cell? r).map fun cell =>
      ⟨if r = some s then .expressionStatement (some e) else cell.node,
        if r = some e then some s
        else if r = old ∧ f.parentOf old = some s then none else cell.parent, cell.start⟩ := by
  unfold exchanged
  dsimp only
  by_cases hold : f.parentOf old = some s
  · rw [if_pos hold, cell?_setParent, cell?_setParent, cell?_setNode]
    cases f.cell? r <;> split_ifs <;> simp_all
  · rw [if_neg hold, cell?_setParent, cell?_setNode]
    cases f.cell? r <;> split_ifs <;> simp_all

/-- To exchange an expression is to let go of the old one and to take the new one then. -/
theorem exchanged_eq : f.exchanged (some s) old (some e) =
    (f.released (some s) old).exchanged (some s) none (some e) := by
  refine ext_cell? fun r => ?_
  rw [cell?_exchanged, cell?_exchanged, cell?_released, parentOf_none, Option.map_map]
  cases f.cell? r with
  | none => rfl
  | some cell => split_ifs <;> simp_all

/-- A part that takes the old expression in may be added before or after the statement has let go
of it. -/
theorem released_add (hs : s < f.size) {k : Nat} (hk : k < f.size)
    (hn : ∀ i ∈ n.children.filterMap id, i < f.size) :
    (f.add n pos).released (some s) (some k) = (f.released (some s) (some k)).add n pos := by
  have hself : some f.size ∉ n.children := fun hc =>
    Nat.lt_irrefl _ (hn _ (List.mem_filterMap.2 ⟨_, hc, rfl⟩))
  -- what has been taken in has another parent than the statement
  have hcut : (f.add n pos).parentOf (some k) = some s ↔
      some k ∉ n.children ∧ f.parentOf (some k) = some s := by
    by_cases hmem : some k ∈ n.children
    · simp [parentOf_add_of_mem hmem hk, hmem, Nat.ne_of_gt hs]
    · simp [parentOf_add_of_notMem hmem, hmem]
  refine ext_cell? fun r => ?_
  simp only [cell?_released, hcut, cell?_add, size_released]
  by_cases hr : r = some f.size
  · have hne : f.size ≠ s ∧ f.size ≠ k := by omega
    simp [hr, hself, hne]
  · rw [if_neg hr, if_neg hr]
    cases f.cell? r with
    | none => split_ifs <;> rfl
    | some cell => split_ifs <;> simp_all

end DebugGuard.Forest
