import DebugGuard.Proofs.Forest.Basic

/-!
# Ways up and ways down

`Forest.Leads f i t` says that the parent links lead from `i` up to `t`, and `Forest.Reaches f t i`
that the child lists lead from `t` down to `i`.  The functions of a forest that go up or down give
up after as many steps as there are nodes.  That is never too early:

* `ancestors_of_way`: all the nodes on a way up that ends are ancestors;
* `mem_below_of_reaches`: whatever can be reached is below, even if the child lists run in a circle.
-/

namespace DebugGuard.Forest

variable {f g : Forest} {i p t : Nat} {r : Ref}

/-! ### Up -/

/-- The parent links lead from a node up to another one, in any number of steps. -/
def Leads (f : Forest) (i t : Nat) : Prop :=
  Relation.ReflTransGen (fun c p => f.parentOf (some c) = some p) i t

theorem Leads.refl : f.Leads t t :=
  Relation.ReflTransGen.refl

theorem Leads.head (h : f.parentOf (some i) = some p) (hp : f.Leads p t) : f.Leads i t :=
  Relation.ReflTransGen.head h hp

theorem Leads.trans {j : Nat} (h : f.Leads i j) (hj : f.Leads j t) : f.Leads i t :=
  Relation.ReflTransGen.trans h hj

/-- Where a way goes on is decided by its first step. -/
theorem Leads.of_parent (h : f.Leads i t) (hne : i ≠ t) (hp : f.parentOf (some i) = some p) :
    f.Leads p t := by
  rcases Relation.ReflTransGen.cases_head h with rfl | ⟨q, hq, hrest⟩
  · exact absurd rfl hne
  · have : q = p := Option.some.inj (hq.symm.trans hp)
    exact this ▸ hrest

/-- A way that has passed `j` goes on from there: parent links do not branch. -/
theorem Leads.through {j : Nat} (h : f.Leads i t) (hj : f.Leads i j)
    (htop : f.parentOf (some t) = none) : f.Leads j t := by
  induction hj with
  | refl => exact h
  | @tail j k _ hk ih =>
    refine ih.of_parent ?_ hk
    rintro rfl
    rw [htop] at hk
    cases hk

/-- The nodes on the way up from a reference, which has to end. -/
inductive Way (f : Forest) : Ref → List Nat → Prop
  | top : Way f none []
  | up {i l} (h : Way f (f.parentOf (some i)) l) : Way f (some i) (i :: l)

theorem Way.unique {l l' : List Nat} (h : f.Way r l) (h' : f.Way r l') : l = l' := by
  induction h generalizing l' with
  | top =>
    cases h'
    rfl
  | up _ ih =>
    cases h' with
    | up h' => rw [ih h']

/-- The same parent links make the same way. -/
theorem Way.congr {l : List Nat} (h : f.Way r l)
    (hsame : ∀ i ∈ l, g.parentOf (some i) = f.parentOf (some i)) : g.Way r l := by
  induction h with
  | top => exact .top
  | @up i l _ ih =>
    refine .up ?_
    rw [hsame i (by simp)]
    exact ih fun j hj => hsame j (.tail _ hj)

/-- From each node on a way, the way goes on up. -/
theorem Way.of_mem {l : List Nat} (h : f.Way r l) (hi : i ∈ l) :
    ∃ l', f.Way (some i) l' ∧ l'.length ≤ l.length := by
  induction h with
  | top => cases hi
  | @up k l h ih =>
    rcases List.mem_cons.1 hi with rfl | hi
    · exact ⟨_, .up h, Nat.le_refl _⟩
    · obtain ⟨l', hl', hle⟩ := ih hi
      exact ⟨l', hl', Nat.le_succ_of_le hle⟩

/-- What is above a node on a way that ends is on the way as well. -/
theorem Way.mem_of_leads {l : List Nat} (h : f.Way r l) (hi : i ∈ l) (ht : f.Leads i t) :
    t ∈ l := by
  induction ht with
  | refl => exact hi
  | @tail j k _ hjk ih =>
    clear hi
    induction h with
    | top => cases ih
    | @up i l h ih' =>
      rcases List.mem_cons.1 ih with rfl | ih
      · rw [hjk] at h
        cases h with
        | up h => exact List.mem_cons_of_mem _ List.mem_cons_self
      · exact List.mem_cons_of_mem _ (ih' ih)

theorem Way.nodup {l : List Nat} (h : f.Way r l) : l.Nodup := by
  induction h with
  | top => exact .nil
  | @up i l h ih =>
    refine List.nodup_cons.2 ⟨fun hi => ?_, ih⟩
    -- The way from `i` would be shorter than itself.
    obtain ⟨l', hl', hle⟩ := h.of_mem hi
    have := congrArg List.length (hl'.unique (.up h))
    simp only [List.length_cons] at this
    omega

/-- Only the last node on a way may lie outside of the forest. -/
theorem Way.lt_size {l : List Nat} (h : f.Way r l) : ∀ j ∈ l.dropLast, j < f.size := by
  induction h with
  | top => simp
  | @up i l h ih =>
    intro j hj
    cases h' : f.parentOf (some i) with
    | none =>
      rw [h'] at h
      cases h
      simp at hj
    | some p =>
      rw [h'] at h
      cases h with
      | up h =>
        rw [List.dropLast_cons_of_ne_nil (by simp), List.mem_cons] at hj
        rcases hj with rfl | hj
        · exact lt_size_of_parentOf h'
        · exact ih j hj

theorem Way.length_le {l : List Nat} (h : f.Way r l) : l.length ≤ f.size + 1 := by
  have hsub : l.dropLast ⊆ List.range f.size :=
    fun j hj => List.mem_range.2 (h.lt_size j hj)
  have hle := (h.nodup.sublist (List.dropLast_sublist l)).subperm hsub |>.length_le
  rw [List.length_dropLast, List.length_range] at hle
  omega

theorem Way.ancestorsUpTo_eq {l : List Nat} (h : f.Way r l) {fuel : Nat} (hf : l.length ≤ fuel) :
    f.ancestorsUpTo fuel r = l := by
  induction h generalizing fuel with
  | top => cases fuel <;> rfl
  | up h ih =>
    cases fuel with
    | zero => cases hf
    | succ fuel => rw [ancestorsUpTo, ih (Nat.le_of_succ_le_succ hf)]

/-- All the nodes on a way up that ends are ancestors. -/
theorem ancestors_of_way {l : List Nat} (h : f.Way r l) : f.ancestors r = l :=
  h.ancestorsUpTo_eq h.length_le

/-- The way to a node without a parent ends there. -/
theorem Leads.exists_way (h : f.Leads i t) (htop : f.parentOf (some t) = none) :
    ∃ l, f.Way (some i) l := by
  induction h using Relation.ReflTransGen.head_induction_on with
  | refl => exact ⟨[t], .up (htop ▸ .top)⟩
  | @head i p hp _ ih =>
    obtain ⟨l, hl⟩ := ih
    exact ⟨i :: l, .up (hp ▸ hl)⟩

/-! ### Down -/

/-- The child lists lead from a node down to another one, in any number of steps. -/
def Reaches (f : Forest) (t i : Nat) : Prop :=
  Relation.ReflTransGen (fun (p c : Nat) => c ∈ f.childrenOf (some p)) t i

theorem Reaches.refl : f.Reaches t t :=
  Relation.ReflTransGen.refl

theorem Reaches.tail {c : Nat} (h : f.Reaches t i) (hc : c ∈ f.childrenOf (some i)) :
    f.Reaches t c :=
  Relation.ReflTransGen.tail h hc

theorem mem_childrenOf : i ∈ f.childrenOf r ↔ ∃ n, f.node? r = some n ∧ some i ∈ n.children := by
  unfold childrenOf
  cases f.node? r with
  | none => simp
  | some n => simp

theorem lt_size_of_mem_childrenOf {c : Nat} (h : c ∈ f.childrenOf (some i)) : i < f.size := by
  obtain ⟨n, hn, -⟩ := mem_childrenOf.1 h
  exact lt_size_of_node? hn

/-- What is reached from `i` in several steps is reached from a child of `i` without coming back
to `i`. -/
theorem exists_step_avoiding {α : Type} {R : α → α → Prop} {a b : α}
    (h : Relation.ReflTransGen R a b) :
    a = b ∨ ∃ c, R a c ∧ Relation.ReflTransGen (fun x y => R x y ∧ x ≠ a) c b := by
  induction h with
  | refl => exact .inl rfl
  | @tail b c _ hbc ih =>
    refine .inr ?_
    by_cases hb : b = a
    · subst hb
      exact ⟨c, hbc, .refl⟩
    · rcases ih with rfl | ⟨d, hd, hrest⟩
      · exact absurd rfl hb
      · exact ⟨d, hd, hrest.tail ⟨hbc, hb⟩⟩

/-- A way down that avoids `seen` is no longer than there are nodes left. -/
theorem mem_belowUpTo (seen : Finset Nat) {fuel : Nat}
    (hfuel : (Finset.range f.size \ seen).card ≤ fuel)
    (h : Relation.ReflTransGen
      (fun (p c : Nat) => c ∈ f.childrenOf (some p) ∧ p ∉ seen) t i) :
    i ∈ f.belowUpTo fuel t := by
  induction fuel generalizing seen t with
  | zero =>
    rcases Relation.ReflTransGen.cases_head h with rfl | ⟨c, ⟨hc, hseen⟩, -⟩
    · simp [belowUpTo]
    · have hmem : t ∈ Finset.range f.size \ seen :=
        Finset.mem_sdiff.2 ⟨Finset.mem_range.2 (lt_size_of_mem_childrenOf hc), hseen⟩
      have := Finset.card_pos.2 ⟨t, hmem⟩
      omega
  | succ fuel ih =>
    rw [belowUpTo, List.mem_cons, List.mem_flatMap]
    rcases exists_step_avoiding h with rfl | ⟨c, ⟨hc, hseen⟩, hrest⟩
    · exact .inl rfl
    · refine .inr ⟨c, hc, ih (insert t seen) ?_ ?_⟩
      · have hmem : t ∈ Finset.range f.size \ seen :=
          Finset.mem_sdiff.2 ⟨Finset.mem_range.2 (lt_size_of_mem_childrenOf hc), hseen⟩
        rw [Finset.sdiff_insert, Finset.card_erase_of_mem hmem]
        omega
      · refine Relation.ReflTransGen.mono (fun a b hab => ?_) _ _ hrest
        rw [Finset.mem_insert, not_or]
        exact ⟨hab.1.1, hab.2, hab.1.2⟩

/-- Whatever can be reached is below. -/
theorem mem_below_of_reaches (h : f.Reaches t i) : i ∈ f.below (some t) := by
  have havoid : Relation.ReflTransGen
      (fun (p c : Nat) => c ∈ f.childrenOf (some p) ∧ p ∉ (∅ : Finset Nat)) t i := by
    refine Relation.ReflTransGen.mono (fun p c hc => ?_) _ _ h
    exact ⟨hc, by simp⟩
  show i ∈ f.belowUpTo f.size t
  exact mem_belowUpTo ∅ (by simp) havoid

end DebugGuard.Forest
