import DebugGuard.Forest.Edit
import Mathlib

/-!
# What a change of a forest leaves as it is

Each function that changes a forest is described by what the changed forest answers: for a
reference `r`, its cell, its node and its parent.
-/

namespace DebugGuard.Forest

variable {f : Forest} {r c p : Ref} {i : Nat} {rs : List Ref} {n : Node Ref} {pos : Nat}

/-- There is a node for the reference. -/
def Has (f : Forest) (r : Ref) : Prop :=
  (f.cell? r).isSome

instance : DecidablePred f.Has :=
  fun r => inferInstanceAs (Decidable ((f.cell? r).isSome = true))

theorem has_some : f.Has (some i) ↔ i < f.size := by
  simp [Has, cell?, size]

@[simp] theorem not_has_none : ¬f.Has none := by
  simp [Has, cell?]

theorem has_of_node? (h : f.node? r = some n) : f.Has r := by
  simp only [node?, Option.map_eq_some_iff] at h
  obtain ⟨cell, hcell, -⟩ := h
  simp [Has, hcell]

theorem exists_node? (h : f.Has r) : ∃ n, f.node? r = some n := by
  obtain ⟨cell, hcell⟩ := Option.isSome_iff_exists.1 h
  exact ⟨cell.node, by simp [node?, hcell]⟩

theorem lt_size_of_node? (h : f.node? (some i) = some n) : i < f.size :=
  has_some.1 (has_of_node? h)

theorem exists_eq_some (h : f.node? r = some n) : ∃ i, r = some i := by
  cases r with
  | none => cases h
  | some i => exact ⟨i, rfl⟩

@[simp] theorem node?_none : f.node? none = none := rfl

@[simp] theorem parentOf_none : f.parentOf none = none := rfl

theorem parentOf_eq_none (h : f.size ≤ i) : f.parentOf (some i) = none := by
  simp [parentOf, cell?, show f.cells.size ≤ i from h]

theorem lt_size_of_parentOf {q : Nat} (h : f.parentOf (some i) = some q) : i < f.size := by
  by_contra hi
  rw [parentOf_eq_none (Nat.le_of_not_lt hi)] at h
  cases h

/-- The byte offset where a node starts. -/
def startOf? (f : Forest) (r : Ref) : Option Nat :=
  (f.cell? r).map Cell.start

/-! ### Parent links -/

@[simp] theorem size_setParent : (f.setParent p c).size = f.size := by
  cases c <;> simp [setParent, size]

theorem cell?_setParent :
    (f.setParent p c).cell? r =
      if r = c then (f.cell? r).map (fun cell => { cell with parent := p }) else f.cell? r := by
  cases c with
  | none =>
    cases r <;> simp [setParent, cell?]
  | some j =>
    cases r with
    | none => simp [cell?]
    | some i => simp [setParent, cell?, Array.getElem?_modify, eq_comm]

@[simp] theorem node?_setParent : (f.setParent p c).node? r = f.node? r := by
  rw [node?, cell?_setParent]
  split
  · simp [node?, Function.comp_def]
  · rfl

theorem parentOf_setParent :
    (f.setParent p c).parentOf r = if r = c ∧ f.Has r then p else f.parentOf r := by
  rw [parentOf, cell?_setParent]
  by_cases hr : r = c
  · cases hcell : f.cell? r with
    | none => simp [hr, Has, parentOf, hr ▸ hcell]
    | some cell => simp [hr, Has, hr ▸ hcell]
  · simp [hr, parentOf]

@[simp] theorem startOf?_setParent : (f.setParent p c).startOf? r = f.startOf? r := by
  rw [startOf?, cell?_setParent]
  split
  · simp [startOf?, Function.comp_def]
  · rfl

@[simp] theorem size_adopt : (f.adopt p rs).size = f.size := by
  induction rs generalizing f with
  | nil => rfl
  | cons c rs ih => rw [adopt, List.foldl_cons, ← adopt, ih, size_setParent]

theorem cell?_adopt :
    (f.adopt p rs).cell? r =
      if r ∈ rs then (f.cell? r).map (fun cell => { cell with parent := p }) else f.cell? r := by
  induction rs generalizing f with
  | nil => simp [adopt]
  | cons c rs ih =>
    rw [adopt, List.foldl_cons, ← adopt, ih, cell?_setParent]
    by_cases hc : r = c <;> by_cases hr : r ∈ rs <;> simp [hc, hr] <;> simp_all [Function.comp_def]

@[simp] theorem node?_adopt : (f.adopt p rs).node? r = f.node? r := by
  rw [node?, cell?_adopt]
  split
  · simp [node?, Function.comp_def]
  · rfl

theorem parentOf_adopt :
    (f.adopt p rs).parentOf r = if r ∈ rs ∧ f.Has r then p else f.parentOf r := by
  rw [parentOf, cell?_adopt]
  by_cases hr : r ∈ rs
  · cases hcell : f.cell? r with
    | none => simp [hr, Has, parentOf, hcell]
    | some cell => simp [hr, Has, hcell]
  · simp [hr, parentOf]

@[simp] theorem startOf?_adopt : (f.adopt p rs).startOf? r = f.startOf? r := by
  rw [startOf?, cell?_adopt]
  split
  · simp [startOf?, Function.comp_def]
  · rfl

/-! ### Nodes -/

@[simp] theorem size_setNode : (f.setNode c n).size = f.size := by
  cases c <;> simp [setNode, size]

theorem cell?_setNode :
    (f.setNode c n).cell? r =
      if r = c then (f.cell? r).map (fun cell => { cell with node := n }) else f.cell? r := by
  cases c with
  | none =>
    cases r <;> simp [setNode, cell?]
  | some j =>
    cases r with
    | none => simp [cell?]
    | some i => simp [setNode, cell?, Array.getElem?_modify, eq_comm]

theorem node?_setNode :
    (f.setNode c n).node? r = if r = c ∧ f.Has r then some n else f.node? r := by
  rw [node?, cell?_setNode]
  by_cases hr : r = c
  · cases hcell : f.cell? r with
    | none => simp [hr, Has, node?, hr ▸ hcell]
    | some cell => simp [hr, Has, hr ▸ hcell]
  · simp [hr, node?]

@[simp] theorem parentOf_setNode : (f.setNode c n).parentOf r = f.parentOf r := by
  rw [parentOf, cell?_setNode]
  split
  · cases hcell : f.cell? r <;> simp [parentOf, hcell]
  · rfl

@[simp] theorem startOf?_setNode : (f.setNode c n).startOf? r = f.startOf? r := by
  rw [startOf?, cell?_setNode]
  split
  · simp [startOf?, Function.comp_def]
  · rfl

/-! ### Adding a node -/

@[simp] theorem size_add : (f.add n pos).size = f.size + 1 := by
  rw [add, size_adopt]
  simp [size]

theorem cell?_push {cell : Cell} :
    (⟨f.cells.push cell⟩ : Forest).cell? r = if r = some f.size then some cell else f.cell? r := by
  cases r with
  | none => simp [cell?]
  | some i => simp [cell?, Array.getElem?_push, size]

theorem cell?_add :
    (f.add n pos).cell? r =
      if r = some f.size then
        some ⟨n, if some f.size ∈ n.children then some f.size else none, pos⟩
      else if r ∈ n.children then (f.cell? r).map (fun cell => { cell with parent := some f.size })
      else f.cell? r := by
  rw [add, cell?_adopt, cell?_push]
  by_cases hr : r = some f.size
  · subst hr
    by_cases hm : some f.size ∈ n.children <;> simp [hm]
  · simp [hr]

theorem node?_add : (f.add n pos).node? r = if r = some f.size then some n else f.node? r := by
  rw [node?, cell?_add]
  split
  · rfl
  · split <;> simp [node?, Function.comp_def]

@[simp] theorem node?_add_size : (f.add n pos).node? (some f.size) = some n := by
  rw [node?_add, if_pos rfl]

theorem node?_add_of_ne (h : i ≠ f.size) : (f.add n pos).node? (some i) = f.node? (some i) := by
  rw [node?_add, if_neg (by simpa using h)]

theorem node?_add_of_node? {m : Node Ref} (h : f.node? r = some m) :
    (f.add n pos).node? r = some m := by
  rw [node?_add, if_neg, h]
  rintro rfl
  exact Nat.lt_irrefl _ (lt_size_of_node? h)

/-- A node of the forest is the new one, or has been there before. -/
theorem node?_add_eq_some {m : Node Ref} : (f.add n pos).node? (some i) = some m ↔
    i = f.size ∧ m = n ∨ f.node? (some i) = some m := by
  constructor
  · intro h
    by_cases hi : i = f.size
    · subst hi
      rw [node?_add_size, Option.some.injEq] at h
      exact .inl ⟨rfl, h.symm⟩
    · exact .inr (by rwa [node?_add_of_ne hi] at h)
  · rintro (⟨rfl, rfl⟩ | h)
    · exact node?_add_size
    · exact node?_add_of_node? h

theorem startOf?_add :
    (f.add n pos).startOf? r = if r = some f.size then some pos else f.startOf? r := by
  rw [startOf?, cell?_add]
  split
  · rfl
  · split <;> simp [startOf?, Function.comp_def]

theorem startOf?_add_of_ne (h : i ≠ f.size) :
    (f.add n pos).startOf? (some i) = f.startOf? (some i) := by
  rw [startOf?_add, if_neg (by simpa using h)]

theorem parentOf_add : (f.add n pos).parentOf r =
    if r ∈ n.children ∧ (r = some f.size ∨ f.Has r) then some f.size else f.parentOf r := by
  rw [parentOf, cell?_add]
  by_cases hr : r = some f.size
  · subst hr
    by_cases hm : some f.size ∈ n.children <;> simp [hm, parentOf_eq_none]
  · by_cases hm : r ∈ n.children
    · cases hcell : f.cell? r <;> simp [hr, hm, Has, parentOf, hcell]
    · simp [hr, hm, parentOf]

/-- The new node has taken in what it holds. -/
theorem parentOf_add_of_mem (hi : some i ∈ n.children) (hlt : i < f.size) :
    (f.add n pos).parentOf (some i) = some f.size := by
  rw [parentOf_add, if_pos ⟨hi, .inr (has_some.2 hlt)⟩]

theorem parentOf_add_of_notMem (hr : r ∉ n.children) :
    (f.add n pos).parentOf r = f.parentOf r := by
  rw [parentOf_add, if_neg fun h => hr h.1]

/-- A parent is the new node, or has been the parent before. -/
theorem parentOf_add_eq_some {q : Nat} (h : (f.add n pos).parentOf r = some q) :
    q = f.size ∧ r ∈ n.children ∨ f.parentOf r = some q := by
  rw [parentOf_add] at h
  split at h
  next hr =>
    cases h
    exact .inl ⟨rfl, hr.1⟩
  next => exact .inr h

end DebugGuard.Forest
