import DebugGuard.Forest.Layout
import DebugGuard.Proofs.Forest.Basic
import DebugGuard.Proofs.Script.Tree

/-!
# Trees laid out in a forest

`Forest.Laid f lo hi r t` says that the tree `t` stands in `f` below `r` and takes up the numbers
from `lo` to `hi`, each part a range of its own and the top node last.

Main statements:

* `laid_ofTree`: a tree without dangling slots is laid out over the whole forest;
* `Laid.tree_eq`: what is laid out is read back;
* `ofTree_relabel`: neither what a node says nor its position has an influence on where it is put.
-/

namespace DebugGuard

namespace Node

variable {α β : Type}

/-- A node without what stands in its slots. -/
def shape (n : Node α) : Node Unit :=
  n.map fun _ => ()

@[simp] theorem shape_map (f : α → β) (n : Node α) : (n.map f).shape = n.shape :=
  map_map ..

theorem eq_of_shape {n m : Node α} (hs : n.shape = m.shape) (hc : n.children = m.children) :
    n = m := by
  cases n <;> cases m <;> simp_all [shape, map, children]

end Node

namespace Tree

/-- No slot is filled with something that is no node. -/
inductive Proper : Tree → Prop
  | absent : Proper .absent
  | node {pos top} (h : ∀ t ∈ top.children, Proper t) : Proper (.node pos top)

theorem Proper.bare {t : Tree} (h : t.Proper) : t.bare.Proper := by
  induction h with
  | absent => exact .absent
  | node h ih =>
    rw [bare_node]
    refine .node fun t ht => ?_
    rw [Node.children_map, List.mem_map] at ht
    obtain ⟨c, hc, rfl⟩ := ht
    exact ih c hc

end Tree

/-! ### Building -/

namespace Build

@[simp] theorem bind_apply {α β : Type} (x : Build α) (g : α → Build β) (f : Forest) :
    (x >>= g) f = g (x f).1 (x f).2 := rfl

@[simp] theorem map_apply {α β : Type} (g : α → β) (x : Build α) (f : Forest) :
    (g <$> x) f = (g (x f).1, (x f).2) := rfl

@[simp] theorem pure_apply {α : Type} (a : α) (f : Forest) : (pure a : Build α) f = (a, f) := rfl

@[simp] theorem nodeAt_apply (pos : Nat) (n : Node Ref) (f : Forest) :
    nodeAt pos n f = (f.size, f.add n pos) := rfl

@[simp] theorem node_apply (n : Node Ref) (f : Forest) : node n f = (f.size, f.add n 0) := rfl

theorem length_trees (ts : List Tree) (f : Forest) : (trees ts f).1.length = ts.length := by
  induction ts generalizing f with
  | nil => rfl
  | cons t ts ih => simp [trees, ih]

/-- The slots of a node are filled in source order. -/
theorem slots_spec (top : Node Tree) (f : Forest) :
    (slots top f).1.shape = top.shape ∧ (slots top f).1.children = (trees top.children f).1 ∧
      (slots top f).2 = (trees top.children f).2 := by
  cases top <;>
    simp [slots, trees, Node.shape, Node.map, Node.children, length_trees, List.map_const']

theorem tree_node (pos : Nat) (top : Node Tree) (f : Forest) :
    tree (.node pos top) f = (some (slots top f).2.size, (slots top f).2.add (slots top f).1 pos) :=
  by simp [tree]

theorem trees_cons (t : Tree) (ts : List Tree) (f : Forest) :
    trees (t :: ts) f =
      ((tree t f).1 :: (trees ts (tree t f).2).1, (trees ts (tree t f).2).2) := by
  simp [trees]

end Build

namespace Forest

/-! ### Growing -/

/-- The cells of `f` are still there in `g`, and no parent link is lost. -/
def Extends (g f : Forest) : Prop :=
  ∀ ⦃r cell⦄, f.cell? r = some cell → ∃ cell', g.cell? r = some cell' ∧ cell'.node = cell.node ∧
    cell'.start = cell.start ∧ ∀ p, cell.parent = some p → cell'.parent = some p

theorem Extends.parentOf_eq {f g : Forest} (h : g.Extends f) {r : Ref} {p : Nat}
    (hp : f.parentOf r = some p) : g.parentOf r = some p := by
  obtain ⟨cell, hcell, hparent⟩ := Option.bind_eq_some_iff.1 hp
  obtain ⟨cell', hcell', -, -, hparent'⟩ := h hcell
  exact Option.bind_eq_some_iff.2 ⟨cell', hcell', hparent' p hparent⟩

/-- A node is added on top of roots. -/
theorem extends_add {f : Forest} {n : Node Ref} {pos : Nat}
    (h : ∀ c ∈ n.children, f.parentOf c = none) : (f.add n pos).Extends f := by
  intro r cell hcell
  have hr : r ≠ some f.size := by
    rintro rfl
    exact absurd (has_some.1 (show f.Has _ by simp [Has, hcell])) (Nat.lt_irrefl _)
  rw [cell?_add, if_neg hr]
  by_cases hm : r ∈ n.children
  · refine ⟨{ cell with parent := some f.size }, by simp [hm, hcell], rfl, rfl, fun p hp => ?_⟩
    have hroot := h r hm
    rw [parentOf, hcell, Option.bind_some, hp] at hroot
    cases hroot
  · exact ⟨cell, by simp [hm, hcell], rfl, rfl, fun p hp => hp⟩

/-! ### Ranges -/

mutual

/-- The tree stands below `r` and takes up the numbers from `lo` to `hi`. -/
inductive Laid (f : Forest) : Nat → Nat → Ref → Tree → Prop
  | absent {lo} : Laid f lo lo none .absent
  | node {lo hi pos top cell} (hslots : LaidAll f lo hi cell.node.children top.children)
      (hcell : f.cell? (some hi) = some cell) (hpos : cell.start = pos)
      (hshape : cell.node.shape = top.shape)
      (hparent : ∀ i, some i ∈ cell.node.children → f.parentOf (some i) = some hi) :
      Laid f lo (hi + 1) (some hi) (.node pos top)

/-- The trees stand next to each other. -/
inductive LaidAll (f : Forest) : Nat → Nat → List Ref → List Tree → Prop
  | nil {lo} : LaidAll f lo lo [] []
  | cons {lo mid hi r t rs ts} (hhead : Laid f lo mid r t) (htail : LaidAll f mid hi rs ts) :
      LaidAll f lo hi (r :: rs) (t :: ts)

end

variable {f g : Forest}

mutual

theorem Laid.mono (hgf : g.Extends f) {lo hi : Nat} {r : Ref} {t : Tree} :
    Laid f lo hi r t → Laid g lo hi r t
  | .absent => .absent
  | .node hslots hcell hpos hshape hparent => by
    obtain ⟨cell', hcell', hn, hpos', -⟩ := hgf hcell
    have hslots' := hslots.mono hgf
    rw [← hn] at hslots' hshape hparent
    exact .node hslots' hcell' (hpos'.trans hpos) hshape fun i hi => hgf.parentOf_eq (hparent i hi)

theorem LaidAll.mono (hgf : g.Extends f) {lo hi : Nat} {rs : List Ref} {ts : List Tree} :
    LaidAll f lo hi rs ts → LaidAll g lo hi rs ts
  | .nil => .nil
  | .cons hhead htail => .cons (hhead.mono hgf) (htail.mono hgf)

end

mutual

theorem Laid.le {lo hi : Nat} {r : Ref} {t : Tree} : Laid f lo hi r t → lo ≤ hi
  | .absent => Nat.le_refl _
  | .node hslots _ _ _ _ => Nat.le_succ_of_le hslots.le

theorem LaidAll.le {lo hi : Nat} {rs : List Ref} {ts : List Tree} :
    LaidAll f lo hi rs ts → lo ≤ hi
  | .nil => Nat.le_refl _
  | .cons hhead htail => Nat.le_trans hhead.le htail.le

end

variable {lo hi : Nat} {r : Ref} {rs : List Ref} {t : Tree} {ts : List Tree}

/-- A node stands last in its range. -/
theorem Laid.root_eq {i : Nat} (h : Laid f lo hi (some i) t) : hi = i + 1 := by
  cases h
  rfl

theorem Laid.root_mem {i : Nat} (h : Laid f lo hi (some i) t) : lo ≤ i ∧ i < hi := by
  cases h with
  | node hslots => exact ⟨hslots.le, Nat.lt_succ_self _⟩

theorem LaidAll.head (h : LaidAll f lo hi [r] [t]) : Laid f lo hi r t := by
  cases h with
  | cons hhead hnil =>
    cases hnil
    exact hhead

theorem LaidAll.exists_tree (h : LaidAll f lo hi rs ts) (hr : r ∈ rs) :
    ∃ t ∈ ts, ∃ lo' hi', lo ≤ lo' ∧ hi' ≤ hi ∧ Laid f lo' hi' r t := by
  induction ts generalizing lo rs with
  | nil =>
    cases h
    cases hr
  | cons t ts ih =>
    cases h with
    | cons hhead htail =>
      rcases List.mem_cons.1 hr with rfl | hr
      · exact ⟨t, by simp, _, _, Nat.le_refl _, htail.le, hhead⟩
      · obtain ⟨u, hu, lo', hi', hlo, hhi, h⟩ := ih htail hr
        exact ⟨u, by simp [hu], lo', hi', Nat.le_trans hhead.le hlo, hhi, h⟩

/-- Each number in the range belongs to one of the trees. -/
theorem LaidAll.exists_range {i : Nat} (h : LaidAll f lo hi rs ts) (hlo : lo ≤ i) (hhi : i < hi) :
    ∃ r ∈ rs, ∃ t ∈ ts, ∃ lo' hi', Laid f lo' hi' r t ∧ lo' ≤ i ∧ i < hi' := by
  induction ts generalizing lo rs with
  | nil =>
    cases h
    omega
  | cons t ts ih =>
    cases h with
    | @cons _ mid _ _ _ _ _ hhead htail =>
      by_cases hmid : i < mid
      · exact ⟨_, by simp, t, by simp, _, _, hhead, hlo, hmid⟩
      · obtain ⟨r, hr, u, hu, lo', hi', h⟩ := ih htail (by omega)
        exact ⟨r, by simp [hr], u, by simp [hu], lo', hi', h⟩

/-- The roots stand in their order. -/
theorem LaidAll.increasing (h : LaidAll f lo hi rs ts) : (rs.filterMap id).Pairwise (· < ·) := by
  induction ts generalizing lo rs with
  | nil =>
    cases h
    exact .nil
  | cons t ts ih =>
    cases h with
    | @cons _ mid _ r _ rs _ hhead htail =>
      cases r with
      | none => simpa using ih htail
      | some i =>
        rw [show (some i :: rs).filterMap id = i :: rs.filterMap id from rfl]
        refine .cons (fun j hj => ?_) (ih htail)
        obtain ⟨_, hr, rfl⟩ := List.mem_filterMap.1 hj
        obtain ⟨_, -, lo', hi', hlo, -, hlaid⟩ := htail.exists_tree hr
        have h₁ := hhead.root_mem
        have h₂ := hlaid.root_mem
        omega

/-! ### Building a tree -/

/-- The cells of `f` stand in `g` as they are. -/
def Keeps (g f : Forest) : Prop :=
  ∀ ⦃i⦄, i < f.size → g.cell? (some i) = f.cell? (some i)

/-- What the building of trees leads to: nothing else is touched, and the trees stand at the end,
their roots without parents. -/
structure BuiltAll (f : Forest) (rs : List Ref) (g : Forest) (ts : List Tree) : Prop where
  keeps : g.Keeps f
  roots : ∀ r ∈ rs, g.parentOf r = none
  laid : LaidAll g f.size g.size rs ts

theorem Keeps.extends (h : g.Keeps f) : g.Extends f := by
  intro r cell hcell
  cases r with
  | none => cases hcell
  | some i =>
    refine ⟨cell, ?_, rfl, rfl, fun _ hp => hp⟩
    rw [h (has_some.1 (by simp [Has, hcell])), hcell]

theorem Keeps.parentOf_eq (h : g.Keeps f) (hr : f.Has r) : g.parentOf r = f.parentOf r := by
  cases r with
  | none => rfl
  | some i => rw [parentOf, h (has_some.1 hr), parentOf]

theorem BuiltAll.cons {k : Forest} (hfirst : BuiltAll f [r] g [t]) (hrest : BuiltAll g rs k ts) :
    BuiltAll f (r :: rs) k (t :: ts) := by
  have hhead := hfirst.laid.head
  refine ⟨fun i hi => ?_, fun c hc => ?_, .cons (hhead.mono hrest.keeps.extends) hrest.laid⟩
  · rw [hrest.keeps (Nat.lt_of_lt_of_le hi hhead.le), hfirst.keeps hi]
  · rcases List.mem_cons.1 hc with rfl | hc
    · cases c with
      | none => rfl
      | some i =>
        rw [hrest.keeps.parentOf_eq (has_some.2 hhead.root_mem.2)]
        exact hfirst.roots _ (by simp)
    · exact hrest.roots c hc

/-- A node is put on top of trees that have been built. -/
theorem BuiltAll.node {n : Node Ref} {top : Node Tree} {pos : Nat}
    (h : BuiltAll f n.children g top.children) (hshape : n.shape = top.shape) :
    BuiltAll f [some g.size] (g.add n pos) [.node pos top] := by
  have hext : (g.add n pos).Extends g := extends_add h.roots
  have hbelow : ∀ i, some i ∈ n.children → f.size ≤ i ∧ i < g.size := by
    intro i hi
    obtain ⟨t, -, lo, hi', hlo, hhi, hlaid⟩ := h.laid.exists_tree hi
    exact ⟨Nat.le_trans hlo hlaid.root_mem.1, Nat.lt_of_lt_of_le hlaid.root_mem.2 hhi⟩
  have hself : some g.size ∉ n.children := fun hm => Nat.lt_irrefl _ (hbelow _ hm).2
  refine ⟨fun i hi => ?_, fun r hr => ?_, ?_⟩
  · have hne : i ≠ g.size := Nat.ne_of_lt (Nat.lt_of_lt_of_le hi h.laid.le)
    have hm : some i ∉ n.children := fun hm => Nat.not_le_of_lt hi (hbelow i hm).1
    simp [cell?_add, hne, hm, h.keeps hi]
  · obtain rfl := List.mem_singleton.1 hr
    rw [parentOf_add_of_notMem hself, parentOf_eq_none (Nat.le_refl _)]
  · rw [size_add]
    have hcell : (g.add n pos).cell? (some g.size) = some ⟨n, none, pos⟩ := by
      simp [cell?_add, hself]
    exact .cons (.node (h.laid.mono hext) hcell rfl hshape fun i hi =>
      parentOf_add_of_mem hi (hbelow i hi).2) .nil

theorem built_trees
    (h : ∀ t ∈ ts, ∀ f, BuiltAll f [(Build.tree t f).1] (Build.tree t f).2 [t]) (f : Forest) :
    BuiltAll f (Build.trees ts f).1 (Build.trees ts f).2 ts := by
  induction ts generalizing f with
  | nil => exact ⟨fun _ _ => rfl, by simp [Build.trees], .nil⟩
  | cons t ts ih =>
    rw [Build.trees_cons]
    exact (h t (by simp) f).cons (ih (fun t ht => h t (by simp [ht])) _)

theorem built_tree (ht : t.Proper) (f : Forest) :
    BuiltAll f [(Build.tree t f).1] (Build.tree t f).2 [t] := by
  induction ht generalizing f with
  | absent => exact ⟨fun _ _ => rfl, by simp [Build.tree], .cons .absent .nil⟩
  | node h ih =>
    rw [Build.tree_node]
    obtain ⟨hshape, hchildren, hforest⟩ := Build.slots_spec _ f
    have hbuilt := built_trees ih f
    rw [← hchildren, ← hforest] at hbuilt
    exact hbuilt.node hshape

theorem ofTree_eq (t : Tree) : ofTree t = Build.tree t empty := rfl

/-- A tree is laid out over the whole forest, its root without a parent. -/
theorem laid_ofTree (ht : t.Proper) :
    Laid (ofTree t).2 0 (ofTree t).2.size (ofTree t).1 t ∧
      (ofTree t).2.parentOf (ofTree t).1 = none := by
  have hbuilt := built_tree ht empty
  rw [← ofTree_eq] at hbuilt
  exact ⟨hbuilt.laid.head, hbuilt.roots _ (by simp)⟩

/-! ### Reading a tree back -/

theorem LaidAll.map_treeUpTo {fuel : Nat}
    (ht : ∀ t ∈ ts, ∀ ⦃lo hi r⦄, Laid f lo hi r t → hi - lo ≤ fuel → f.treeUpTo fuel r = t)
    (h : LaidAll f lo hi rs ts) (hfuel : hi - lo ≤ fuel) : rs.map (f.treeUpTo fuel) = ts := by
  induction ts generalizing lo rs with
  | nil =>
    cases h
    rfl
  | cons t ts ih =>
    cases h with
    | cons hhead htail =>
      have h₁ := hhead.le
      have h₂ := htail.le
      rw [List.map_cons, ht t (by simp) hhead (by omega),
        ih (fun t h => ht t (by simp [h])) htail (by omega)]

theorem Laid.treeUpTo_eq {fuel : Nat} (h : Laid f lo hi r t) (hfuel : hi - lo ≤ fuel) :
    f.treeUpTo fuel r = t := by
  induction t using Tree.induct generalizing lo hi r fuel with
  | absent =>
    cases h
    simp [treeUpTo]
  | dangling => cases h
  | node pos top ih =>
    cases h with
    | node hslots hcell hpos hshape =>
      have hle := hslots.le
      obtain ⟨fuel, rfl⟩ : ∃ k, fuel = k + 1 := ⟨fuel - 1, by omega⟩
      have hcell' : f.cells[_]? = some _ := hcell
      simp only [treeUpTo, hcell', hpos]
      refine congrArg _ (Node.eq_of_shape ((Node.shape_map ..).trans hshape) ?_)
      rw [Node.children_map]
      exact hslots.map_treeUpTo (fun t ht _ _ _ h hf => ih t ht h hf) (by omega)

/-- What is laid out is read back. -/
theorem Laid.tree_eq (h : Laid f lo hi r t) (hhi : hi ≤ f.size) : f.tree r = t :=
  h.treeUpTo_eq (by omega)

theorem tree_ofTree (ht : t.Proper) : (ofTree t).2.tree (ofTree t).1 = t :=
  (laid_ofTree ht).1.tree_eq (Nat.le_refl _)

/-! ### Other labels and positions -/

/-- A forest with other nodes and other positions. -/
def relabel (ℓ : Node.Relabeling) (place : Nat → Nat) (f : Forest) : Forest :=
  ⟨f.cells.map fun cell => { cell with node := ℓ.apply cell.node, start := place cell.start }⟩

section

variable (ℓ : Node.Relabeling) (place : Nat → Nat)

@[simp] theorem size_relabel : (f.relabel ℓ place).size = f.size := by
  simp [relabel, size]

theorem setParent_relabel {p c : Ref} :
    (f.setParent p c).relabel ℓ place = (f.relabel ℓ place).setParent p c := by
  cases c with
  | none => rfl
  | some i =>
    simp only [setParent, relabel, Forest.mk.injEq]
    apply Array.ext_getElem?
    intro j
    simp only [Array.getElem?_map, Array.getElem?_modify]
    split <;> simp [Function.comp_def]

theorem adopt_relabel {p : Ref} :
    (f.adopt p rs).relabel ℓ place = (f.relabel ℓ place).adopt p rs := by
  induction rs generalizing f with
  | nil => rfl
  | cons c rs ih =>
    exact (ih (f := f.setParent p c)).trans (by rw [setParent_relabel]; rfl)

theorem add_relabel {n : Node Ref} {pos : Nat} :
    (f.add n pos).relabel ℓ place = (f.relabel ℓ place).add (ℓ.apply n) (place pos) := by
  rw [add, adopt_relabel, add, size_relabel, ℓ.children_apply]
  simp [relabel]

theorem trees_relabel (h : ∀ t ∈ ts, ∀ f : Forest,
      Build.tree (t.relabel ℓ place) (f.relabel ℓ place) =
        ((Build.tree t f).1, (Build.tree t f).2.relabel ℓ place)) (f : Forest) :
    Build.trees (ts.map (Tree.relabel ℓ place)) (f.relabel ℓ place) =
      ((Build.trees ts f).1, (Build.trees ts f).2.relabel ℓ place) := by
  induction ts generalizing f with
  | nil => rfl
  | cons t ts ih =>
    rw [List.map_cons, Build.trees_cons, h t (by simp) f,
      ih (fun t ht => h t (by simp [ht])) (Build.tree t f).2, Build.trees_cons]

theorem tree_relabel (t : Tree) (f : Forest) :
    Build.tree (t.relabel ℓ place) (f.relabel ℓ place) =
      ((Build.tree t f).1, (Build.tree t f).2.relabel ℓ place) := by
  induction t using Tree.induct generalizing f with
  | absent => rfl
  | dangling => rfl
  | node pos top ih =>
    have hbelow := trees_relabel ℓ place ih f
    have hchildren : (ℓ.apply (top.map (Tree.relabel ℓ place))).children =
        top.children.map (Tree.relabel ℓ place) := by
      rw [ℓ.children_apply, Node.children_map]
    obtain ⟨hshape, hslots, hforest⟩ :=
      Build.slots_spec (ℓ.apply (top.map (Tree.relabel ℓ place))) (f.relabel ℓ place)
    obtain ⟨hshape', hslots', hforest'⟩ := Build.slots_spec top f
    rw [hchildren, hbelow] at hslots hforest
    have heq : (Build.slots (ℓ.apply (top.map (Tree.relabel ℓ place))) (f.relabel ℓ place)).1 =
        ℓ.apply (Build.slots top f).1 := by
      refine Node.eq_of_shape ?_ (hslots.trans ?_)
      · rw [hshape, Node.shape, Node.shape, ℓ.map_apply, ℓ.map_apply, ← Node.shape, ← Node.shape,
          Node.shape_map, hshape']
      · rw [ℓ.children_apply, hslots']
    rw [Tree.relabel_node, Build.tree_node, Build.tree_node, heq, hforest, ← hforest',
      size_relabel, add_relabel]

/-- Neither what a node says nor its position has an influence on where it is put. -/
theorem ofTree_relabel (t : Tree) :
    ofTree (t.relabel ℓ place) = ((ofTree t).1, (ofTree t).2.relabel ℓ place) := by
  have h := tree_relabel ℓ place t empty
  rwa [show empty.relabel ℓ place = empty by simp [empty, relabel], ← ofTree_eq, ← ofTree_eq] at h

end

/-- A forest without the positions of its nodes. -/
def unplaced (f : Forest) : Forest :=
  ⟨f.cells.map fun cell => { cell with start := 0 }⟩

theorem ofTree_bare (t : Tree) : ofTree t.bare = ((ofTree t).1, (ofTree t).2.unplaced) :=
  ofTree_relabel .refl (fun _ => 0) t

/-- Two trees differ in positions only if their forests do. -/
theorem bare_eq_iff {t t' : Tree} (ht : t.Proper) (ht' : t'.Proper) :
    t'.bare = t.bare ↔
      (ofTree t').1 = (ofTree t).1 ∧ (ofTree t').2.unplaced = (ofTree t).2.unplaced := by
  rw [← Prod.mk.injEq, ← ofTree_bare, ← ofTree_bare]
  refine ⟨congrArg ofTree, fun h => ?_⟩
  rw [← tree_ofTree ht.bare, ← tree_ofTree ht'.bare, h]

end Forest

end DebugGuard
