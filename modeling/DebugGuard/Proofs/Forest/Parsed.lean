import DebugGuard.Proofs.Forest.Layout
import DebugGuard.Proofs.Forest.Way
import DebugGuard.Proofs.Script.Part
import DebugGuard.Proofs.Script.Roundtrip

/-!
# Parsed scripts as forests

`Forest.Parsed` gathers what is true of the forest in which a parsed script is laid out: every node
but the script itself stands below exactly one other one, which comes later, and in a slot that
takes nodes of its kind.

Main statements:

* `parsed_of_parse`: a parsed script is laid out like this;
* `reprint_iff`: a printed parse is parsed to the same forest, positions aside, exactly if the
  script accesses no member of a number that is written with digits and underscores alone.
-/

namespace DebugGuard

namespace Tree

theorem Part.proper {t : Tree} (h : Part t) : t.Proper := by
  induction t using Tree.induct with
  | absent => exact .absent
  | dangling =>
    cases h with
    | phrase h => obtain ⟨_, _, heq, -⟩ := h.covers; cases heq
    | importName h => obtain ⟨_, _, _, heq, -⟩ := h; cases heq
    | importDefault h => obtain ⟨_, _, heq, -⟩ := h; cases heq
    | importAll h => obtain ⟨_, _, heq, -⟩ := h; cases heq
  | node pos top ih =>
    refine .node fun c hc => ?_
    rcases h.child hc with ⟨rfl, -⟩ | ⟨pos', top', rfl, hpart, -⟩
    · exact .absent
    · exact ih _ hc hpart

theorem part_of_parse {source : String} {t : Tree} (h : parse source = .ok t) :
    ∃ body, t = .node 0 (.program body) ∧ Part t := by
  obtain ⟨body, -, rfl, hs, -⟩ := parse_sound h
  exact ⟨body, rfl, .script hs⟩

theorem exists_of_joins {n : Node Tree} (h : n.joins = true) :
    ∃ pos s name, n = .member (.node pos (.literal (.number s))) name ∧ isWhole s.toList = true := by
  unfold Node.joins at h
  split at h
  next o name =>
    unfold isPlainNumber at h
    split at h
    next pos s => exact ⟨pos, s, name, rfl, h⟩
    next => cases h
  next => cases h

theorem joins_eq_false_iff {t : Tree} : t.joins = false ↔
    ∀ pos s name, Node.member (.node pos (.literal (.number s))) name ∈ t.nodes →
      isWhole s.toList = false := by
  rw [joins, List.any_eq_false]
  constructor
  · intro h pos s name hm
    exact Bool.eq_false_of_not_eq_true (h _ hm)
  · intro h n hn hj
    obtain ⟨pos, s, name, rfl, hs⟩ := exists_of_joins hj
    exact Bool.false_ne_true ((h pos s name hn).symm.trans hs)

end Tree

namespace Forest

open DebugGuard.Tree

/-! ### The shape of a parsed script -/

/-- The forest in which a parsed script is laid out. -/
structure Parsed (f : Forest) (root : Nat) : Prop where
  size_eq : f.size = root + 1
  script : ∃ body, f.node? (some root) = some (.program body)
  top : f.parentOf (some root) = none
  /-- A slot holds a node that stands before its parent and belongs there, if it is not empty. -/
  child : ∀ ⦃i n⦄, f.node? (some i) = some n → ∀ r ∈ n.children,
    (r = none ∧ n.mayLack = true) ∨ ∃ c m, r = some c ∧ c < i ∧ f.parentOf (some c) = some i ∧
      f.node? (some c) = some m ∧ n.takes m = true
  parent : ∀ ⦃i⦄, i < root →
    ∃ p n, f.parentOf (some i) = some p ∧ f.node? (some p) = some n ∧ some i ∈ n.children
  nodup : ∀ ⦃i n⦄, f.node? (some i) = some n → (n.children.filterMap id).Nodup

/-- Every slot holds a node of a kind that belongs there, if it is not empty. -/
def Kinded (f : Forest) : Prop :=
  ∀ ⦃i n⦄, f.node? (some i) = some n → ∀ r ∈ n.children,
    (r = none ∧ n.mayLack = true) ∨ ∃ m, f.node? r = some m ∧ n.takes m = true

variable {f : Forest} {lo hi i : Nat} {r : Ref} {t : Tree}

theorem Kinded.add {n : Node Ref} {pos : Nat} (h : f.Kinded)
    (hn : ∀ r ∈ n.children, ∃ m, f.node? r = some m ∧ n.takes m = true) :
    (f.add n pos).Kinded := by
  intro j m hm r hr
  rcases node?_add_eq_some.1 hm with ⟨-, rfl⟩ | hm
  · obtain ⟨m', hm', htakes⟩ := hn r hr
    exact .inr ⟨m', node?_add_of_node? hm', htakes⟩
  · exact (h hm r hr).imp_right fun ⟨m', hm', htakes⟩ => ⟨m', node?_add_of_node? hm', htakes⟩

theorem Parsed.kinded {root : Nat} (hp : f.Parsed root) : f.Kinded := by
  intro i n hn r hr
  refine (hp.child hn r hr).imp_right ?_
  rintro ⟨k, m, rfl, -, -, hm, htakes⟩
  exact ⟨m, hm, htakes⟩

section

variable {root p : Nat} {n : Node Ref}

theorem Parsed.of_mem_children (hp : f.Parsed root) (hn : f.node? (some p) = some n)
    (hi : some i ∈ n.children) :
    i < p ∧ f.parentOf (some i) = some p ∧ ∃ m, f.node? (some i) = some m ∧ n.takes m = true := by
  rcases hp.child hn _ hi with ⟨h, -⟩ | ⟨k, m, h, hlt, hparent, hm, htakes⟩
  · cases h
  · cases h
    exact ⟨hlt, hparent, m, hm, htakes⟩

/-- The parent of a node lists it. -/
theorem Parsed.of_parentOf (hp : f.Parsed root) (h : f.parentOf (some i) = some p) :
    ∃ n, f.node? (some p) = some n ∧ some i ∈ n.children := by
  have hi : i ≠ root := by
    rintro rfl
    rw [hp.top] at h
    cases h
  have hlt : i < root := by
    have := lt_size_of_parentOf h
    have := hp.size_eq
    omega
  obtain ⟨q, n, hq, hn, hmem⟩ := hp.parent hlt
  obtain rfl : q = p := Option.some.inj (hq.symm.trans h)
  exact ⟨n, hn, hmem⟩

/-- A node is listed once. -/
theorem Parsed.exists_split (hp : f.Parsed root) (hn : f.node? (some p) = some n)
    (hi : some i ∈ n.children) : ∃ before after, n.children = before ++ some i :: after ∧
      some i ∉ before ∧ some i ∉ after := by
  obtain ⟨before, after, heq⟩ := List.append_of_mem hi
  have hnodup := hp.nodup hn
  have hcons : (some i :: after).filterMap id = i :: after.filterMap id := rfl
  rw [heq, List.filterMap_append, hcons, List.nodup_middle, List.nodup_cons, List.mem_append,
    not_or] at hnodup
  exact ⟨before, after, heq, fun h => hnodup.1.1 (List.mem_filterMap.2 ⟨_, h, rfl⟩),
    fun h => hnodup.1.2 (List.mem_filterMap.2 ⟨_, h, rfl⟩)⟩

/-- Parents come behind their children. -/
theorem Parsed.lt_of_parentOf (hp : f.Parsed root) (h : f.parentOf (some i) = some p) :
    i < p ∧ p < f.size := by
  obtain ⟨n, hn, hmem⟩ := hp.of_parentOf h
  exact ⟨(hp.of_mem_children hn hmem).1, lt_size_of_node? hn⟩

/-- The script itself is the only program in it. -/
theorem Parsed.isProgram_eq_false (hp : f.Parsed root) (hn : f.node? (some i) = some n)
    (hi : i ≠ root) : n.isProgram = false := by
  have hlt : i < root := by
    have := lt_size_of_node? hn
    have := hp.size_eq
    omega
  obtain ⟨q, m, -, hm, hmem⟩ := hp.parent hlt
  obtain ⟨-, -, n', hn', htakes⟩ := hp.of_mem_children hm hmem
  obtain rfl : n = n' := Option.some.inj (hn.symm.trans hn')
  cases n
  case program => cases m <;> cases htakes
  all_goals rfl

end

/-- What passes from a node to those below it holds wherever a tree is laid out in which it holds
at the top. -/
theorem Laid.exists_node {P : Tree → Prop}
    (hP : ∀ pos top, P (.node pos top) → ∀ c ∈ top.children, P c)
    (h : Laid f lo hi r t) (ht : P t) (hlo : lo ≤ i) (hhi : i < hi) :
    ∃ lo' pos top, Laid f lo' (i + 1) (some i) (.node pos top) ∧ P (.node pos top) := by
  induction t using Tree.induct generalizing lo hi r with
  | absent =>
    cases h
    omega
  | dangling => cases h
  | node pos top ih =>
    cases h with
    | @node _ last _ _ cell hslots hcell hpos hshape hparent =>
      by_cases hi : i = last
      · subst hi
        exact ⟨lo, pos, top, .node hslots hcell hpos hshape hparent, ht⟩
      · obtain ⟨r, -, u, hu, lo', hi', hlaid, hlo', hhi'⟩ := hslots.exists_range hlo (by omega)
        exact ih _ hu hlaid (hP pos top ht u hu) hlo' hhi'

theorem Laid.exists_part (h : Laid f lo hi r t) (ht : Part t) (hlo : lo ≤ i) (hhi : i < hi) :
    ∃ lo' u, Laid f lo' (i + 1) (some i) u ∧ Part u := by
  obtain ⟨lo', pos, top, hlaid, habsent | hpart⟩ := h.exists_node
    (P := fun t => t = .absent ∨ Part t) (fun pos top ht c hc => by
      rcases ht.resolve_left (by simp) |>.child hc with ⟨rfl, -⟩ | ⟨_, _, -, hpart, -⟩
      · exact .inl rfl
      · exact .inr hpart) (.inr ht) hlo hhi
  · cases habsent
  · exact ⟨lo', _, hlaid, hpart⟩

theorem Laid.exists_parent (h : Laid f lo hi r t) (hlo : lo ≤ i) (hhi : i < hi) (hr : r ≠ some i) :
    ∃ p n, f.parentOf (some i) = some p ∧ f.node? (some p) = some n ∧ some i ∈ n.children := by
  induction t using Tree.induct generalizing lo hi r with
  | absent =>
    cases h
    omega
  | dangling => cases h
  | node pos top ih =>
    cases h with
    | @node _ last _ _ cell hslots hcell hpos hshape hparent =>
      have hi : i ≠ last := fun h => hr (by rw [h])
      obtain ⟨c, hc, u, hu, lo', hi', hlaid, hlo', hhi'⟩ := hslots.exists_range hlo (by omega)
      by_cases hci : c = some i
      · subst hci
        exact ⟨last, cell.node, hparent i hc, by simp [node?, hcell], hc⟩
      · exact ih u hu hlaid hlo' hhi' hci

theorem Laid.child {lo hi i : Nat} {t : Tree} (h : Laid f lo hi (some i) t) (ht : Part t)
    {n : Node Ref} (hn : f.node? (some i) = some n) {r : Ref} (hr : r ∈ n.children) :
    (r = none ∧ n.mayLack = true) ∨ ∃ c m, r = some c ∧ c < i ∧ f.parentOf (some c) = some i ∧
      f.node? (some c) = some m ∧ n.takes m = true := by
  cases h with
  | @node _ _ pos top cell hslots hcell hpos hshape hparent =>
    obtain rfl : cell.node = n := by simpa [node?, hcell] using hn
    obtain ⟨u, hu, lo', hi', -, hhi, hlaid⟩ := hslots.exists_tree hr
    rcases ht.child hu with ⟨rfl, hlack⟩ | ⟨_, top', rfl, -, htakes⟩
    · cases hlaid
      refine .inl ⟨rfl, ?_⟩
      rw [← hlack, ← Node.mayLack_map (fun _ => ()) top, ← Node.mayLack_map (fun _ => ()) cell.node]
      exact congrArg Node.mayLack hshape
    · cases hlaid with
      | @node _ c _ _ cell' _ hcell' _ hshape' _ =>
        refine .inr ⟨c, cell'.node, rfl, by omega, hparent c hr, by simp [node?, hcell'], ?_⟩
        rw [← Node.takes_map_left (fun _ => ()) cell.node, ← Node.takes_map_right fun _ => ()]
        rw [← Node.takes_map_left (fun _ => ()) top, ← Node.takes_map_right fun _ => ()] at htakes
        exact (congrArg₂ Node.takes hshape hshape').trans htakes

theorem Laid.node_eq {top : Node Tree} {pos root : Nat}
    (h : Laid f lo hi (some root) (.node pos top)) :
    ∃ n, f.node? (some root) = some n ∧ n.shape = top.shape ∧
      LaidAll f lo root n.children top.children := by
  cases h with
  | @node _ _ _ _ cell hslots hcell hpos hshape hparent =>
    exact ⟨cell.node, by simp [node?, hcell], hshape, hslots⟩

theorem Laid.nodup {n : Node Ref} (h : Laid f lo hi (some i) t) (hn : f.node? (some i) = some n) :
    (n.children.filterMap id).Nodup := by
  cases h with
  | @node _ _ _ _ cell hslots hcell hpos hshape hparent =>
    obtain rfl : cell.node = n := by simpa [node?, hcell] using hn
    exact hslots.increasing.imp Nat.ne_of_lt

theorem Laid.parsed {root pos : Nat} {body : List Tree}
    (h : Laid f 0 (root + 1) (some root) (.node pos (.program body))) (hsize : f.size = root + 1)
    (htop : f.parentOf (some root) = none) (ht : Part (.node pos (.program body))) :
    f.Parsed root := by
  have hpart {i : Nat} (hi : i < f.size) := h.exists_part ht (Nat.zero_le i) (hsize ▸ hi)
  refine ⟨hsize, ?_, htop, fun i n hn r hr => ?_, fun i hi => ?_, fun i n hn => ?_⟩
  · obtain ⟨n, hn, hshape, -⟩ := h.node_eq
    cases n <;> simp only [Node.shape, Node.map, reduceCtorEq] at hshape
    exact ⟨_, hn⟩
  · obtain ⟨lo, u, hu, hpart'⟩ := hpart (lt_size_of_node? hn)
    exact hu.child hpart' hn hr
  · exact h.exists_parent (Nat.zero_le i) (by omega) (by simpa using Nat.ne_of_gt hi)
  · obtain ⟨lo, u, hu, -⟩ := hpart (lt_size_of_node? hn)
    exact hu.nodup hn

/-- The root of a laid out tree is its last node. -/
theorem ofTree_root {pos : Nat} {top : Node Tree} (ht : (Tree.node pos top).Proper) :
    ∃ root, (ofTree (.node pos top)).1 = some root ∧
      (ofTree (.node pos top)).2.size = root + 1 := by
  have hlaid := (laid_ofTree ht).1
  rw [ofTree_eq, Build.tree_node] at hlaid ⊢
  exact ⟨_, rfl, hlaid.root_eq⟩

theorem parsed_of_parse {source : String} (h : Tree.parse source = .ok t) :
    ∃ root, (ofTree t).1 = some root ∧ (ofTree t).2.Parsed root ∧
      Laid (ofTree t).2 0 (root + 1) (some root) t ∧ Part t := by
  obtain ⟨body, rfl, hpart⟩ := part_of_parse h
  obtain ⟨hlaid, htop⟩ := laid_ofTree hpart.proper
  obtain ⟨root, hroot, hsize⟩ := ofTree_root hpart.proper
  rw [hroot] at hlaid htop
  rw [hsize] at hlaid
  exact ⟨root, hroot, hlaid.parsed hsize htop hpart, hlaid, hpart⟩

/-- A printed parse is parsed to the same forest with the same root, positions aside, exactly if no
member of a number that is written with digits and underscores alone is accessed in it: there the
point would become part of the number. -/
theorem reprint_iff {source : String} {t : Tree} (h : Tree.parse source = .ok t) :
    (∃ t', Tree.parse ((ofTree t).2.tree (ofTree t).1).renderScript = .ok t' ∧
      (ofTree t').1 = (ofTree t).1 ∧ (ofTree t').2.unplaced = (ofTree t).2.unplaced) ↔
    ∀ pos s name, Node.member (.node pos (.literal (.number s))) name ∈ t.nodes →
      isWhole s.toList = false := by
  obtain ⟨body, -, hpart⟩ := part_of_parse h
  rw [tree_ofTree hpart.proper, ← joins_eq_false_iff]
  constructor
  · rintro ⟨t', ht', heq⟩
    obtain ⟨body', -, hpart'⟩ := part_of_parse ht'
    by_contra hj
    exact bare_ne_of_joins h (Bool.of_not_eq_false hj) ht'
      ((bare_eq_iff hpart.proper hpart'.proper).2 heq)
  · intro hj
    obtain ⟨t', ht', hbare⟩ := parse_renderScript h hj
    obtain ⟨body', -, hpart'⟩ := part_of_parse ht'
    exact ⟨t', ht', (bare_eq_iff hpart.proper hpart'.proper).1 hbare⟩

/-- The number swallows the point once the blank between them is gone. -/
theorem not_reprint_spaced_member : ∃ t, Tree.parse "1 .x;" = .ok t ∧
    ¬∃ t', Tree.parse ((ofTree t).2.tree (ofTree t).1).renderScript = .ok t' ∧
      (ofTree t').1 = (ofTree t).1 ∧ (ofTree t').2.unplaced = (ofTree t).2.unplaced := by
  have hj : (Tree.parse "1 .x;").toOption.any Tree.joins = true := by decide +kernel
  cases h : Tree.parse "1 .x;" with
  | error e =>
    rw [h] at hj
    cases hj
  | ok t =>
    rw [h] at hj
    refine ⟨t, rfl, fun hback => ?_⟩
    have hfalse := joins_eq_false_iff.2 ((reprint_iff h).1 hback)
    exact Bool.false_ne_true (hfalse.symm.trans hj)

end Forest

end DebugGuard
