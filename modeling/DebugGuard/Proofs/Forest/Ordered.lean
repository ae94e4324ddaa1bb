import DebugGuard.Proofs.Forest.Parsed
import DebugGuard.Proofs.Forest.Parser
import DebugGuard.Proofs.Script.Extent

/-!
# The order of a parsed script

In the forest that the parser makes, the nodes below another one stand in the order of the source:
their numbers increase, and so do the places where they start, and none of them starts in front of
the node above.  A place is the byte offset of a node or, in a source of less than four gibibytes,
the position that is kept of it.

Main statement: `parse_numbered`, which adds that every node but the root is listed once, by its
parent.
-/

namespace DebugGuard.Forest

open DebugGuard.Tree

variable {f : Forest} {lo hi a b i : Nat} {r : Ref} {rs : List Ref} {t : Tree} {ts : List Tree}

/-- The position that is kept of a node. -/
def posOf? (f : Forest) (r : Ref) : Option Nat :=
  (f.cell? r).map Cell.pos

theorem posOf?_eq : f.posOf? r = (f.startOf? r).map Text.position := by
  rw [posOf?, startOf?, Option.map_map]
  rfl

/-- Of two nodes the first one was made first, and stands first in the source. -/
def Precedes (place : Ref → Option Nat) (i j : Nat) : Prop :=
  i < j ∧ ∃ p q, place (some i) = some p ∧ place (some j) = some q ∧ p < q

/-- A tree that takes up the whole forest, numbered from the leaves up to the root and in the order
of the source, where each node has its place. -/
structure Numbered (f : Forest) (place : Ref → Option Nat) (root : Nat) : Prop where
  /-- The root is the last node. -/
  size_eq : f.size = root + 1
  top : f.parentOf (some root) = none
  /-- Every other node is listed by its parent, once, and by no other node; the parent was made
  later. -/
  listed : ∀ ⦃i⦄, i < root → ∃ p, i < p ∧ p ≤ root ∧ f.parentOf (some i) = some p ∧
    (f.childrenOf (some p)).count i = 1 ∧ ∀ q, i ∈ f.childrenOf (some q) → q = p
  ordered : ∀ i, (f.childrenOf (some i)).Pairwise (Precedes place)
  /-- No node starts behind one of its children. -/
  starts : ∀ ⦃i c⦄, c ∈ f.childrenOf (some i) →
    ∃ p q, place (some i) = some p ∧ place (some c) = some q ∧ p ≤ q

theorem Numbered.congr {place place' : Ref → Option Nat} {root : Nat} (h : f.Numbered place root)
    (hplace : ∀ r, place' r = place r) : f.Numbered place' root := by
  rwa [funext hplace]

theorem Laid.startOf?_eq (h : Laid f lo hi (some i) t) (hs : Spans a b t) :
    f.startOf? (some i) = some a := by
  cases h with
  | node _ hcell hpos =>
    cases hs with
    | node => rw [startOf?, hcell, Option.map_some, hpos]

/-- What is laid out side by side and stands between two places of the source. -/
theorem LaidAll.exists_span (h : LaidAll f lo hi rs ts) (hs : SpansAll a b ts)
    (hi : some i ∈ rs) : lo ≤ i ∧ ∃ q, f.startOf? (some i) = some q ∧ a ≤ q := by
  induction ts generalizing lo a rs with
  | nil =>
    cases h
    cases hi
  | cons t ts ih =>
    cases h with
    | cons hhead htail =>
      cases hs with
      | cons ha hspan hspans =>
        rcases List.mem_cons.1 hi with rfl | hi
        · exact ⟨hhead.root_mem.1, _, hhead.startOf?_eq hspan, ha⟩
        · obtain ⟨hlo, q, hq, hle⟩ := ih htail hspans hi
          exact ⟨Nat.le_trans hhead.le hlo, q, hq, Nat.le_trans ha (Nat.le_trans hspan.le hle)⟩

theorem LaidAll.precedes (h : LaidAll f lo hi rs ts) (hs : SpansAll a b ts) :
    (rs.filterMap id).Pairwise (Precedes f.startOf?) := by
  induction ts generalizing lo a rs with
  | nil =>
    cases h
    exact .nil
  | cons t ts ih =>
    cases h with
    | @cons _ mid _ r _ rs _ hhead htail =>
      cases hs with
      | cons ha hspan hspans =>
        cases r with
        | none => simpa using ih htail hspans
        | some i =>
          rw [show (some i :: rs).filterMap id = i :: rs.filterMap id from rfl]
          refine .cons (fun j hj => ?_) (ih htail hspans)
          obtain ⟨_, hr, rfl⟩ := List.mem_filterMap.1 hj
          obtain ⟨hmid, q, hq, hle⟩ := htail.exists_span hspans hr
          have hpos := hhead.startOf?_eq hspan
          have hij := Nat.lt_of_lt_of_le hhead.root_mem.2 hmid
          -- a node takes up some of the text, so what follows starts behind its start
          cases hhead with
          | node =>
            cases hspan with
            | node hlt => exact ⟨hij, _, q, hpos, hq, Nat.lt_of_lt_of_le hlt hle⟩

/-- Below each node of a laid out tree everything stands in the order of the source. -/
theorem Laid.ordered (h : Laid f lo hi r t) (hs : Spans a b t) (hlo : lo ≤ i) (hhi : i < hi) :
    (f.childrenOf (some i)).Pairwise (Precedes f.startOf?) ∧
      ∃ p, f.startOf? (some i) = some p ∧ p < b ∧
        ∀ c ∈ f.childrenOf (some i), ∃ q, f.startOf? (some c) = some q ∧ p ≤ q := by
  obtain ⟨lo', pos, top, hlaid, a', b', hb, hspan⟩ := h.exists_node
    (P := fun t => ∃ a' b', b' ≤ b ∧ Spans a' b' t) (fun pos top ⟨a', b', hb, hs⟩ c hc => by
      cases hs with
      | node _ hparts =>
        obtain ⟨a'', b'', -, hle, hc⟩ := hparts.of_mem hc
        exact ⟨a'', b'', Nat.le_trans hle hb, hc⟩) ⟨a, b, Nat.le_refl _, hs⟩ hlo hhi
  have hpos := hlaid.startOf?_eq hspan
  obtain ⟨n, hn, -, hslots⟩ := hlaid.node_eq
  have hchildren : f.childrenOf (some i) = n.children.filterMap id := by simp [childrenOf, hn]
  cases hspan with
  | node hlt hparts =>
    rw [hchildren]
    refine ⟨hslots.precedes hparts, _, hpos, Nat.lt_of_lt_of_le hlt hb, fun c hc => ?_⟩
    obtain ⟨_, hc, rfl⟩ := List.mem_filterMap.1 hc
    exact (hslots.exists_span hparts hc).2

/-- The layout of a parsed script is numbered in its order, and nothing starts behind its end. -/
theorem numbered_of_parse {source : String} (h : Tree.parse source = .ok t) :
    ∃ root, (ofTree t).1 = some root ∧ (ofTree t).2.Numbered (ofTree t).2.startOf? root ∧
      ∀ i ≤ root, ∃ p, (ofTree t).2.startOf? (some i) = some p ∧ p ≤ source.utf8ByteSize := by
  obtain ⟨root, hroot, hp, hlaid, -⟩ := parsed_of_parse h
  have hspan := spans_of_parse h
  have hle {i : Nat} {n : Node Ref} (hn : (ofTree t).2.node? (some i) = some n) : i ≤ root := by
    have := lt_size_of_node? hn
    rw [hp.size_eq] at this
    omega
  have hordered {i : Nat} (hi : i ≤ root) :=
    hlaid.ordered hspan (Nat.zero_le i) (Nat.lt_succ_of_le hi)
  refine ⟨root, hroot, ⟨hp.size_eq, hp.top, fun i hi => ?_, fun i => ?_, fun i c hc => ?_⟩,
    fun i hi => ?_⟩
  · obtain ⟨p, n, hparent, hn, hmem⟩ := hp.parent hi
    refine ⟨p, (hp.of_mem_children hn hmem).1, hle hn, hparent, ?_, fun q hq => ?_⟩
    · refine List.count_eq_one_of_mem ?_ (mem_childrenOf.2 ⟨n, hn, hmem⟩)
      simpa [childrenOf, hn] using hp.nodup hn
    · obtain ⟨m, hm, hmem⟩ := mem_childrenOf.1 hq
      exact Option.some.inj ((hp.of_mem_children hm hmem).2.1.symm.trans hparent)
  · by_cases hi : i ≤ root
    · exact (hordered hi).1
    · have hnil : (ofTree t).2.childrenOf (some i) = [] :=
        List.eq_nil_iff_forall_not_mem.2 fun c hc =>
          have ⟨_, hn, _⟩ := mem_childrenOf.1 hc
          hi (hle hn)
      rw [hnil]
      exact .nil
  · obtain ⟨n, hn, -⟩ := mem_childrenOf.1 hc
    obtain ⟨-, p, hpos, -, hstarts⟩ := hordered (hle hn)
    obtain ⟨q, hq, hpq⟩ := hstarts c hc
    exact ⟨p, q, hpos, hq, hpq⟩
  · obtain ⟨-, p, hpos, hlt, -⟩ := hordered hi
    exact ⟨p, hpos, Nat.le_of_lt_succ hlt⟩

/-- Where thirty-two bits are enough for every start, the positions are the starts. -/
theorem posOf?_eq_startOf? {root : Nat} (hsize : f.size = root + 1)
    (hstart : ∀ i ≤ root, ∃ p, f.startOf? (some i) = some p ∧ p < UInt32.size) (r : Ref) :
    f.posOf? r = f.startOf? r := by
  rw [posOf?_eq]
  cases hr : f.startOf? r with
  | none => rfl
  | some p =>
    obtain ⟨cell, hcell, -⟩ := Option.map_eq_some_iff.1 hr
    have hhas : f.Has r := by simp [Has, hcell]
    cases r with
    | none => cases hr
    | some i =>
      have hi : i < root + 1 := by
        rw [← hsize]
        exact has_some.1 hhas
      obtain ⟨q, hq, hlt⟩ := hstart i (Nat.le_of_lt_succ hi)
      obtain rfl := Option.some.inj (hq.symm.trans hr)
      rw [Option.map_some, Text.position_of_lt hlt]

end DebugGuard.Forest
