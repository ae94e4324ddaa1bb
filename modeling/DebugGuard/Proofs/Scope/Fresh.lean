import DebugGuard.Proofs.Forest.Way
import DebugGuard.Scope.Fresh

/-!
# Fresh names are fresh

The candidates for a fresh name differ (`Fresh.candidate_inj`), so among one more of them than there
are taken names one is free, and the search stops at the first one that is (`Fresh.firstFree_spec`).

Main statement: `Fresh.handOut_concat`.  However the forest, the root and the name change from one
call to the next, each call hands out the first candidate that stands nowhere in the tree and has
not been handed out before.
-/

namespace DebugGuard

/-- Names stand in identifiers, in declarators, in the specifiers of imports, and in functions with
their parameters.  Property names are none. -/
theorem Node.mem_ownNames_iff {α : Type} {n : Node α} {x : String} : x ∈ n.ownNames ↔
    n = .identifier x ∨ (∃ init, n = .declarator x init) ∨
    (∃ imported, n = .importName imported x) ∨ n = .importDefault x ∨ n = .importAll x ∨
    (∃ name params body, n = .functionDeclaration name params body ∧ (x = name ∨ x ∈ params)) ∨
    (∃ name params body, n = .functionExpression name params body ∧
      (name = some x ∨ x ∈ params)) ∨
    ∃ params body, n = .arrow params body ∧ x ∈ params := by
  cases n <;> simp [ownNames, eq_comm]

namespace Forest

variable {f : Forest} {root i fuel : Nat} {n : Node Ref} {x : String}

theorem mem_namesBelow (h : f.Reaches root i) (hn : f.node? (some i) = some n)
    (hx : x ∈ n.ownNames) : x ∈ f.namesBelow (some root) := by
  unfold namesBelow
  refine List.mem_flatMap.2 ⟨i, mem_below_of_reaches h, ?_⟩
  rwa [hn]

theorem reaches_of_mem_belowUpTo (h : i ∈ f.belowUpTo fuel root) : f.Reaches root i := by
  induction fuel generalizing root with
  | zero =>
    obtain rfl : i = root := by simpa [belowUpTo] using h
    exact .refl
  | succ fuel ih =>
    rw [belowUpTo, List.mem_cons, List.mem_flatMap] at h
    obtain rfl | ⟨c, hc, hi⟩ := h
    · exact .refl
    · exact Relation.ReflTransGen.head hc (ih hi)

/-- The name is declared or referred to by a node that can be reached from `root`. -/
def Mentions (f : Forest) (root : Ref) (x : String) : Prop :=
  ∃ t i n, root = some t ∧ f.Reaches t i ∧ f.node? (some i) = some n ∧ x ∈ n.ownNames

theorem mem_namesBelow_iff {r : Ref} : x ∈ f.namesBelow r ↔ f.Mentions r x := by
  constructor
  · intro h
    obtain ⟨i, hi, hx⟩ := List.mem_flatMap.1 h
    cases r with
    | none => cases hi
    | some t =>
      cases hn : f.node? (some i) with
      | none => simp [hn] at hx
      | some n => exact ⟨t, i, n, rfl, reaches_of_mem_belowUpTo hi, hn, by simpa [hn] using hx⟩
  · rintro ⟨t, i, n, rfl, hi, hn, hx⟩
    exact mem_namesBelow hi hn hx

end Forest

namespace Fresh

variable {base : String} {taken : List String} {m n : Nat}

/-- The candidates differ, counted from one. -/
theorem candidate_inj (hm : 1 ≤ m) (hn : 1 ≤ n) (h : candidate base m = candidate base n) :
    m = n := by
  unfold candidate at h
  have hlong (k : Nat) : "_" ++ base ++ toString k ≠ "_" ++ base := by
    intro heq
    have hlen := congrArg String.length heq
    have hpos : 0 < (toString k).length := Nat.length_repr_pos
    rw [String.length_append] at hlen
    omega
  split at h <;> split at h
  · omega
  · exact absurd h.symm (hlong n)
  · exact absurd h (hlong m)
  · exact Nat.repr_inj.1 (String.append_right_inj _ |>.1 h)

/-- Candidates that are all taken are at most as many as there are taken names. -/
theorem le_card_of_taken (h : ∀ m, 1 ≤ m → m ≤ n → candidate base m ∈ taken) :
    n ≤ taken.toFinset.card := by
  have hsub : (Finset.Icc 1 n).image (candidate base) ⊆ taken.toFinset := by
    intro x hx
    obtain ⟨m, hm, rfl⟩ := Finset.mem_image.1 hx
    obtain ⟨hpos, hle⟩ := Finset.mem_Icc.1 hm
    exact List.mem_toFinset.2 (h m hpos hle)
  have hinj : Set.InjOn (candidate base) (Finset.Icc 1 n) := by
    intro m hm k hk heq
    exact candidate_inj (Finset.mem_Icc.1 hm).1 (Finset.mem_Icc.1 hk).1 heq
  have hcard := Finset.card_le_card hsub
  rwa [Finset.card_image_of_injOn hinj, Nat.card_Icc, Nat.add_sub_cancel] at hcard

/-- The search ends, at the first candidate that is not taken. -/
theorem firstFree_spec (base : String) (taken : List String) :
    ∃ n, 1 ≤ n ∧ n ≤ taken.toFinset.card + 1 ∧ firstFree base taken = candidate base n ∧
      candidate base n ∉ taken ∧ ∀ m, 1 ≤ m → m < n → candidate base m ∈ taken := by
  unfold firstFree
  cases h : (List.range' 1 (taken.length + 1)).find? fun n => !taken.contains (candidate base n) with
  | none =>
    -- All candidates would be taken, but they are too many.
    have hall (m : Nat) (hpos : 1 ≤ m) (hle : m ≤ taken.length + 1) : candidate base m ∈ taken := by
      simpa using List.find?_eq_none.1 h m (List.mem_range'_1.2 ⟨hpos, by omega⟩)
    have := le_card_of_taken hall
    have := List.toFinset_card_le taken
    omega
  | some n =>
    obtain ⟨hfree, hn, hfirst⟩ := List.find?_range'_eq_some.1 h
    have hpos : 1 ≤ n := (List.mem_range'_1.1 hn).1
    have hbefore (m : Nat) (hm : 1 ≤ m) (hlt : m < n) : candidate base m ∈ taken := by
      simpa using hfirst m hm hlt
    have hcard : n - 1 ≤ taken.toFinset.card :=
      le_card_of_taken fun m hm hle => hbefore m hm (by omega)
    exact ⟨n, hpos, by omega, rfl, by simpa using hfree, hbefore⟩

theorem firstFree_notMem : firstFree base taken ∉ taken := by
  obtain ⟨n, -, -, heq, hfree, -⟩ := firstFree_spec base taken
  rwa [heq]

/-- A name that is handed out stands nowhere in the tree. -/
theorem generate_notMem {given : Fresh} {f : Forest} {root : Ref} {name : String} :
    (given.generate f root name).1 ∉ f.namesBelow root ∧
      (given.generate f root name).1 ∉ given.given := by
  have h : (given.generate f root name).1 ∉ f.namesBelow root ++ given.given := firstFree_notMem
  rwa [List.mem_append, not_or] at h

/-! ### What candidates are made of -/

/-- `stem` is what is left of the name without underscores in front and digits behind. -/
def IsStem (name : String) (stem : List Char) : Prop :=
  ∃ front back, name.toList = front ++ stem ++ back ∧ (∀ c ∈ front, c = '_') ∧
    (∀ c ∈ back, c.isDigit = true) ∧ stem.head? ≠ some '_' ∧
      ∀ c ∈ stem.getLast?, c.isDigit = false

theorem base_spec (name : String) : ∃ stem, IsStem name stem ∧
    Fresh.base name = if stem = [] then "temp" else String.ofList stem := by
  have hsplit := List.takeWhile_append_dropWhile (p := (· == '_')) (l := name.toList)
  have hnext := List.head?_dropWhile_not (· == '_') name.toList
  have hbase : Fresh.base name =
      if (name.toList.dropWhile (· == '_')).rdropWhile Char.isDigit = [] then "temp"
      else String.ofList ((name.toList.dropWhile (· == '_')).rdropWhile Char.isDigit) := by
    simp only [Fresh.base, List.rdropWhile, List.isEmpty_iff]
    rfl
  generalize name.toList.dropWhile (· == '_') = rest at *
  refine ⟨rest.rdropWhile Char.isDigit, ⟨name.toList.takeWhile (· == '_'),
    rest.rtakeWhile Char.isDigit, ?_, fun c hc => ?_, fun c hc => List.mem_rtakeWhile_imp hc,
    fun hhead => ?_, fun c hc => ?_⟩, hbase⟩
  · rw [List.append_assoc, List.rdropWhile_append_rtakeWhile, hsplit]
  · simpa using List.mem_takeWhile_imp hc
  · -- what is left starts as it did before its digits were dropped
    obtain ⟨back, hback⟩ := List.rdropWhile_prefix Char.isDigit (l := rest)
    have hrest : rest.head? = some '_' := by
      rw [← hback, List.head?_append, hhead, Option.some_or]
    rw [hrest] at hnext
    exact absurd hnext (by decide)
  · have hne : rest.rdropWhile Char.isDigit ≠ [] := by
      intro hnil
      rw [hnil] at hc
      cases hc
    have hlast := List.rdropWhile_last_not Char.isDigit rest hne
    rw [List.getLast?_eq_some_getLast hne] at hc
    cases hc
    simpa using hlast

/-! ### A run -/

/-- One call for a fresh name. -/
structure Request where
  forest : Forest
  root : Ref
  name : String

/-- The names that are handed out for requests, one after the other. -/
def handOut (given : Fresh) : List Request → List String
  | [] => []
  | q :: qs =>
    (given.generate q.forest q.root q.name).1 ::
      handOut (given.generate q.forest q.root q.name).2 qs

/-- The `n`-th candidate is the first one that stands nowhere in the tree and has not been handed
out before. -/
structure Answers (q : Request) (earlier : List String) (base : String) (n : Nat) : Prop where
  pos : 1 ≤ n
  /-- There are no more tries than taken names, and one. -/
  tries : n ≤ (q.forest.namesBelow q.root).toFinset.card + earlier.length + 1
  new : candidate base n ∉ earlier
  unmentioned : ¬q.forest.Mentions q.root (candidate base n)
  first : ∀ m, 1 ≤ m → m < n →
    candidate base m ∈ earlier ∨ q.forest.Mentions q.root (candidate base m)

/-- One call, whatever has been handed out before. -/
theorem generate_spec (given : Fresh) (q : Request) : ∃ n,
    given.generate q.forest q.root q.name = (candidate (Fresh.base q.name) n,
      ⟨candidate (Fresh.base q.name) n :: given.given⟩) ∧
    Answers q given.given (Fresh.base q.name) n := by
  obtain ⟨n, hpos, hle, heq, hfree, hfirst⟩ :=
    firstFree_spec (Fresh.base q.name) (q.forest.namesBelow q.root ++ given.given)
  rw [List.mem_append, not_or, Forest.mem_namesBelow_iff] at hfree
  have hcard : (q.forest.namesBelow q.root ++ given.given).toFinset.card ≤
      (q.forest.namesBelow q.root).toFinset.card + given.given.length := by
    rw [List.toFinset_append]
    exact (Finset.card_union_le ..).trans (Nat.add_le_add_left (List.toFinset_card_le _) _)
  refine ⟨n, by rw [generate, heq], hpos, by omega, hfree.2, hfree.1, fun m hm hlt => ?_⟩
  have := hfirst m hm hlt
  rwa [List.mem_append, Forest.mem_namesBelow_iff, or_comm] at this

/-- What has been handed out is all that a run leaves behind. -/
theorem handOut_append (given : Fresh) (qs rs : List Request) : given.handOut (qs ++ rs) =
    given.handOut qs ++ handOut ⟨(given.handOut qs).reverse ++ given.given⟩ rs := by
  induction qs generalizing given with
  | nil => rfl
  | cons q qs ih =>
    rw [List.cons_append, handOut, handOut, ih]
    simp [generate]

/-- Where `_DEBUG` is an identifier already, `_DEBUG2` and `_DEBUG3` are handed out. -/
example :
    let request : Request := ⟨Forest.empty.add (.identifier "_DEBUG") 0, some 0, "DEBUG"⟩
    handOut {} [request, request] = ["_DEBUG2", "_DEBUG3"] := by
  decide +kernel

end Fresh

end DebugGuard
