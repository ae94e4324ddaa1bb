import DebugGuard.Proofs.Expand.Finish

/-!
# The order of statements

An import is there before any statement of the script runs, wherever it stands.  A constant is there
once its declaration has run, and the constants for an inlined import stand where the import stood:

* `constant_before_use_iff`: a statement that needs such a constant as it runs comes behind it if and
  only if it came behind the import;
* `use_before_constant`: so there are scripts with a use in front of the constant.
-/

namespace DebugGuard

/-- In the list, `a` stands in front of `b`. -/
def Before (a b : Nat) (l : List Ref) : Prop :=
  [some a, some b].Sublist l

instance (a b : Nat) (l : List Ref) : Decidable (Before a b l) :=
  inferInstanceAs (Decidable (List.Sublist _ _))

namespace Forest

/-- The node `i` is `s` or stands below it, and in no function that `s` holds or is. -/
def RunsIn (f : Forest) (s i : Nat) : Prop :=
  Relation.ReflTransGen
    (fun p c => f.nodeIs Node.isFunction (some p) = false ∧ c ∈ f.childrenOf (some p)) s i

/-- As the statement `s` runs, it needs what `d` declares. -/
def Needs (f : Forest) (s d : Nat) : Prop :=
  ∃ i x b, f.RunsIn s i ∧ f.node? (some i) = some (.identifier x) ∧
    f.resolve? (some i) x = some b ∧ b.owner = d

end Forest

/-- These are the changes that the pass has made.  What it puts into the script is new: in the place
of an import that is inlined, there are constants for its specifiers, and in the place of the one
that is removed there is nothing. -/
structure Changes.Made (c : Changes) (f g : Forest) (settings : Settings) (root : Nat) : Prop where
  node : ∀ ⦃i⦄, i < f.size → g.node? (some i) = (f.node? (some i)).map (c.node i)
  above : c.Above f.size
  inlined : ∀ ⦃i flags⦄, f.inlinedFlags? settings root i = some flags →
    ∃ specifiers module ds, f.node? (some i) = some (.importFrom specifiers module) ∧
      c.replaced i = some ds ∧ f.AreFlags g flags specifiers ds
  dropped : ∀ ⦃i⦄, f.droppedImport? settings root = some i → c.replaced i = some []
  kept : ∀ ⦃i⦄, f.inlinedFlags? settings root i = none →
    f.droppedImport? settings root ≠ some i → c.replaced i = none

open Forest

variable {f g : Forest} {settings : Settings} {source flag x name : String}
  {root a b i d s m declarator : Nat} {c : Changes} {site : Nat → Nat} {ds : List Nat}
  {l l' body : List Ref} {value : Literal}

/-! ### Lists -/

theorem before_append (ha : some a ∈ l) (hb : some b ∈ l') : Before a b (l ++ l') :=
  (List.singleton_sublist.2 ha).append (List.singleton_sublist.2 hb)

theorem not_before_append (ha : some a ∉ l) (hb : some b ∉ l') : ¬Before a b (l ++ l') := by
  intro h
  obtain ⟨left, right, heq, hleft, hright⟩ := List.sublist_append_iff.1 h
  cases left with
  | nil =>
    rw [List.nil_append] at heq
    exact hb (hright.subset (by simp [← heq]))
  | cons r left =>
    obtain ⟨rfl, -⟩ : some a = r ∧ _ := by simpa using heq
    exact ha (hleft.subset List.mem_cons_self)

/-- What comes in the place of a statement comes behind the same others as the statement did. -/
theorem Changes.before_list_iff (h : c.Above m) (hr : c.replaced i = some ds) (hd : d ∈ ds)
    (hbody : ∀ j, body.count (some j) ≤ 1)
    (honce : (c.front.map some ++ c.list body).count (some d) ≤ 1) (hi : some i ∈ body)
    (hs : some s ∈ body) (hsm : s < m) (hkept : c.replaced s = none) :
    Before d s (c.front.map some ++ c.list body) ↔ Before i s body := by
  obtain ⟨before, after, rfl⟩ := List.append_of_mem hi
  have hne : s ≠ i := by
    rintro rfl
    cases hr.symm.trans hkept
  have hplace : c.place (some i) = ds.map some := by simp [place, hr]
  have hlist : c.front.map some ++ c.list (before ++ some i :: after) =
      (c.front.map some ++ c.list before) ++ (ds.map some ++ c.list after) := by
    rw [list_append, list_cons, hplace, List.append_assoc]
  rw [hlist] at honce ⊢
  have hdq : some d ∈ ds.map some ++ c.list after := by simp [hd]
  have hbefore := hbody i
  rw [List.count_append, List.count_cons_self] at hbefore
  rcases List.mem_append.1 hs with hs | hs
  · -- the statement stands in front, so neither comes behind it
    have hafter : some s ∉ after := by
      intro hmem
      have hcount := hbody s
      rw [List.count_append, List.count_cons_of_ne (by simpa using hne.symm)] at hcount
      have hpos := List.count_pos_iff.2 hs
      have hpos' := List.count_pos_iff.2 hmem
      omega
    refine iff_of_false (not_before_append ?_ ?_) (not_before_append ?_ ?_)
    · rw [← List.count_eq_zero]
      rw [List.count_append] at honce
      have hpos := List.count_pos_iff.2 hdq
      omega
    · rw [List.mem_append, Changes.mem_list, not_or, not_or]
      refine ⟨fun hmem => ?_, fun hmem => hafter hmem.1, ?_⟩
      · exact Nat.not_le_of_lt hsm (h.replaced hr s (by simpa using hmem))
      · rintro ⟨k, ds', -, hk, hmem⟩
        exact Nat.not_le_of_lt hsm (h.replaced hk s hmem)
    · rw [← List.count_eq_zero]
      omega
    · simp [hne, hafter]
  · -- the statement stands behind, and stays there
    have hs : some s ∈ after := (List.mem_cons.1 hs).resolve_left (by simpa using hne)
    have hsq : some s ∈ c.list after := Changes.mem_list.2 (.inl ⟨hs, hkept⟩)
    refine iff_of_true ?_ ?_
    · exact List.sublist_append_of_sublist_right (before_append (by simp [hd]) hsq)
    · exact List.sublist_append_of_sublist_right (before_append (List.mem_singleton_self _) hs)

/-- The constants for the specifiers of an inlined import of the script stand among its
statements. -/
theorem Changes.Made.exists_constants (h : c.Made f g settings root) {flags : Flags}
    (hflags : f.inlinedFlags? settings root i = some flags) {specifiers body' : List Ref}
    {module : String} (hn : f.node? (some i) = some (.importFrom specifiers module))
    (hbody : f.node? (some root) = some (.program body)) (hi : some i ∈ body)
    (hbody' : g.node? (some root) = some (.program body')) :
    ∃ ds, c.replaced i = some ds ∧ ds.length = specifiers.length ∧
      ∀ d ∈ ds, f.size ≤ d ∧ some d ∈ body' := by
  obtain ⟨specifiers', module', ds, hn', hr, hds⟩ := h.inlined hflags
  obtain ⟨rfl, -⟩ : specifiers' = specifiers ∧ module' = module := by
    simpa using hn'.symm.trans hn
  rw [h.node (lt_size_of_node? hbody), hbody] at hbody'
  obtain rfl : c.front.map some ++ c.list body = body' := by simpa [Changes.node] using hbody'
  refine ⟨ds, hr, hds.length_eq.symm, fun d hd => ⟨h.above.replaced hr d hd, ?_⟩⟩
  exact List.mem_append_right _ (mem_list.2 (.inr ⟨i, ds, hi, hr, hd⟩))

/-! ### Uses -/

namespace Forest

theorem RunsIn.reaches (h : f.RunsIn s i) : f.Reaches s i := by
  induction h with
  | refl => exact .refl
  | tail _ hc ih => exact ih.tail hc.2

/-- There are no names in the declaration of a constant. -/
theorem IsConstant.not_identifier (h : f.IsConstant g d declarator name value)
    (hreach : g.Reaches d i) : g.node? (some i) ≠ some (.identifier x) := by
  obtain ⟨hdecl, l, hdeclarator, hl⟩ := h
  intro hi
  rcases Relation.ReflTransGen.cases_head hreach with rfl | ⟨j, hj, hreach⟩
  · cases hi.symm.trans hdecl.2
  rw [childrenOf_eq hdecl.2] at hj
  obtain rfl : j = declarator := by simpa [Node.children] using hj
  rcases Relation.ReflTransGen.cases_head hreach with rfl | ⟨k, hk, hreach⟩
  · cases hi.symm.trans hdeclarator.2
  rw [childrenOf_eq hdeclarator.2] at hk
  obtain rfl : k = l := by simpa [Node.children] using hk
  rcases Relation.ReflTransGen.cases_head hreach with rfl | ⟨_, hmem, -⟩
  · cases hi.symm.trans hl.2
  rw [childrenOf_eq hl.2] at hmem
  simp [Node.children] at hmem

end Forest

namespace Expansion

theorem made (h : Expansion f settings root (f.droppedImport? settings root) flag c site g) :
    c.Made f g settings root where
  node := h.graft.old
  above := h.graft.above
  inlined i flags hflags := by
    obtain ⟨ds, hr⟩ := Option.isSome_iff_exists.1 ((h.replaced i).2 (.inl (by rw [hflags]; rfl)))
    obtain ⟨specifiers, module, hn, hds⟩ := h.inlines.replaced hr
    rw [hflags] at hds
    exact ⟨specifiers, module, ds, hn, hr, hds⟩
  dropped i hi := (h.replaced_gone hi).1
  kept i hflags hi := by
    rw [← Option.not_isSome_iff_eq_none, h.replaced, hflags]
    simpa using hi

/-- A statement that needs anything is one of the script: what comes in is constants. -/
theorem mem_of_needs {gone : Option Nat} (h : Expansion f settings root gone flag c site g)
    (hs : some s ∈ c.front.map some ++ c.list body) (hneeds : g.Needs s d) :
    some s ∈ body ∧ c.replaced s = none := by
  obtain ⟨i, x, -, hruns, hi, -⟩ := hneeds
  rw [List.mem_append, Changes.mem_list] at hs
  rcases hs with hfront | hs | ⟨k, ds, -, hk, hmem⟩
  · obtain ⟨declarator, name, value, hconst⟩ := h.inlines.front s (by simpa using hfront)
    exact absurd hi (hconst.not_identifier hruns.reaches)
  · exact hs
  · obtain ⟨declarator, name, value, hconst⟩ := h.inlines.isConstant hk hmem
    exact absurd hi (hconst.not_identifier hruns.reaches)

end Expansion

/-- The constants for an inlined import of the script take its place in the list of statements, and
statements stay in their order.  So a statement of the expanded script that needs such a constant
comes behind it if and only if the statement came behind the import. -/
theorem constant_before_use_iff (h : Expands settings source root f g) :
    ∃ c body body', Changes.Made c f g settings root ∧
      f.node? (some root) = some (.program body) ∧
      g.node? (some root) = some (.program body') ∧
      ∀ i ds d s, some i ∈ body → c.replaced i = some ds → d ∈ ds → some s ∈ body' →
        g.Needs s d → (Before d s body' ↔ Before i s body) := by
  have hp := h.parsed
  obtain ⟨-, flag, c, site, hexp⟩ := exists_expansion h
  obtain ⟨body, hbody⟩ := hp.script
  have hbody' : g.node? (some root) = some (.program (c.front.map some ++ c.list body)) := by
    rw [hexp.graft.old (lt_size_of_node? hbody), hbody]
    rfl
  refine ⟨c, body, _, hexp.made, hbody, hbody', fun i ds d s hi hr hd hs hneeds => ?_⟩
  obtain ⟨hsb, hkept⟩ := hexp.mem_of_needs hs hneeds
  have hsf : s < f.size := by
    obtain ⟨-, -, n, hn, -⟩ := hp.of_mem_children hbody hsb
    exact lt_size_of_node? hn
  refine Changes.before_list_iff hexp.graft.above hr hd (fun j => ?_) ?_ hi hsb hsf hkept
  · have hnodup := List.nodup_iff_count_le_one.1 (hp.nodup hbody) j
    rwa [count_filterMap_id] at hnodup
  · -- a new node is listed once
    have honce := hexp.ledger.once (hexp.graft.above.replaced hr d hd)
    have hle := count_childrenOf_le (f := g) (i := d) root
    rw [count_childrenOf hbody'] at hle
    have hone : g.listing.count d ≤ 1 := by split at honce <;> omega
    exact Nat.le_trans hle hone

/-- A use of the flag behind its import. -/
theorem flag_before_use : ∃ root f g body,
    Expands .standard "import { DEBUG } from \"@ember/env-flags\"; foo(DEBUG);" root f g ∧
      g.node? (some root) = some (.program body) ∧ g.Needs 5 9 ∧ Before 9 5 body := by
  have hrun : expandsTo .standard "import { DEBUG } from \"@ember/env-flags\"; foo(DEBUG);"
      (fun root f g => decide (f.size = 7 ∧
        f.inlinedFlags? .standard root 1 = some Settings.standard.envFlags ∧
        f.node? (some 1) = some (.importFrom [some 0] envFlagsModule) ∧
        f.node? (some root) = some (.program [some 1, some 5]) ∧
        g.node? (some root) = some (.program [some 9, some 5]) ∧
        g.nodeIs Node.isFunction (some 5) = false ∧ 4 ∈ g.childrenOf (some 5) ∧
        g.nodeIs Node.isFunction (some 4) = false ∧ 3 ∈ g.childrenOf (some 4) ∧
        g.node? (some 3) = some (.identifier debugName) ∧
        g.resolve? (some 3) debugName = some ⟨debugName, .constant, 8, 9⟩)) = true := by
    decide +kernel
  obtain ⟨root, f, g, h, hf⟩ := exists_of_expandsTo hrun
  obtain ⟨hsize, hflags, hn, hbody₀, hbody₀', hf₅, h₄, hf₄, h₃, hx, hresolve⟩ :=
    of_decide_eq_true hf
  have hneeds : g.Needs 5 9 :=
    ⟨3, debugName, _, .tail (.tail .refl ⟨hf₅, h₄⟩) ⟨hf₄, h₃⟩, hx, hresolve, rfl⟩
  obtain ⟨c, body, body', hmade, hbody, hbody', hiff⟩ := constant_before_use_iff h
  obtain rfl : [some 1, some 5] = body := by simpa using hbody₀.symm.trans hbody
  obtain rfl : [some 9, some 5] = body' := by simpa using hbody₀'.symm.trans hbody'
  obtain ⟨ds, hr, hlen, hds⟩ := hmade.exists_constants hflags hn hbody (by simp) hbody'
  obtain ⟨d, rfl⟩ := List.length_eq_one_iff.1 hlen
  obtain ⟨hd, hmem⟩ := hds d (List.mem_singleton_self d)
  obtain rfl : d = 9 := by
    simp only [List.mem_cons, Option.some.injEq, List.not_mem_nil, or_false] at hmem
    omega
  refine ⟨root, f, g, _, h, hbody', hneeds, ?_⟩
  exact (hiff 1 _ 9 5 (by simp) hr (by simp) (by simp) hneeds).2 (by decide)

/-- A use of the flag in front of its import stays in front of the constant. -/
theorem use_before_constant : ¬∀ (settings : Settings) (source : String) (root : Nat)
    (f g : Forest), Expands settings source root f g →
      ∃ c body body', Changes.Made c f g settings root ∧
        f.node? (some root) = some (.program body) ∧
        g.node? (some root) = some (.program body') ∧
        ∀ i ds d s, some i ∈ body → c.replaced i = some ds → d ∈ ds → some s ∈ body' →
          g.Needs s d → Before d s body' := by
  intro hfirst
  have hrun : expandsTo .standard "foo(DEBUG); import { DEBUG } from \"@ember/env-flags\";"
      (fun root f g => decide (f.size = 7 ∧
        f.inlinedFlags? .standard root 5 = some Settings.standard.envFlags ∧
        f.node? (some 5) = some (.importFrom [some 4] envFlagsModule) ∧
        f.node? (some root) = some (.program [some 3, some 5]) ∧
        g.node? (some root) = some (.program [some 3, some 9]) ∧
        g.nodeIs Node.isFunction (some 3) = false ∧ 2 ∈ g.childrenOf (some 3) ∧
        g.nodeIs Node.isFunction (some 2) = false ∧ 1 ∈ g.childrenOf (some 2) ∧
        g.node? (some 1) = some (.identifier debugName) ∧
        g.resolve? (some 1) debugName = some ⟨debugName, .constant, 8, 9⟩)) = true := by
    decide +kernel
  obtain ⟨root, f, g, h, hf⟩ := exists_of_expandsTo hrun
  obtain ⟨hsize, hflags, hn, hbody₀, hbody₀', hf₃, h₂, hf₂, h₁, hx, hresolve⟩ :=
    of_decide_eq_true hf
  have hneeds : g.Needs 3 9 :=
    ⟨1, debugName, _, .tail (.tail .refl ⟨hf₃, h₂⟩) ⟨hf₂, h₁⟩, hx, hresolve, rfl⟩
  obtain ⟨c, body, body', hmade, hbody, hbody', hbefore⟩ := hfirst _ _ _ _ _ h
  obtain rfl : [some 3, some 5] = body := by simpa using hbody₀.symm.trans hbody
  obtain rfl : [some 3, some 9] = body' := by simpa using hbody₀'.symm.trans hbody'
  obtain ⟨ds, hr, hlen, hds⟩ := hmade.exists_constants hflags hn hbody (by simp) hbody'
  obtain ⟨d, rfl⟩ := List.length_eq_one_iff.1 hlen
  obtain ⟨hd, hmem⟩ := hds d (List.mem_singleton_self d)
  obtain rfl : d = 9 := by
    simp only [List.mem_cons, Option.some.injEq, List.not_mem_nil, or_false] at hmem
    omega
  exact absurd (hbefore 5 _ 9 3 (by simp) hr (by simp) (by simp) hneeds) (by decide)

end DebugGuard
