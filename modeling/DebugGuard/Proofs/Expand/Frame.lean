import DebugGuard.Proofs.Expand.Finish

/-!
# What an expansion changes and what it leaves alone

In a script whose import specifiers bind different names:

* `guarded_iff_imported_before`: a statement that calls a debug tool is guarded if and only if it
  stands behind the import of the tool, and stays as it is if not;
* `expansion_frame`: the lists of the script, the front of it and the expressions of statements that
  call debug tools are all that changes.
-/

namespace DebugGuard

namespace Forest

/-- No two import specifiers of the script bind the same name. -/
def DistinctImports (f : Forest) : Prop :=
  ((List.range f.size).filterMap fun i => f.localName? (some i)).Nodup

instance (f : Forest) : Decidable f.DistinctImports :=
  inferInstanceAs (Decidable (List.Nodup _))

/-- The statement `s` calls a name that an import of the debug tools binds where the statement
stands. -/
def CallsTool (f : Forest) (settings : Settings) (s : Nat) (b : Binding) : Prop :=
  ∃ name, f.calledName? s = some name ∧ f.resolve? (some s) name = some b ∧ b.kind = .module ∧
    f.importsTools settings b.owner = true

/-- The import `i` has to go: it binds the first name of the debug tools. -/
def MustGo (f : Forest) (settings : Settings) (i : Nat) : Prop :=
  settings.helpers.dropsImport = true ∧ ∃ first,
    (f.toolNames settings f.size).head? = some first ∧ first ∈ f.toolNamesOf settings i

variable {f : Forest} {settings : Settings} {root i j s : Nat} {x : String} {b : Binding}

namespace DistinctImports

theorem eq_of_localName? (h : f.DistinctImports) (hi : f.localName? (some i) = some x)
    (hj : f.localName? (some j) = some x) : i = j := by
  have hmem {k : Nat} (hk : f.localName? (some k) = some x) : k ∈ List.range f.size := by
    obtain ⟨n, hn, -⟩ := Option.bind_eq_some_iff.1 hk
    exact List.mem_range.2 (lt_size_of_node? hn)
  have hsymm : Std.Symm fun a c : Nat => ∀ y, f.localName? (some a) = some y →
      ∀ z, f.localName? (some c) = some z → y ≠ z :=
    ⟨fun a c hac y hy z hz => (hac z hz y hy).symm⟩
  by_contra hij
  have hpair := List.pairwise_filterMap.1 h
  exact hpair.forall (hmem hi) (hmem hj) hij x hi x hj rfl

/-- A name is bound by one import only. -/
theorem eq_owner (h : f.DistinctImports) (hp : f.Parsed root) (hdecl : f.Declares b)
    (hk : b.kind = .module) (hx : b.name ∈ f.toolNamesOf settings i) : b.owner = i := by
  unfold toolNamesOf at hx
  split at hx
  next htools =>
    obtain ⟨-, -, specifiers, hi, hspecifiers⟩ := exists_of_importsTools htools
    obtain ⟨r, hr, hname⟩ := List.mem_filterMap.1 hx
    obtain ⟨specifiers', source, howner, hmem, hname'⟩ := hdecl.import_of_module hk
    cases r with
    | none => cases hname
    | some k =>
      obtain rfl : k = b.declaration := h.eq_of_localName? hname hname'
      rw [hspecifiers] at hr
      have hki := (hp.of_mem_children hi hr).2.1
      exact Option.some.inj ((hp.of_mem_children howner hmem).2.1.symm.trans hki)
  next => cases hx

/-- What a statement calls as a debug helper is a debug tool that has been imported before. -/
theorem of_helperCall? (h : f.DistinctImports) (hp : f.Parsed root)
    (hcall : f.helperCall? settings s = some b) : f.CallsTool settings s b ∧ b.owner < s := by
  obtain ⟨name, hname, hmem, hresolve, hk, -⟩ := exists_of_helperCall? hcall
  obtain ⟨-, -, -, rfl, hdecl⟩ := exists_of_resolve? hp.kinded hresolve
  obtain ⟨k, hks, hx⟩ := List.mem_flatMap.1 hmem
  obtain rfl := h.eq_owner hp hdecl hk hx
  refine ⟨⟨b.name, hname, hresolve, hk, ?_⟩, List.mem_range.1 hks⟩
  unfold toolNamesOf at hx
  split at hx
  next htools => exact htools
  next => cases hx

/-- A call of a debug tool is a helper call if and only if the tool has been imported before. -/
theorem helperCall?_iff (h : f.DistinctImports) (hp : f.Parsed root)
    (hcalls : f.CallsTool settings s b) :
    (f.helperCall? settings s).isSome = true ↔ b.owner < s := by
  obtain ⟨name, hname, hresolve, hk, htools⟩ := hcalls
  obtain ⟨-, -, -, rfl, hdecl⟩ := exists_of_resolve? hp.kinded hresolve
  constructor
  · intro hcall
    obtain ⟨b', hcall⟩ := Option.isSome_iff_exists.1 hcall
    obtain ⟨⟨name', hname', hresolve', -⟩, hlt⟩ := h.of_helperCall? hp hcall
    obtain rfl := Option.some.inj (hname.symm.trans hname')
    obtain rfl := Option.some.inj (hresolve.symm.trans hresolve')
    exact hlt
  · exact isSome_helperCall? hp.kinded hname hresolve htools

/-- The import that is removed is the one that has to go. -/
theorem droppedImport?_eq_some_iff (h : f.DistinctImports) (hp : f.Parsed root)
    (hfinds : f.FindsDropped settings root)
    (himport : ∀ i, f.droppedImport? settings root = some i →
      ∃ specifiers source, f.node? (some i) = some (.importFrom specifiers source)) :
    f.droppedImport? settings root = some i ↔ f.MustGo settings i := by
  -- The first name is bound by the import that is removed, and by no other.
  have hfirst {k : Nat} (hk : f.droppedImport? settings root = some k) :
      f.MustGo settings k ∧ ∀ i, f.MustGo settings i → k = i := by
    obtain ⟨hdrops, first, b, hhead, hresolve, rfl⟩ := exists_of_droppedImport? hk
    obtain ⟨-, -, -, rfl, hdecl⟩ := exists_of_resolve? hp.kinded hresolve
    obtain ⟨specifiers, source, howner⟩ := himport _ hk
    have hmod := hdecl.module_of_import howner
    obtain ⟨i, -, hx⟩ := List.mem_flatMap.1 (List.mem_of_mem_head? hhead)
    have hi := h.eq_owner hp hdecl hmod hx
    refine ⟨⟨hdrops, b.name, hhead, hi ▸ hx⟩, ?_⟩
    rintro j ⟨-, first', hhead', hx'⟩
    obtain rfl := Option.some.inj (hhead.symm.trans hhead')
    exact h.eq_owner hp hdecl hmod hx'
  constructor
  · intro hi
    exact (hfirst hi).1
  · intro hi
    have hne : f.toolNames settings f.size ≠ [] := by
      obtain ⟨-, first, hhead, -⟩ := hi
      intro hnil
      rw [hnil] at hhead
      cases hhead
    obtain ⟨k, hk⟩ := Option.isSome_iff_exists.1 (hfinds hi.1 hne)
    rw [hk, (hfirst hk).2 i hi]

end DistinctImports

end Forest

open Forest

variable {settings : Settings} {source : String} {root i s : Nat} {f g : Forest} {b : Binding}

/-- In a script whose import specifiers bind different names, a statement that calls a debug tool is
guarded by the flag if and only if the import of the tool stands in front of the statement;
otherwise the statement stays as it is.  (A node comes behind another one if it ends later.) -/
theorem guarded_iff_imported_before (h : Expands settings source root f g)
    (hdistinct : f.DistinctImports) :
    ∃ flag, (∀ b, f.flagBinding? settings root = some b → flag = debugName) ∧
      (f.flagBinding? settings root = none → f.Lacks flag) ∧
      ∀ s b, f.CallsTool settings s b →
        ((∃ id e, g.node? (some s) = some (.expressionStatement (some e)) ∧
          f.GuardsCall g settings flag s id e) ↔ b.owner < s) ∧
        (s < b.owner → g.node? (some s) = f.node? (some s)) := by
  have hp := h.parsed
  obtain ⟨-, flag, c, site, hexp⟩ := exists_expansion h
  refine ⟨flag, fun b hb => (hexp.imported b hb).1, fun hb => (hexp.injected hb).1,
    fun s b hcalls => ?_⟩
  have hiff := hdistinct.helperCall?_iff hp hcalls
  obtain ⟨name, hname, -⟩ := hcalls
  obtain ⟨r, callee, args, hs, hc, -⟩ := calledName?_eq_some.1 hname
  have hsf := lt_size_of_node? hs
  have hgs : g.node? (some s) = some (.expressionStatement ((c.guarded s).elim r some)) := by
    rw [hexp.graft.old hsf, hs]
    rfl
  have hqueued : s ∈ f.queued settings f.size ↔ b.owner < s := by
    rw [mem_queued, and_iff_right hsf, hiff]
  constructor
  · constructor
    · rintro ⟨id, e, he, helper, call, callee', args', rendered, conditions, -, hs', hc', -, -, left,
        all, -, -, -, hadded⟩
      by_contra hlt
      -- The statement still holds the old call, which is no new node.
      rw [hgs, hexp.unguarded s fun hs => hlt (hqueued.1 hs)] at he
      obtain rfl : r = some e := by simpa using he
      have := lt_size_of_node? hc
      exact Nat.not_lt_of_le hadded.1 this
    · intro hlt
      obtain ⟨id, e, he, hguards⟩ := hexp.guarded s (hqueued.2 hlt)
      exact ⟨id, e, by rw [hgs, he]; rfl, hguards⟩
  · intro hlt
    rw [hgs, hexp.unguarded s fun hs => Nat.lt_asymm hlt (hqueued.1 hs), hs]
    rfl

/-- The call stands in front of the import. -/
theorem call_before_import_stays : ∃ root f g b,
    Expands .standard "assert(true); import { assert } from \"@ember/debug-tools\";" root f g ∧
      f.CallsTool .standard 3 b ∧ g.node? (some 3) = f.node? (some 3) := by
  have hrun : expandsTo .standard "assert(true); import { assert } from \"@ember/debug-tools\";"
      (fun _ f _ => decide (f.DistinctImports ∧ f.calledName? 3 = some "assert" ∧
        f.resolve? (some 3) "assert" = some ⟨"assert", .module, 4, 5⟩ ∧
        f.importsTools .standard 5 = true)) = true := by
    decide +kernel
  obtain ⟨root, f, g, h, hf⟩ := exists_of_expandsTo hrun
  obtain ⟨hdistinct, hname, hresolve, htools⟩ := of_decide_eq_true hf
  obtain ⟨flag, -, -, hcalls⟩ := guarded_iff_imported_before h hdistinct
  have hcall : f.CallsTool .standard 3 ⟨"assert", .module, 4, 5⟩ :=
    ⟨"assert", hname, hresolve, rfl, htools⟩
  exact ⟨root, f, g, _, h, hcall, (hcalls 3 _ hcall).2 (by decide)⟩

/-- In a script whose import specifiers bind different names, this is all that changes:

* an import of features, or of the debug flag, is replaced in its list by constants with the values
  of its flags, in the order of its specifiers;
* the import that binds the first name of the debug tools goes, if the helpers do not need it;
* one constant of a fresh name comes to stand in front of the script, exactly if there are helper
  calls to guard and the debug flag is not imported;
* the expression of a statement is exchanged only if the statement calls a debug tool.

All other nodes of the script stay what they are, and all stay where they were in the source. -/
theorem expansion_frame (h : Expands settings source root f g) (hdistinct : f.DistinctImports) :
    ∃ c : Changes,
      (∀ i < f.size, g.node? (some i) = (f.node? (some i)).map (c.node i) ∧
        g.startOf? (some i) = f.startOf? (some i)) ∧
      (∀ i flags, f.inlinedFlags? settings root i = some flags → ∃ specifiers module ds,
        f.node? (some i) = some (.importFrom specifiers module) ∧ c.replaced i = some ds ∧
          f.AreFlags g flags specifiers ds) ∧
      (∀ i, f.MustGo settings i → c.replaced i = some []) ∧
      (∀ i, f.inlinedFlags? settings root i = none → ¬f.MustGo settings i →
        c.replaced i = none) ∧
      (if f.flagBinding? settings root = none ∧ f.queued settings f.size ≠ [] then
        ∃ d declarator flag, c.front = [d] ∧ f.IsConstant g d declarator flag settings.debug ∧
          f.Lacks flag
      else c.front = []) ∧
      ∀ s e, c.guarded s = some e → ∃ b, f.CallsTool settings s b := by
  have hp := h.parsed
  obtain ⟨hfinds, flag, c, site, hexp⟩ := exists_expansion h
  have hgone (i : Nat) : f.droppedImport? settings root = some i ↔ f.MustGo settings i :=
    hdistinct.droppedImport?_eq_some_iff hp hfinds fun i hi => (hexp.replaced_gone hi).2
  refine ⟨c, fun i hi => ⟨hexp.graft.old hi, hexp.graft.pos hi⟩, fun i flags hflags => ?_,
    fun i hi => ?_, fun i hflags hi => ?_, ?_, fun s e he => ?_⟩
  · obtain ⟨ds, hr⟩ := Option.isSome_iff_exists.1 ((hexp.replaced i).2 (.inl (by rw [hflags]; rfl)))
    obtain ⟨specifiers, module, hn, hds⟩ := hexp.inlines.replaced hr
    rw [hflags] at hds
    exact ⟨specifiers, module, ds, hn, hr, hds⟩
  · exact (hexp.replaced_gone ((hgone i).2 hi)).1
  · rw [← Option.not_isSome_iff_eq_none, hexp.replaced, hflags, hgone]
    simpa using hi
  · split
    next hinject =>
      obtain ⟨hlacks, hfront⟩ := hexp.injected hinject.1
      rw [HasFront, if_neg hinject.2] at hfront
      obtain ⟨d, declarator, hd, hconst⟩ := hfront
      exact ⟨d, declarator, flag, hd, hconst, hlacks⟩
    next hinject =>
      cases hb : f.flagBinding? settings root with
      | some b => exact (hexp.imported b hb).2
      | none =>
        have hq : f.queued settings f.size = [] := by
          by_contra hq
          exact hinject ⟨hb, hq⟩
        have hfront := (hexp.injected hb).2
        rwa [HasFront, if_pos hq] at hfront
  · have hs : s ∈ f.queued settings f.size := by
      by_contra hs
      rw [hexp.unguarded s hs] at he
      cases he
    obtain ⟨b, hb⟩ := Option.isSome_iff_exists.1 (mem_queued.1 hs).2
    exact ⟨b, (hdistinct.of_helperCall? hp hb).1⟩

/-- The import goes, and a constant comes to stand in front. -/
theorem assertion_frame : ∃ root f g d declarator flag,
    Expands .standard "import { assert } from \"@ember/debug-tools\"; assert(true);" root f g ∧
      f.node? (some root) = some (.program [some 1, some 5]) ∧
      g.node? (some root) = some (.program [some d, some 5]) ∧
      f.IsConstant g d declarator flag (.boolean true) := by
  have hrun : expandsTo .standard "import { assert } from \"@ember/debug-tools\"; assert(true);"
      (fun root f _ => decide (f.DistinctImports ∧ root < f.size ∧
        f.node? (some root) = some (.program [some 1, some 5]) ∧
        (f.toolNames .standard f.size).head? = some "assert" ∧
        "assert" ∈ f.toolNamesOf .standard 1 ∧ f.importSource? (some 5) = none ∧
        f.toolNamesOf .standard 5 = [] ∧ f.flagBinding? .standard root = none ∧
        f.queued .standard f.size ≠ [])) = true := by
    decide +kernel
  obtain ⟨root, f, g, h, hf⟩ := exists_of_expandsTo hrun
  obtain ⟨hdistinct, hlt, hroot, hfirst, hmem, hsource, hnone, hflag, hqueued⟩ :=
    of_decide_eq_true hf
  obtain ⟨c, hnode, -, hgo, hstay, hfront, -⟩ := expansion_frame h hdistinct
  rw [if_pos ⟨hflag, hqueued⟩] at hfront
  obtain ⟨d, declarator, flag, hd, hconst, -⟩ := hfront
  have hgone : c.replaced 1 = some [] := hgo 1 ⟨rfl, "assert", hfirst, hmem⟩
  have hkept : c.replaced 5 = none := by
    refine hstay 5 (by rw [inlinedFlags?, hsource]; rfl) ?_
    rintro ⟨-, first, -, hfirst'⟩
    rw [hnone] at hfirst'
    cases hfirst'
  refine ⟨root, f, g, d, declarator, flag, h, hroot, ?_, hconst⟩
  rw [(hnode root hlt).1, hroot]
  simp [Changes.node, Changes.list, Changes.place, hgone, hkept, hd]

end DebugGuard
