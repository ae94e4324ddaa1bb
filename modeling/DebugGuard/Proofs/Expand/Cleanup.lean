import DebugGuard.Proofs.Expand.Finish

/-!
# What has become of the imports

* `tools_import_stands_iff`: of the imports of the debug tools, those are left that are not inlined
  and not the one import that is removed;
* `tools_callee_unreached`: a call that stands as a statement behind an import of the debug tools
  does not use the import any more, unless calls are kept.
-/

namespace DebugGuard

open Forest

variable {f g : Forest} {settings : Settings} {source module flag x : String} {root i s : Nat}
  {keep : Prop} {c : Changes} {site : Nat → Nat} {gone : Option Nat} {n : Node Ref} {b : Binding}
  {specifiers : List Ref}

/-- A node of the script that is reached is held by its old parent, or a new node holds it and it
has been lent. -/
theorem Forest.Graft.exists_holder (h : f.Graft keep c site ∅ g) (hp : f.Parsed root)
    (hreach : g.Reaches root i) (hi : i < f.size) (hne : i ≠ root) :
    ∃ j m, g.Reaches root j ∧ g.node? (some j) = some m ∧ some i ∈ m.children ∧
      (f.parentOf (some i) = some j ∨ f.size ≤ j ∧ f.Lends keep (site j) i) := by
  rcases Relation.ReflTransGen.cases_tail hreach with rfl | ⟨j, hj, hij⟩
  · exact absurd rfl hne
  · obtain ⟨m, hm, hmem⟩ := mem_childrenOf.1 hij
    refine ⟨j, m, hj, hm, hmem, ?_⟩
    rcases Nat.lt_or_ge j f.size with hjf | hjf
    · obtain ⟨n, hn, rfl⟩ := Option.map_eq_some_iff.1 ((h.old hjf).symm.trans hm)
      exact .inl (hp.of_mem_children hn (h.above.mem_children hi hmem)).2.1
    · rcases h.holds hjf hm hmem with ⟨hfi, -⟩ | ⟨hlends, -⟩
      · exact absurd hi (Nat.not_lt_of_le hfi)
      · exact .inr ⟨hjf, hlends⟩

namespace Expansion

/-! ### Imports that stand -/

/-- An import is listed where it was, unless something else has taken its place. -/
theorem mem_children_iff (h : Expansion f settings root gone flag c site g) (hp : f.Parsed root)
    (hi : f.node? (some i) = some (.importFrom specifiers module)) {p : Nat}
    (hip : f.parentOf (some i) = some p) :
    (∃ n, g.node? (some p) = some n ∧ some i ∈ n.children) ↔ c.replaced i = none := by
  obtain ⟨n, hn, hmem⟩ := hp.of_parentOf hip
  have hgn : g.node? (some p) = some (c.node p n) := by
    rw [h.graft.old (lt_size_of_node? hn), hn, Option.map_some]
  have hif := lt_size_of_node? hi
  constructor
  · rintro ⟨m, hm, hmem'⟩
    obtain rfl : c.node p n = m := Option.some.inj (hgn.symm.trans hm)
    by_contra hr
    obtain ⟨ds, hr⟩ := Option.ne_none_iff_exists'.1 hr
    obtain ⟨q, n', hiq, hn', hlist⟩ := h.inlines.listed hr
    obtain rfl := Option.some.inj (hip.symm.trans hiq)
    obtain rfl := Option.some.inj (hn.symm.trans hn')
    rcases Changes.mem_children_node.1 hmem' with ⟨-, hr', -⟩ | ⟨-, k, ds', -, hk, hd⟩ | ⟨-, hd⟩ |
      ⟨-, he⟩
    · rw [hr' hlist] at hr
      cases hr
    · exact Nat.not_lt_of_le (h.graft.above.replaced hk i hd) hif
    · exact Nat.not_lt_of_le (h.graft.above.front i hd) hif
    · exact Nat.not_lt_of_le (h.graft.above.guarded he) hif
  · intro hr
    refine ⟨_, hgn, Changes.mem_children_node.2 (.inl ⟨hmem, fun _ => hr, fun hexpr => ?_⟩)⟩
    obtain ⟨-, -, m, hm, htakes⟩ := hp.of_mem_children hn hmem
    obtain rfl := Option.some.inj (hi.symm.trans hm)
    cases n <;> first | cases hexpr; done | cases htakes

/-- An import is reached if and only if what it stands in is reached, and nothing has taken its
place. -/
theorem reaches_import_iff (h : Expansion f settings root gone flag c site g)
    (hp : f.Parsed root) (hi : f.node? (some i) = some (.importFrom specifiers module)) {p : Nat}
    (hip : f.parentOf (some i) = some p) :
    g.Reaches root i ↔ g.Reaches root p ∧ c.replaced i = none := by
  constructor
  · intro hreach
    have hne : i ≠ root := by
      rintro rfl
      rw [hp.top] at hip
      cases hip
    obtain ⟨j, m, hj, hm, hmem, hparent | ⟨-, hlends⟩⟩ :=
      h.graft.exists_holder hp hreach (lt_size_of_node? hi) hne
    · obtain rfl := Option.some.inj (hip.symm.trans hparent)
      exact ⟨hj, (h.mem_children_iff hp hi hip).1 ⟨m, hm, hmem⟩⟩
    · obtain ⟨m', hm', hexpr⟩ := hlends.isExpression hp
      obtain rfl := Option.some.inj (hi.symm.trans hm')
      cases hexpr
  · rintro ⟨hreach, hr⟩
    obtain ⟨m, hm, hmem⟩ := (h.mem_children_iff hp hi hip).2 hr
    exact hreach.tail (mem_childrenOf.2 ⟨m, hm, hmem⟩)

/-! ### Calls that are left -/

/-- A guarded call itself cannot be reached, unless calls are kept. -/
theorem call_unreached (h : Expansion f settings root gone flag c site g) (hp : f.Parsed root)
    (hkeeps : ¬settings.KeepsCalls) {call e : Nat} {callee : Ref} {args : List Ref}
    (hs : f.node? (some s) = some (.expressionStatement (some call)))
    (hc : f.node? (some call) = some (.call callee args)) (he : c.guarded s = some e) :
    ¬g.Reaches root call := by
  have hcs := (hp.of_mem_children hs (i := call) (by simp [Node.children])).2.1
  have hne : call ≠ root := by
    rintro rfl
    rw [hp.top] at hcs
    cases hcs
  -- The statement holds another expression, and only arguments of calls are lent.
  intro hreach
  obtain ⟨j, m, -, hm, hmem, hparent | ⟨-, hlends⟩⟩ :=
    h.graft.exists_holder hp hreach (lt_size_of_node? hc) hne
  · obtain rfl : s = j := Option.some.inj (hcs.symm.trans hparent)
    obtain rfl := Option.some.inj ((h.graft.node?_guarded hs he).symm.trans hm)
    obtain rfl : call = e := by simpa [Node.children] using hmem
    exact Nat.not_lt_of_le (h.graft.above.guarded he) (lt_size_of_node? hc)
  · obtain ⟨call', callee', args', -, hc', -, ⟨-, hparent⟩ | ⟨hkeep, -⟩⟩ := hlends.call hp
    · obtain rfl : s = call' := Option.some.inj (hcs.symm.trans hparent)
      cases hs.symm.trans hc'
    · exact hkeeps hkeep

/-- The callee of a guarded call cannot be reached, unless calls are kept. -/
theorem callee_unreached (h : Expansion f settings root gone flag c site g) (hp : f.Parsed root)
    (hmodule : settings.helpers.module = false) {call e : Nat} {args : List Ref}
    (hs : f.node? (some s) = some (.expressionStatement (some call)))
    (hc : f.node? (some call) = some (.call (some i) args))
    (hi : f.node? (some i) = some (.identifier x)) (he : c.guarded s = some e) :
    ¬g.Reaches root i := by
  have hkeeps : ¬settings.KeepsCalls := by
    rintro ⟨hext, hglobal⟩
    rw [HelperStyle.isExternal, hglobal, hmodule] at hext
    cases hext
  have hic := (hp.of_mem_children hc (i := i) (by simp [Node.children])).2.1
  have hne : i ≠ root := by
    rintro rfl
    rw [hp.top] at hic
    cases hic
  intro hreach
  obtain ⟨j, m, hj, -, -, hparent | ⟨-, hlends⟩⟩ :=
    h.graft.exists_holder hp hreach (lt_size_of_node? hi) hne
  · obtain rfl : call = j := Option.some.inj (hic.symm.trans hparent)
    exact h.call_unreached hp hkeeps hs hc he hj
  · obtain ⟨call', callee', args', -, hc', -, ⟨hmem, hparent⟩ | ⟨hkeep, -⟩⟩ := hlends.call hp
    · obtain rfl : call = call' := Option.some.inj (hic.symm.trans hparent)
      obtain ⟨rfl, rfl⟩ : some i = callee' ∧ args = args' := by
        simpa using hc.symm.trans hc'
      have hnodup := hp.nodup hc
      refine (List.nodup_cons.1 (show (i :: args.filterMap id).Nodup from hnodup)).1 ?_
      exact List.mem_filterMap.2 ⟨_, hmem, rfl⟩
    · exact hkeeps hkeep

end Expansion

/-- Whether and which import of the debug tools is removed: none if the helpers need it, and else one
alone, the one that the first name of the debug tools is bound to.  An import of the debug tools
stays where it was, and can be reached if what it stands in can, exactly if it is not that one and
is not inlined either. -/
theorem tools_import_stands_iff (h : Expands settings source root f g) :
    (settings.helpers.dropsImport = false → f.droppedImport? settings root = none) ∧
    (settings.helpers.dropsImport = true → f.toolNames settings f.size ≠ [] →
      ∃ k, f.droppedImport? settings root = some k) ∧
    ∀ i specifiers, f.node? (some i) = some (.importFrom specifiers settings.toolsSource) →
      ∃ p, f.parentOf (some i) = some p ∧
        ((∃ n, g.node? (some p) = some n ∧ some i ∈ n.children) ↔
          f.inlinedFlags? settings root i = none ∧ f.droppedImport? settings root ≠ some i) ∧
        (g.Reaches root i ↔ g.Reaches root p ∧
          f.inlinedFlags? settings root i = none ∧ f.droppedImport? settings root ≠ some i) := by
  have hp := h.parsed
  obtain ⟨hfinds, flag, c, site, hexp⟩ := exists_expansion h
  refine ⟨fun hdrops => ?_, fun hdrops hne => Option.isSome_iff_exists.1 (hfinds hdrops hne),
    fun i specifiers hi => ?_⟩
  · rw [droppedImport?, hdrops]
    rfl
  · obtain ⟨p, n, hip, -⟩ := hp.parent (i := i) (by
      have := hp.size_eq
      have := lt_size_of_node? hi
      have : i ≠ root := by
        rintro rfl
        obtain ⟨body, hbody⟩ := hp.script
        cases hbody.symm.trans hi
      omega)
    have hclear : c.replaced i = none ↔
        f.inlinedFlags? settings root i = none ∧ f.droppedImport? settings root ≠ some i := by
      rw [← Option.not_isSome_iff_eq_none, hexp.replaced, not_or, Option.not_isSome_iff_eq_none]
    rw [← hclear]
    exact ⟨p, hip, hexp.mem_children_iff hp hi hip, hexp.reaches_import_iff hp hi hip⟩

/-- Of two imports of the debug tools, the second one stays. -/
theorem second_import_stands : ∃ root f g,
    Expands .standard ("import { assert } from \"@ember/debug-tools\"; " ++
      "import { warn } from \"@ember/debug-tools\";") root f g ∧
      Settings.standard.helpers.dropsImport = true ∧
      f.node? (some 3) = some (.importFrom [some 2] Settings.standard.toolsSource) ∧
      g.Reaches root 3 := by
  have hrun : expandsTo .standard ("import { assert } from \"@ember/debug-tools\"; " ++
      "import { warn } from \"@ember/debug-tools\";")
      (fun root f _ => decide (f.parentOf (some 3) = some root ∧
        f.node? (some 3) = some (.importFrom [some 2] Settings.standard.toolsSource) ∧
        f.inlinedFlags? .standard root 3 = none ∧
        f.droppedImport? .standard root = some 1)) = true := by
    decide +kernel
  obtain ⟨root, f, g, h, hf⟩ := exists_of_expandsTo hrun
  obtain ⟨hparent, hi, hflags, hdropped⟩ := of_decide_eq_true hf
  obtain ⟨-, -, hstands⟩ := tools_import_stands_iff h
  obtain ⟨p, hp, -, hreach⟩ := hstands 3 _ hi
  obtain rfl := Option.some.inj (hparent.symm.trans hp)
  refine ⟨root, f, g, h, rfl, hi, hreach.2 ⟨.refl, hflags, ?_⟩⟩
  rw [hdropped]
  decide

/-- Unless helpers are imported, the callee of a call that stands as a statement behind an import of
the debug tools is gone if it is bound by the import.  Other uses of the names of the import are left
as they are, even if the import is removed. -/
theorem tools_callee_unreached (h : Expands settings source root f g)
    (hmodule : settings.helpers.module = false) (hi : f.node? (some i) = some (.identifier x))
    (hb : f.resolve? (some i) x = some b) (htools : f.importsTools settings b.owner = true)
    {call : Nat} {args : List Ref}
    (hs : f.node? (some s) = some (.expressionStatement (some call)))
    (hc : f.node? (some call) = some (.call (some i) args)) (hlt : b.owner < s) :
    ¬g.Reaches root i := by
  have hp := h.parsed
  obtain ⟨-, flag, c, site, hexp⟩ := exists_expansion h
  have hcs := (hp.of_mem_children hs (i := call) (by simp [Node.children])).2.1
  have hic := (hp.of_mem_children hc (i := i) (by simp [Node.children])).2.1
  -- The name is bound where the statement stands as where the callee does.
  have hresolve : f.resolve? (some s) x = some b := by
    obtain ⟨l, hl⟩ := (hp.leads_root (lt_size_of_node? hi)).exists_way hp.top
    obtain ⟨l', hl'⟩ := (hp.leads_root (lt_size_of_node? hc)).exists_way hp.top
    rw [resolve?_up hl, bindingIn?_eq_none hi rfl, Option.none_or, hic, resolve?_up hl',
      bindingIn?_eq_none hc rfl, Option.none_or, hcs] at hb
    exact hb
  have hcall : (f.helperCall? settings s).isSome = true :=
    isSome_helperCall? hp.kinded (calledName?_eq_some.2 ⟨_, _, _, hs, hc, hi⟩) hresolve htools hlt
  obtain ⟨id, e, he, -⟩ := hexp.guarded s (mem_queued.2 ⟨lt_size_of_node? hs, hcall⟩)
  exact hexp.callee_unreached hp hmodule hs hc hi he

/-- The callee goes with the import. -/
theorem assertion_callee_unreached : ∃ root f g,
    Expands .standard "import { assert } from \"@ember/debug-tools\"; assert(true);" root f g ∧
      f.node? (some 2) = some (.identifier "assert") ∧ f.droppedImport? .standard root = some 1 ∧
      ¬g.Reaches root 2 := by
  have hrun : expandsTo .standard "import { assert } from \"@ember/debug-tools\"; assert(true);"
      (fun root f _ => decide (f.node? (some 2) = some (.identifier "assert") ∧
        f.droppedImport? .standard root = some 1 ∧
        f.resolve? (some 2) "assert" = some ⟨"assert", .module, 0, 1⟩ ∧
        f.importsTools .standard 1 = true ∧
        f.node? (some 5) = some (.expressionStatement (some 4)) ∧
        f.node? (some 4) = some (.call (some 2) [some 3]))) = true := by
    decide +kernel
  obtain ⟨root, f, g, h, hf⟩ := exists_of_expandsTo hrun
  obtain ⟨hi, hgone, hresolve, htools, hs, hc⟩ := of_decide_eq_true hf
  exact ⟨root, f, g, h, hi, hgone,
    tools_callee_unreached h rfl hi hresolve htools hs hc (by decide)⟩

/-- A name of the removed import that is used as a value stays. -/
theorem used_import_removed : ¬∀ (settings : Settings) (source : String) (root : Nat) (f g : Forest)
    (i : Nat) (x : String) (b : Binding), Expands settings source root f g →
      settings.helpers.module = false → f.node? (some i) = some (.identifier x) →
      f.resolve? (some i) x = some b → f.importsTools settings b.owner = true →
      f.droppedImport? settings root = some b.owner → ¬g.Reaches root i := by
  intro hdead
  have hrun : expandsTo .standard "import { assert } from \"@ember/debug-tools\"; foo(assert);"
      (fun root f g => decide (f.node? (some 3) = some (.identifier "assert") ∧
        f.resolve? (some 3) "assert" = some ⟨"assert", .module, 0, 1⟩ ∧
        f.importsTools .standard 1 = true ∧ f.droppedImport? .standard root = some 1 ∧
        5 ∈ g.childrenOf (some root) ∧ 4 ∈ g.childrenOf (some 5) ∧
        3 ∈ g.childrenOf (some 4))) = true := by
    decide +kernel
  obtain ⟨root, f, g, h, hf⟩ := exists_of_expandsTo hrun
  obtain ⟨hi, hresolve, htools, hgone, h₅, h₄, h₃⟩ := of_decide_eq_true hf
  exact hdead .standard _ root f g 3 "assert" _ h rfl hi hresolve htools hgone
    (((Reaches.refl.tail h₅).tail h₄).tail h₃)

end DebugGuard
