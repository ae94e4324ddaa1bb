import DebugGuard.Proofs.Expand.Finish

/-!
# Names in an expanded script

* `resolve?_expanded`: a name that is left in the script is bound to what it was bound to, or to the
  constant for it; only the bindings of the import that is removed are lost;
* `imported_guard_iff`: if the debug flag is imported, a guard is bound to the constant for it
  exactly if nothing nearer binds its name;
* `injected_guard`: if the debug flag is put in front of the script, all guards are bound to it, and
  nothing else is.
-/

namespace DebugGuard

open Forest

variable {f g : Forest} {settings : Settings} {source flag x : String} {root i s : Nat}
  {keep : Prop} {c : Changes} {site : Nat → Nat} {loose : Set Nat} {flags : Nat → Option Flags}
  {gone : Option Nat} {n : Node Ref} {b b' b'' : Binding}

namespace Forest

/-! ### Guards -/

/-- A new node that a new node holds belongs to the same place, and is reached from it. -/
theorem Graft.below_of_mem (h : f.Graft keep c site ∅ g) (hp : f.Parsed root) {j : Nat}
    (hj : f.Added g j n) (hmem : some i ∈ n.children) (hi : f.size ≤ i) :
    site i = site j ∧ g.Reaches j i := by
  refine ⟨?_, Reaches.refl.tail (mem_childrenOf.2 ⟨n, hj.2, hmem⟩)⟩
  rcases h.holds hj.1 hj.2 hmem with ⟨-, hs⟩ | ⟨hlends, -⟩
  · exact hs
  · exact absurd (hlends.lt_size hp) (Nat.not_lt_of_le hi)

/-- The first operand of a conjunction belongs to the same place as the whole. -/
theorem IsConjunction.below {conditions : List Ref} {r : Ref} {j : Nat}
    (h : f.IsConjunction g (some j) conditions r) (hg : f.Graft keep c site ∅ g)
    (hp : f.Parsed root) (hj : f.size ≤ j) :
    ∃ k, r = some k ∧ f.size ≤ k ∧ site k = site j ∧ g.Reaches k j := by
  induction conditions generalizing j with
  | nil => exact ⟨j, h, hj, rfl, .refl⟩
  | cons cond conditions ih =>
    obtain ⟨k, hk, hrest⟩ := h
    obtain ⟨l, rfl, hl, hsite, hreach⟩ := ih hrest hk.1
    obtain ⟨hsite', hreach'⟩ := hg.below_of_mem hp hk (i := j) (by simp [Node.children]) hj
    exact ⟨l, rfl, hl, by rw [hsite, hsite'], Relation.ReflTransGen.trans hreach hreach'⟩

/-- The identifier of the flag in a guarded statement belongs to the statement. -/
theorem GuardsCall.identifier {id e : Nat} (h : f.GuardsCall g settings flag s id e)
    (hg : f.Graft keep c site ∅ g) (hp : f.Parsed root)
    (hs : g.node? (some s) = some (.expressionStatement (some e))) :
    f.Added g id (.identifier flag) ∧ site id = s ∧ g.Reaches s id := by
  obtain ⟨helper, call, callee, args, rendered, conditions, -, hn, -, -, -, left, all, hid, hleft,
    hall, he⟩ := h
  obtain ⟨l, rfl, hl, hsite, hreach⟩ := hleft.below hg hp hid.1
  obtain ⟨hsite₁, hreach₁⟩ := hg.below_of_mem hp hall (i := l) (by simp [Node.children]) hl
  obtain ⟨hsite₂, hreach₂⟩ := hg.below_of_mem hp he (i := all) (by simp [Node.children]) hall.1
  have hmem : some e ∈ (Node.expressionStatement (some e)).children := by simp [Node.children]
  have hsite₃ : site e = s := hg.planted (lt_size_of_node? hn) hs hmem he.1
  have hreach₃ : g.Reaches s e := Reaches.refl.tail (mem_childrenOf.2 ⟨_, hs, hmem⟩)
  refine ⟨hid, by rw [← hsite, hsite₁, hsite₂, hsite₃], ?_⟩
  exact ((hreach₃.trans hreach₂).trans hreach₁).trans hreach

/-- A guard is looked up from its statement on. -/
theorem GuardsCall.resolve?_eq {id e : Nat} (h : f.GuardsCall g settings flag s id e)
    (hg : f.Graft keep c site ∅ g) (hp : f.Parsed root)
    (hs : g.node? (some s) = some (.expressionStatement (some e))) (hroot : g.Reaches root s) :
    g.resolve? (some id) x = g.resolve? (some s) x := by
  obtain ⟨hid, hsite, hreach⟩ := h.identifier hg hp hs
  rw [hg.resolve?_site hp hid.1 (lt_size_of_node? hid.2) (hg.leads_root hp (hroot.trans hreach)),
    hsite]

/-! ### The scope of the script -/

theorem Parsed.resolve?_root (hp : f.Parsed root) :
    f.resolve? (some root) x = f.bindingIn? x root := by
  have hway : f.Way (some root) [root] := .up (by rw [hp.top]; exact .top)
  rw [resolve?_of_way hway, List.findSome?_singleton]

/-- An import binds names in the list that it stands in. -/
theorem Parsed.parentOf_owner (hp : f.Parsed root) (h : f.bindingIn? x i = some b)
    (hk : b.kind = .module) : f.parentOf (some b.owner) = some i := by
  obtain ⟨-, -, hlist⟩ := mem_of_bindingIn? hp.kinded h
  obtain ⟨n, hn, -, hmem⟩ := hlist hk
  exact (hp.of_mem_children hn hmem).2.1

/-- An import that binds a name for the script stands in the list of the script. -/
theorem Parsed.parentOf_owner_root (hp : f.Parsed root) (h : f.resolve? (some root) x = some b)
    (hk : b.kind = .module) : f.parentOf (some b.owner) = some root :=
  hp.parentOf_owner (by rw [← hp.resolve?_root, h]) hk

/-- Two bindings of one name by imports in one list are the same. -/
theorem Parsed.binding_unique (hp : f.Parsed root) (h : f.resolve? (some s) x = some b)
    (hk : b.kind = .module) {t : Nat} (h' : f.resolve? (some t) x = some b')
    (hk' : b'.kind = .module) {p : Nat} (howner : f.parentOf (some b.owner) = some p)
    (howner' : f.parentOf (some b'.owner) = some p) : b = b' := by
  obtain ⟨i, -, hi, -⟩ := exists_of_resolve? hp.kinded h
  obtain ⟨j, -, hj, -⟩ := exists_of_resolve? hp.kinded h'
  obtain rfl : i = p := Option.some.inj ((hp.parentOf_owner hi hk).symm.trans howner)
  obtain rfl : j = i := Option.some.inj ((hp.parentOf_owner hj hk').symm.trans howner')
  exact Option.some.inj (hi.symm.trans hj)

/-- What is put in the place of an import belongs to the list that it stood in. -/
theorem Graft.parentOf_replaced (h : f.Graft keep c site loose g) (hp : f.Parsed root)
    (hc : Inlines f g c flags) {ds : List Nat} (hr : c.replaced i = some ds) {d : Nat}
    (hd : d ∈ ds) : f.parentOf (some i) = some (site d) := by
  obtain ⟨p, m, hip, hm, hlist⟩ := hc.listed hr
  obtain ⟨m', hm', hmem⟩ := hp.of_parentOf hip
  obtain rfl := Option.some.inj (hm.symm.trans hm')
  have hgm : g.node? (some p) = some (c.node p m) := by
    rw [h.old (lt_size_of_node? hm), hm, Option.map_some]
  rw [h.planted (lt_size_of_node? hm) hgm
    (Changes.mem_children_node.2 (.inr (.inl ⟨hlist, i, ds, hmem, hr, hd⟩)))
    (h.above.replaced hr d hd), hip]

/-! ### Constants for specifiers -/

theorem eq_of_mem_zip {l : List Ref} {ds : List Nat} {a d d' : Nat} (hl : (l.filterMap id).Nodup)
    (h : (some a, d) ∈ l.zip ds) (h' : (some a, d') ∈ l.zip ds) : d = d' := by
  induction l generalizing ds with
  | nil => cases h
  | cons r l ih =>
    cases ds with
    | nil => cases h
    | cons d₀ ds =>
      have hl' : (l.filterMap id).Nodup := by
        cases r with
        | none => exact hl
        | some k => exact (List.nodup_cons.1 hl).2
      -- The specifier does not occur a second time.
      have hne {k : Nat} (hk : (some a, k) ∈ l.zip ds) : r ≠ some a := by
        rintro rfl
        refine (List.nodup_cons.1 hl).1 (List.mem_filterMap.2 ⟨some a, ?_, rfl⟩)
        exact (List.of_mem_zip hk).1
      rw [List.zip_cons_cons, List.mem_cons] at h h'
      rcases h with h | h <;> rcases h' with h' | h'
      · cases h
        cases h'
        rfl
      · cases h
        exact absurd rfl (hne h')
      · cases h'
        exact absurd rfl (hne h)
      · exact ih hl' h h'

/-- There is one constant for a specifier. -/
theorem carried_unique (hp : f.Parsed root) (h : b.Carried f g c flags b')
    (h' : b.Carried f g c flags b'') : b' = b'' := by
  obtain ⟨hname, hcase⟩ := h
  obtain ⟨hname', hcase'⟩ := h'
  rcases hcase with ⟨hr, rfl⟩ | ⟨specifiers, source, ds, fl, hn, hr, -, hz, hk, hflag⟩ <;>
    rcases hcase' with ⟨hr', rfl⟩ | ⟨specifiers', source', ds', fl', hn', hr', -, hz', hk', hflag'⟩
  · rfl
  · rw [hr] at hr'
    cases hr'
  · rw [hr] at hr'
    cases hr'
  · obtain ⟨rfl, rfl⟩ : specifiers = specifiers' ∧ source = source' := by
      simpa using hn.symm.trans hn'
    obtain rfl := Option.some.inj (hr.symm.trans hr')
    have howner : b'.owner = b''.owner := eq_of_mem_zip (hp.nodup hn) hz hz'
    obtain ⟨name, fl₁, value, -, -, -, hconst⟩ := hflag
    obtain ⟨name', fl₂, value', -, -, -, hconst'⟩ := hflag'
    have hdecl : b'.declaration = b''.declaration := by
      have hd := hconst.declaration.2
      rw [howner, hconst'.declaration.2] at hd
      simpa using hd.symm
    cases b'
    cases b''
    simp_all

/-- A binding is still there, or it is a constant now that belongs to the list of the import. -/
theorem carried_cases (h : f.Graft keep c site loose g) (hp : f.Parsed root)
    (hc : Inlines f g c flags) (hcarried : b.Carried f g c flags b') :
    (c.replaced b.owner = none ∧ b' = b) ∨
      f.size ≤ b'.declaration ∧ f.parentOf (some b.owner) = some (site b'.owner) ∧
        ∃ specifiers source, f.node? (some b.owner) = some (.importFrom specifiers source) := by
  obtain ⟨-, hself | ⟨specifiers, source, ds, fl, hn, hr, -, hz, -, hflag⟩⟩ := hcarried
  · exact .inl hself
  · obtain ⟨name, flag, value, -, -, -, hconst⟩ := hflag
    obtain ⟨l, hdeclarator, -⟩ := hconst.init
    exact .inr ⟨hdeclarator.1, h.parentOf_replaced hp hc hr (List.of_mem_zip hz).2, specifiers,
      source, hn⟩

/-! ### Names that the script lacks -/

/-- A name that the script lacks is bound by what stands in front of it only. -/
theorem Graft.bindingIn?_of_lacks (h : f.Graft keep c site loose g) (hp : f.Parsed root)
    (hc : Inlines f g c flags) (hlacks : f.Lacks x) (hn : f.node? (some i) = some n)
    (hparent : n.isList = true → g.parentOf (some i) = f.parentOf (some i)) :
    g.bindingIn? x i = ((c.frontOf n).flatMap g.declaredBy).find? (·.name == x) := by
  obtain ⟨bs, hbs, hcarried⟩ := h.carried_bindingsOf hp hc hn hparent
  have hnone : bs.find? (·.name == x) = none := by
    rw [List.find?_eq_none]
    intro b' hb'
    obtain ⟨b, hb, hname, -⟩ := exists_of_forall₂ hcarried hb'
    obtain ⟨hdecl, -⟩ := mem_bindingsOf hp.kinded (List.mem_of_mem_filter hb)
    obtain ⟨m, hm, hx⟩ := hdecl.mem_ownNames
    intro heq
    rw [beq_iff_eq, hname] at heq
    exact hlacks hm (heq ▸ hx)
  rw [bindingIn?_eq_find?, hbs, List.find?_append, hnone, Option.or_none]

end Forest

namespace Expansion

/-- A name of the script is looked up as before. -/
theorem follows (h : Expansion f settings root gone flag c site g) (hp : f.Parsed root)
    {k : Nat} (hm : f.node? (some k) = some n) (hx : x ∈ n.ownNames) (hi : i < f.size)
    (hroot : g.Leads i root) :
    Binding.Follows f g c (f.inlinedFlags? settings root) (f.resolve? (some i) x)
      (g.resolve? (some i) x) :=
  h.graft.follows_resolve? hp h.inlines (h.name_front_ne hm hx) hi hroot

/-- Every helper call is guarded. -/
theorem exists_guard (h : Expansion f settings root gone flag c site g)
    (hs : (f.helperCall? settings s).isSome = true) :
    ∃ id e, g.node? (some s) = some (.expressionStatement (some e)) ∧
      f.GuardsCall g settings flag s id e := by
  obtain ⟨b, hb⟩ := Option.isSome_iff_exists.1 hs
  obtain ⟨name, hname, -⟩ := exists_of_helperCall? hb
  obtain ⟨r, callee, args, hn, -⟩ := calledName?_eq_some.1 hname
  obtain ⟨id, e, he, hguards⟩ := h.guarded s (mem_queued.2 ⟨lt_size_of_node? hn, hs⟩)
  exact ⟨id, e, h.graft.node?_guarded hn he, hguards⟩

/-- From everywhere in the script, the flag that stands in front of it is seen. -/
theorem resolve?_front (h : Expansion f settings root gone flag c site g) (hp : f.Parsed root)
    (hlacks : f.Lacks flag) {d declarator : Nat} {value : Literal} (hfront : c.front = [d])
    (hconst : f.IsConstant g d declarator flag value) (hroot : g.Leads i root) :
    g.resolve? (some i) flag = some ⟨flag, .constant, declarator, d⟩ := by
  have htop := h.graft.parentOf_root hp
  induction hroot using Relation.ReflTransGen.head_induction_on with
  | refl =>
    obtain ⟨body, hbody⟩ := hp.script
    have hway : g.Way (some root) [root] := .up (by rw [htop]; exact .top)
    rw [resolve?_of_way hway, List.findSome?_singleton,
      h.graft.bindingIn?_of_lacks hp h.inlines hlacks hbody fun _ => by rw [htop, hp.top]]
    simp [Changes.frontOf, Node.isProgram, hfront,
      Graft.declaredBy_constant h.graft.kinded hconst]
  | @head i p hip hroot' ih =>
    have hroot : g.Leads i root := .head hip hroot'
    obtain ⟨l, hl⟩ := hroot.exists_way htop
    have hig := lt_size_of_parentOf hip
    have hnone : g.bindingIn? flag i = none := by
      obtain ⟨m, hm⟩ := exists_node? (has_some.2 hig)
      rcases Nat.lt_or_ge i f.size with hif | hif
      · obtain ⟨n, hn⟩ := exists_node? (has_some.2 hif)
        have hir : i ≠ root := by
          rintro rfl
          rw [htop] at hip
          cases hip
        rw [h.graft.bindingIn?_of_lacks hp h.inlines hlacks hn fun hlist =>
          h.graft.parentOf_list hp hn hlist hroot]
        simp [Changes.frontOf, hp.isProgram_eq_false hn hir]
      · exact bindingIn?_eq_none hm (h.graft.plain hif hm)
    rw [resolve?_up hl, hnone, Option.none_or, hip, ih]

/-- The import of the flag becomes a constant of the script. -/
theorem flag_carried (h : Expansion f settings root gone debugName c site g) (hp : f.Parsed root)
    (hb : f.flagBinding? settings root = some b) :
    ∃ k, g.resolve? (some root) debugName = some k ∧
      b.Carried f g c (f.inlinedFlags? settings root) k := by
  obtain ⟨-, hresolve, -⟩ := exists_of_flagBinding? hb
  refine (h.graft.follows_root hp h.inlines ?_).2 b hresolve ?_
  · rw [(h.imported b hb).2]
    nofun
  · rw [Changes.keeps, inlinedFlags?_flagBinding hb]
    exact Bool.or_true _

/-- The import that is removed stands in the list of the script. -/
theorem parentOf_dropped
    (h : Expansion f settings root (f.droppedImport? settings root) flag c site g)
    (hp : f.Parsed root) (hi : f.droppedImport? settings root = some i) :
    f.parentOf (some i) = some root ∧
      ∃ specifiers source, f.node? (some i) = some (.importFrom specifiers source) := by
  obtain ⟨-, specifiers, source, hn⟩ := h.replaced_gone hi
  obtain ⟨-, first, b, -, hfirst, rfl⟩ := exists_of_droppedImport? hi
  obtain ⟨-, -, -, -, hdecl⟩ := exists_of_resolve? hp.kinded hfirst
  exact ⟨hp.parentOf_owner_root hfirst (hdecl.module_of_import hn), specifiers, source, hn⟩

/-- The constant for the flag is found exactly where its import was. -/
theorem resolve?_flag_iff
    (h : Expansion f settings root (f.droppedImport? settings root) debugName c site g)
    (hp : f.Parsed root) (hb : f.flagBinding? settings root = some b) {k : Binding}
    (hk : g.resolve? (some root) debugName = some k) (hs : s < f.size) (hroot : g.Leads s root) :
    g.resolve? (some s) debugName = some k ↔ f.resolve? (some s) debugName = some b := by
  obtain ⟨k', hk', hcarried⟩ := h.flag_carried hp hb
  obtain rfl := Option.some.inj (hk'.symm.trans hk)
  obtain ⟨-, hresolve, hmod, -⟩ := exists_of_flagBinding? hb
  have hflags := inlinedFlags?_flagBinding hb
  have hfollows : Binding.Follows f g c (f.inlinedFlags? settings root)
      (f.resolve? (some s) debugName) (g.resolve? (some s) debugName) := by
    refine h.graft.follows_resolve? hp h.inlines ?_ hs hroot
    rw [(h.imported b hb).2]
    nofun
  constructor
  · intro hgs
    obtain ⟨b₂, hfs⟩ : ∃ b₂, f.resolve? (some s) debugName = some b₂ := by
      rw [← Option.ne_none_iff_exists']
      intro hnone
      rw [hfollows.1 hnone] at hgs
      cases hgs
    obtain ⟨-, -, -, -, hdecl⟩ := exists_of_resolve? hp.kinded hfs
    -- It suffices that an import in the list of the script binds the name.
    have hsame {specifiers : List Ref} {source : String}
        (hn : f.node? (some b₂.owner) = some (.importFrom specifiers source))
        (howner : f.parentOf (some b₂.owner) = some root) : b₂ = b :=
      hp.binding_unique hfs (hdecl.module_of_import hn) hresolve hmod howner
        (hp.parentOf_owner_root hresolve hmod)
    by_cases hgone : f.droppedImport? settings root = some b₂.owner
    · obtain ⟨howner, specifiers, source, hn⟩ := h.parentOf_dropped hp hgone
      rw [hfs, hsame hn howner]
    · obtain ⟨k₂, hk₂, hcarried₂⟩ := hfollows.2 b₂ hfs (h.keeps_iff.2 hgone)
      obtain rfl := Option.some.inj (hk₂.symm.trans hgs)
      -- The flag is a constant now, so what the statement finds is no old binding.
      rcases carried_cases h.graft hp h.inlines hcarried with ⟨hr, -⟩ | ⟨hnew, hsite, -⟩
      · have := (h.replaced b.owner).2 (.inl (by rw [hflags]; rfl))
        rw [hr] at this
        cases this
      · rcases carried_cases h.graft hp h.inlines hcarried₂ with ⟨-, rfl⟩ |
          ⟨-, hsite₂, specifiers, source, hn⟩
        · exact absurd hdecl.declaration_lt_size (Nat.not_lt_of_le hnew)
        · rw [hfs, hsame hn (hsite₂.trans (hsite.symm.trans
            (hp.parentOf_owner_root hresolve hmod)))]
  · intro hfs
    have hkept : f.droppedImport? settings root ≠ some b.owner := by
      intro hgone
      rw [h.gone _ hgone] at hflags
      cases hflags
    obtain ⟨b', hb', hcarried'⟩ := hfollows.2 b hfs (h.keeps_iff.2 hkept)
    rw [hb', carried_unique hp hcarried hcarried']

end Expansion

/-! ### Names of the script -/

/-- A name that can still be reached in the expanded script is bound

* to the constant for the specifier that it was bound to, with the value of the imported flag, if
  that import has been inlined;
* to what it was bound to, if that is no specifier of the import that has been removed;
* to nothing, if it was bound to nothing. -/
theorem resolve?_expanded (h : Expands settings source root f g)
    (hi : f.node? (some i) = some (.identifier x)) (hreach : g.Reaches root i) :
    (∀ b flags, f.resolve? (some i) x = some b →
      f.inlinedFlags? settings root b.owner = some flags →
      ∃ b', g.resolve? (some i) x = some b' ∧ b'.name = x ∧ b'.kind = .constant ∧
        f.IsFlag g flags b.declaration b'.owner b'.declaration) ∧
    (∀ b, f.resolve? (some i) x = some b → f.inlinedFlags? settings root b.owner = none →
      f.droppedImport? settings root ≠ some b.owner → g.resolve? (some i) x = some b) ∧
    (f.resolve? (some i) x = none → g.resolve? (some i) x = none) := by
  have hp := h.parsed
  obtain ⟨-, flag, c, site, hexp⟩ := exists_expansion h
  have hfollows := hexp.follows (x := x) hp hi (by simp [Node.ownNames]) (lt_size_of_node? hi)
    (hexp.graft.leads_root hp hreach)
  refine ⟨fun b flags hb hflags => ?_, fun b hb hflags hgone => ?_, hfollows.1⟩
  · have hgone : f.droppedImport? settings root ≠ some b.owner := by
      intro hgone
      rw [hexp.gone _ hgone] at hflags
      cases hflags
    obtain ⟨-, -, -, hname, -⟩ := exists_of_resolve? hp.kinded hb
    obtain ⟨b', hb', hname', ⟨hr, rfl⟩ | ⟨-, -, ds, fl, -, -, hfl, -, hk, hflag⟩⟩ :=
      hfollows.2 b hb (hexp.keeps_iff.2 hgone)
    · have := (hexp.replaced b'.owner).2 (.inl (by rw [hflags]; rfl))
      rw [hr] at this
      cases this
    · obtain rfl := Option.some.inj (hflags.symm.trans hfl)
      exact ⟨b', hb', hname'.trans hname, hk, hflag⟩
  · obtain ⟨b', hb', -, ⟨-, rfl⟩ | ⟨-, -, -, fl, -, -, hfl, -⟩⟩ :=
      hfollows.2 b hb (hexp.keeps_iff.2 hgone)
    · exact hb'
    · rw [hflags] at hfl
      cases hfl

/-- A use of the debug flag, which becomes a constant. -/
theorem flag_use_follows : ∃ root f g b,
    Expands .standard "import { DEBUG } from \"@ember/env-flags\"; foo(DEBUG);" root f g ∧
      g.resolve? (some 3) debugName = some b ∧ b.kind = .constant ∧
      f.IsFlag g Settings.standard.envFlags 0 b.owner b.declaration := by
  have hrun : expandsTo .standard "import { DEBUG } from \"@ember/env-flags\"; foo(DEBUG);"
      (fun root f g => decide (f.node? (some 3) = some (.identifier debugName) ∧
        5 ∈ g.childrenOf (some root) ∧ 4 ∈ g.childrenOf (some 5) ∧ 3 ∈ g.childrenOf (some 4) ∧
        f.resolve? (some 3) debugName = some ⟨debugName, .module, 0, 1⟩ ∧
        f.inlinedFlags? .standard root 1 = some Settings.standard.envFlags)) = true := by
    decide +kernel
  obtain ⟨root, f, g, h, hf⟩ := exists_of_expandsTo hrun
  obtain ⟨hi, h₅, h₄, h₃, hresolve, hflags⟩ := of_decide_eq_true hf
  obtain ⟨hconst, -⟩ := resolve?_expanded h hi (((Reaches.refl.tail h₅).tail h₄).tail h₃)
  obtain ⟨b, hb, -, hkind, hflag⟩ := hconst _ _ hresolve hflags
  exact ⟨root, f, g, b, h, hb, hkind, hflag⟩

/-! ### The flag -/

/-- An imported flag becomes a constant of the script, and a guard is bound to it if and only if the
name of the flag was bound to the import where the guarded statement stands.  Where something nearer
binds the name, the guard is captured. -/
theorem imported_guard_iff (h : Expands settings source root f g)
    (hb : f.flagBinding? settings root = some b) :
    ∃ d declarator, f.IsFlag g settings.envFlags b.declaration d declarator ∧
      g.resolve? (some root) debugName = some ⟨debugName, .constant, declarator, d⟩ ∧
      (∀ s, (f.helperCall? settings s).isSome = true → ∃ id e,
        g.node? (some s) = some (.expressionStatement (some e)) ∧
          f.GuardsCall g settings debugName s id e) ∧
      ∀ s id e, g.Reaches root s → g.node? (some s) = some (.expressionStatement (some e)) →
        f.GuardsCall g settings debugName s id e →
        (g.resolve? (some id) debugName = some ⟨debugName, .constant, declarator, d⟩ ↔
          f.resolve? (some s) debugName = some b) := by
  have hp := h.parsed
  obtain ⟨-, flag, c, site, hexp⟩ := exists_expansion h
  obtain ⟨rfl, -⟩ := hexp.imported b hb
  obtain ⟨k, hk, hcarried⟩ := hexp.flag_carried hp hb
  obtain ⟨-, hresolve, -⟩ := exists_of_flagBinding? hb
  obtain ⟨-, -, -, hname, -⟩ := exists_of_resolve? hp.kinded hresolve
  obtain ⟨hname', ⟨hr, -⟩ | ⟨-, -, -, fl, -, -, hfl, -, hkind, hflag⟩⟩ := id hcarried
  · have := (hexp.replaced b.owner).2 (.inl (by rw [inlinedFlags?_flagBinding hb]; rfl))
    rw [hr] at this
    cases this
  · obtain rfl := Option.some.inj ((inlinedFlags?_flagBinding hb).symm.trans hfl)
    have hk' : k = ⟨debugName, .constant, k.declaration, k.owner⟩ := by
      rw [← hname, ← hname', ← hkind]
    refine ⟨k.owner, k.declaration, hflag, by rw [hk, ← hk'], fun s hs => hexp.exists_guard hs,
      fun s id e hreach hs hguards => ?_⟩
    rw [hguards.resolve?_eq hexp.graft hp hs hreach, ← hk']
    obtain ⟨-, call, -, -, -, -, -, hn, -⟩ := hguards
    exact hexp.resolve?_flag_iff hp hb hk (lt_size_of_node? hn) (hexp.graft.leads_root hp hreach)

/-- A parameter captures the guard. -/
theorem parameter_captures_guard : ∃ root f g k id e,
    Expands .standard ("import { DEBUG } from \"@ember/env-flags\"; " ++
      "import { assert } from \"@ember/debug-tools\"; function f(DEBUG) { assert(true); }") root f g ∧
      f.GuardsCall g .standard debugName 7 id e ∧ g.Reaches root 7 ∧
      g.resolve? (some root) debugName = some k ∧ g.resolve? (some id) debugName ≠ some k := by
  have hrun : expandsTo .standard ("import { DEBUG } from \"@ember/env-flags\"; " ++
      "import { assert } from \"@ember/debug-tools\"; function f(DEBUG) { assert(true); }")
      (fun root f g => decide (
        f.flagBinding? .standard root = some ⟨debugName, .module, 0, 1⟩ ∧
        (f.helperCall? .standard 7).isSome = true ∧ 9 ∈ g.childrenOf (some root) ∧
        8 ∈ g.childrenOf (some 9) ∧ 7 ∈ g.childrenOf (some 8) ∧
        f.resolve? (some 7) debugName = some ⟨debugName, .parameter, 9, 9⟩)) = true := by
    decide +kernel
  obtain ⟨root, f, g, h, hf⟩ := exists_of_expandsTo hrun
  obtain ⟨hb, hcall, h₉, h₈, h₇, hparameter⟩ := of_decide_eq_true hf
  have hreach : g.Reaches root 7 := ((Reaches.refl.tail h₉).tail h₈).tail h₇
  obtain ⟨d, declarator, -, hk, hguards, hiff⟩ := imported_guard_iff h hb
  obtain ⟨id, e, hs, hguard⟩ := hguards 7 hcall
  refine ⟨root, f, g, _, id, e, h, hguard, hreach, hk, ?_⟩
  rw [Ne, hiff 7 id e hreach hs hguard, hparameter]
  decide

/-- A flag that is put in front of the script is what all guards are bound to, and no name of the
script is. -/
theorem injected_guard (h : Expands settings source root f g)
    (hflag : f.flagBinding? settings root = none) (hqueued : f.queued settings f.size ≠ []) :
    ∃ flag d declarator body, g.node? (some root) = some (.program (some d :: body)) ∧
      f.IsConstant g d declarator flag settings.debug ∧
      (∀ s, (f.helperCall? settings s).isSome = true → ∃ id e,
        g.node? (some s) = some (.expressionStatement (some e)) ∧
          f.GuardsCall g settings flag s id e) ∧
      (∀ s id e, g.Reaches root s → g.node? (some s) = some (.expressionStatement (some e)) →
        f.GuardsCall g settings flag s id e →
        g.resolve? (some id) flag = some ⟨flag, .constant, declarator, d⟩) ∧
      ∀ i x b, f.node? (some i) = some (.identifier x) → g.resolve? (some i) x = some b →
        b.declaration ≠ declarator := by
  have hp := h.parsed
  obtain ⟨-, flag, c, site, hexp⟩ := exists_expansion h
  obtain ⟨hlacks, hfront⟩ := hexp.injected hflag
  rw [HasFront, if_neg hqueued] at hfront
  obtain ⟨d, declarator, hd, hconst⟩ := hfront
  obtain ⟨body, hbody⟩ := hp.script
  refine ⟨flag, d, declarator, c.list body, ?_, hconst, fun s hs => hexp.exists_guard hs, ?_,
    fun i x b hi hb heq => ?_⟩
  · rw [hexp.graft.old (lt_size_of_node? hbody), hbody, Option.map_some, Changes.node, hd]
    rfl
  · intro s id e hreach hs hguards
    rw [hguards.resolve?_eq hexp.graft hp hs hreach]
    exact hexp.resolve?_front hp hlacks hd hconst (hexp.graft.leads_root hp hreach)
  · -- Both have the name of the flag then, but the script lacks it.
    obtain ⟨-, -, -, rfl, hdecl⟩ := exists_of_resolve? hexp.graft.kinded hb
    obtain ⟨m, hm, hx⟩ := hdecl.mem_ownNames
    obtain ⟨l, hdeclarator, -⟩ := hconst.init
    rw [heq, hdeclarator.2] at hm
    cases hm
    have hname : b.name = flag := by simpa [Node.ownNames] using hx
    exact hlacks hi (by simp [Node.ownNames, hname])

/-- The flag has another name than the parameter, so the guard is not captured. -/
theorem parameter_spares_guard : ∃ root f g flag d declarator id e,
    Expands .standard ("import { assert } from \"@ember/debug-tools\"; " ++
      "function f(DEBUG) { assert(DEBUG); }") root f g ∧
      f.GuardsCall g .standard flag 5 id e ∧ g.Reaches root 5 ∧
      g.resolve? (some id) flag = some ⟨flag, .constant, declarator, d⟩ := by
  have hrun : expandsTo .standard ("import { assert } from \"@ember/debug-tools\"; " ++
      "function f(DEBUG) { assert(DEBUG); }")
      (fun root f g => decide (
        f.flagBinding? .standard root = none ∧ f.queued .standard f.size ≠ [] ∧
        (f.helperCall? .standard 5).isSome = true ∧ 7 ∈ g.childrenOf (some root) ∧
        6 ∈ g.childrenOf (some 7) ∧ 5 ∈ g.childrenOf (some 6))) = true := by
    decide +kernel
  obtain ⟨root, f, g, h, hf⟩ := exists_of_expandsTo hrun
  obtain ⟨hflag, hqueued, hcall, h₇, h₆, h₅⟩ := of_decide_eq_true hf
  have hreach : g.Reaches root 5 := ((Reaches.refl.tail h₇).tail h₆).tail h₅
  obtain ⟨flag, d, declarator, -, -, -, hguards, hresolve, -⟩ := injected_guard h hflag hqueued
  obtain ⟨id, e, hs, hguard⟩ := hguards 5 hcall
  exact ⟨root, f, g, flag, d, declarator, id, e, h, hguard, hreach,
    hresolve 5 id e hreach hs hguard⟩

end DebugGuard
