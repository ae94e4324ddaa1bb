import DebugGuard.Proofs.Expand.Draft

/-!
# Putting constants in place

* `Draft.inlineImport`: an import of flags that is inlined makes room for one constant for each of
  its specifiers, in their order and in the same list;
* `Draft.injectFlag`: the constant of the debug flag is put in front of the script.
-/

namespace DebugGuard.Draft

variable {f g : Forest} {keep : Prop} {c : Changes} {d : Draft} {root s i : Nat} {flags : Flags}
  {module source : String} {specifiers : List Ref}

/-- The constant for one specifier. -/
theorem ofSpecifier (h : d.Sound f keep c) (place : Nat) (hs : s < f.size) {n : Node Ref}
    (hn : f.node? (some s) = some n) (hspec : n.isSpecifier = true) {j : Nat}
    (hrun : Yields (Flag.ofSpecifier flags module (some s)) d.forest j g) :
    ∃ d' declarator, d'.forest = g ∧ d'.Sound f keep c ∧ Grows f 0 d d' ∧
      (∀ i ∈ d'.loose, i = j ∨ i ∈ d.loose) ∧ d'.site j = place ∧
      f.IsFlag d'.forest flags s j declarator := by
  obtain ⟨flag, value, hflag, hvalue, hconstant⟩ := hrun.ofSpecifier
  obtain ⟨name, hname⟩ : ∃ name, f.localName? (some s) = some name := by
    rw [Forest.localName?, hn, Option.bind_some]
    cases n <;> first | exact ⟨_, rfl⟩ | cases hspec
  rw [h.localName?_eq hs, hname, Option.getD_some] at hconstant
  rw [h.importedName?_eq hs] at hflag
  obtain ⟨d', j', declarator, hrun', hsound, hgrows, hloose, hsite, hconst⟩ :=
    constant h place name value
  obtain ⟨rfl, rfl⟩ := Prod.mk.inj (hrun'.symm.trans hconstant)
  exact ⟨d', declarator, rfl, hsound, hgrows, hloose, hsite, name, flag, value, hname, hflag,
    hvalue, hconst⟩

/-- The constants for several specifiers. -/
theorem constants (h : d.Sound f keep c) (place : Nat) {ds : List Nat}
    (hspec : ∀ r ∈ specifiers, ∃ s n, r = some s ∧ f.node? (some s) = some n ∧
      n.isSpecifier = true)
    (hrun : Yields (Flag.constants flags module specifiers) d.forest ds g) :
    ∃ d', d'.forest = g ∧ d'.Sound f keep c ∧ Grows f 0 d d' ∧
      (∀ i ∈ d'.loose, i ∈ ds ∨ i ∈ d.loose) ∧ (∀ j ∈ ds, d'.site j = place) ∧
      f.AreFlags d'.forest flags specifiers ds := by
  unfold Flag.constants at hrun
  induction specifiers generalizing d ds with
  | nil =>
    obtain ⟨rfl, rfl⟩ := yields_mapM_nil.1 hrun
    exact ⟨d, rfl, h, .refl, fun _ => .inr, nofun, .nil⟩
  | cons r specifiers ih =>
    obtain ⟨j, g₁, ds, hrun₁, hrun₂, rfl⟩ := yields_mapM_cons.1 hrun
    obtain ⟨s, n, rfl, hn, hs⟩ := hspec r (by simp)
    obtain ⟨d₁, declarator, rfl, hsound₁, hgrows₁, hloose₁, hsite₁, hflag⟩ :=
      ofSpecifier h place (Forest.lt_size_of_node? hn) hn hs hrun₁
    obtain ⟨d₂, rfl, hsound₂, hgrows₂, hloose₂, hsite₂, hflags⟩ :=
      ih hsound₁ (fun r hr => hspec r (by simp [hr])) hrun₂
    obtain ⟨name, flag, value, hname, himported, hvalue, hconst⟩ := hflag
    have hj := Forest.lt_size_of_node? hconst.declaration.2
    refine ⟨d₂, rfl, hsound₂, hgrows₁.trans hgrows₂, fun i hi => ?_, fun i hi => ?_,
      .cons ⟨s, declarator, rfl, name, flag, value, hname, himported, hvalue,
        hconst.mono hgrows₂.node⟩ hflags⟩
    · rcases hloose₂ i hi with hi | hi
      · exact .inl (by simp [hi])
      · exact (hloose₁ i hi).imp_left fun hij => by simp [hij]
    · rcases List.mem_cons.1 hi with rfl | hi
      · rw [hgrows₂.site hj, hsite₁]
      · exact hsite₂ i hi

/-- An import is replaced by the constants for its specifiers. -/
theorem inlineImport (h : d.Sound f keep c) (hp : f.Parsed root)
    (hn : f.node? (some i) = some (.importFrom specifiers source)) (hclear : c.replaced i = none)
    {u : Unit} (hrun : Yields (Flag.inlineImport flags module (some i)) d.forest u g) :
    ∃ d' ds, d'.forest = g ∧ d'.Sound f keep (c.replace i ds) ∧ Grows f (i + 1) d d' ∧
      (∀ j ∈ d'.loose, j ∈ d.loose) ∧ f.Listed i ∧
      f.AreFlags d'.forest flags specifiers ds := by
  have hi : i < f.size := Forest.lt_size_of_node? hn
  have hspec : ∀ r ∈ specifiers, ∃ s n, r = some s ∧ f.node? (some s) = some n ∧
      n.isSpecifier = true := by
    intro r hr
    rcases hp.child hn r hr with ⟨-, h⟩ | ⟨s, m, rfl, -, -, hm, ht⟩
    · cases h
    · exact ⟨s, m, rfl, hm, ht⟩
  have hspecifiers : d.forest.importSpecifiers (some i) = specifiers := by
    rw [Forest.importSpecifiers, h.old hi, hn]
    rfl
  obtain ⟨ds, g₁, hconstants, hsplice⟩ := hrun.inlineImport
  rw [hspecifiers] at hconstants
  obtain ⟨p, m, hip, -⟩ : ∃ p m, f.parentOf (some i) = some p ∧ f.node? (some p) = some m := by
    obtain ⟨p, m, hip, hm, -⟩ := hp.parent (i := i) (by
      have := hp.size_eq
      obtain ⟨body, hbody⟩ := hp.script
      have : i ≠ root := by
        rintro rfl
        cases hbody.symm.trans hn
      omega)
    exact ⟨p, m, hip, hm⟩
  obtain ⟨d₁, rfl, hsound, hgrows, hloose, hsite, hflags⟩ :=
    constants h p hspec hconstants
  have hds : ∀ j ∈ ds, f.size ≤ j ∧ f.parentOf (some i) = some (d₁.site j) ∧
      ∃ m, d₁.forest.node? (some j) = some m ∧ m.isInnerStatement = true := by
    intro j hj
    obtain ⟨r, -, s, declarator, -, name, flag, value, -, -, -, hconst⟩ :=
      exists_of_forall₂ hflags hj
    exact ⟨hconst.declaration.1, by rw [hsite j hj, hip], _, hconst.declaration.2, rfl⟩
  obtain ⟨hlisted, q, l, hplant⟩ := hsound.splice hp hn rfl hclear ds hds hsplice
  obtain ⟨d₂, rfl, -, hloose₂, hsound₂, hgrows₂⟩ := hsound.plant (t := i + 1) hp hplant
    fun _ hj => Option.some.inj hj ▸ Nat.lt_succ_self _
  refine ⟨d₂, ds, rfl, hsound₂, (hgrows.mono (Nat.zero_le _)).trans hgrows₂, fun j hj => ?_,
    hlisted, hflags.mono hgrows₂.node⟩
  rw [hloose₂] at hj
  exact (hloose j hj.1).resolve_left hj.2

/-- The constant of the debug flag is put in front of the script. -/
theorem injectFlag (h : d.Sound f keep c) (hp : f.Parsed root) {settings : Settings}
    {name : String} {u : Unit}
    (hrun : Yields (Expand.injectFlag settings (some root) name) d.forest u g) :
    ∃ d' j declarator, d'.forest = g ∧ d'.Sound f keep (c.put j) ∧ Grows f f.size d d' ∧
      (∀ i ∈ d'.loose, i ∈ d.loose) ∧ f.IsConstant g j declarator name settings.debug := by
  obtain ⟨d₁, j, declarator, hrun₁, hsound, hgrows, hloose, hsite, hconst⟩ :=
    constant h root name settings.debug
  obtain ⟨j', g₁, hconstant, hput⟩ := hrun.injectFlag
  obtain ⟨rfl, rfl⟩ := Prod.mk.inj (hrun₁.symm.trans hconstant)
  obtain ⟨n, hplant⟩ := hsound.putFirst hp hconst.declaration.1 hsite hconst.declaration.2 rfl hput
  obtain ⟨d₂, rfl, -, hloose₂, hsound₂, hgrows₂⟩ := hsound.plant (t := f.size) hp hplant nofun
  refine ⟨d₂, j, declarator, rfl, hsound₂, (hgrows.mono (Nat.zero_le _)).trans hgrows₂,
    fun i hi => ?_, hconst.mono hgrows₂.node⟩
  rw [hloose₂] at hi
  exact (hloose i hi.1).resolve_left fun hij => hi.2 (List.mem_singleton.2 hij)

end DebugGuard.Draft
