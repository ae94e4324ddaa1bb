import DebugGuard.Proofs.Expand.Draft

/-!
# Prepared helper calls

What waits for the debug flag: `Draft.Ready` says what `Helper.build` makes of a helper call, and
`Draft.build` that it makes it.
-/

namespace DebugGuard

namespace Forest

/-- The call that does the work of a helper call in a debug build. -/
def Renders (f g : Forest) (style : HelperStyle) (helper : Helper) (call : Nat)
    (args : List Ref) (r : Ref) : Prop :=
  if style.isExternal then
    style.global.elim (r = some call) fun object => f.IsMethodCall g object helper.name args r
  else
    match helper with
    | .deprecate => ∃ object d message text, args[2]? = some object ∧
        Deprecation.ofObject f object = .ok d ∧ args.head?.bind f.stringValue? = some message ∧
        f.Added g text (.literal (.string (d.warning message))) ∧
        f.IsMethodCall g "console" "warn" [some text] r
    | .runInDebug => ∃ callback grouped j, args.head? = some callback ∧ r = some j ∧
        f.Added g grouped (.parenthesized callback) ∧ f.Added g j (.call (some grouped) [])
    | helper => f.IsMethodCall g "console" helper.name args r

/-- The negated test of a deprecation, which is false if it is left out. -/
def IsCondition (f g : Forest) (test : Option Ref) (r : Ref) : Prop :=
  ∃ t, f.IsNegated g t r ∧
    (test = some t ∨ test = none ∧ ∃ l, t = some l ∧ f.Added g l (.literal (.boolean false)))

/-- The conditions between the flag and the call: only a deprecation has one. -/
def Conditions (f g : Forest) (helper : Helper) (args conditions : List Ref) : Prop :=
  if helper = .deprecate then ∃ r, conditions = [r] ∧ f.IsCondition g args[1]? r
  else conditions = []

section

variable {f g g' : Forest} {style : HelperStyle} {helper : Helper} {call : Nat} {args : List Ref}
  {r : Ref}

theorem Renders.mono (hg : ∀ ⦃j n⦄, f.Added g j n → f.Added g' j n)
    (h : f.Renders g style helper call args r) : f.Renders g' style helper call args r := by
  unfold Renders at h ⊢
  split at h
  next hext =>
    rw [if_pos hext]
    cases hglobal : style.global with
    | none =>
      rw [hglobal] at h
      exact h
    | some object =>
      rw [hglobal] at h
      exact IsMethodCall.mono hg h
  next hext =>
    rw [if_neg hext]
    cases helper with
    | «deprecate» =>
      obtain ⟨object, d, message, text, hobject, hd, hmessage, htext, hcall⟩ := h
      exact ⟨object, d, message, text, hobject, hd, hmessage, hg htext, hcall.mono hg⟩
    | runInDebug =>
      obtain ⟨callback, grouped, j, hcallback, rfl, hgrouped, hj⟩ := h
      exact ⟨callback, grouped, j, hcallback, rfl, hg hgrouped, hg hj⟩
    | assert | warn | log => exact IsMethodCall.mono hg h

theorem IsCondition.mono {test : Option Ref} (hg : ∀ ⦃j n⦄, f.Added g j n → f.Added g' j n)
    (h : f.IsCondition g test r) : f.IsCondition g' test r := by
  obtain ⟨t, ht, htest⟩ := h
  refine ⟨t, ht.mono hg, htest.imp_right (And.imp_right ?_)⟩
  rintro ⟨l, rfl, hl⟩
  exact ⟨l, rfl, hg hl⟩

theorem Conditions.mono {conditions : List Ref} (hg : ∀ ⦃j n⦄, f.Added g j n → f.Added g' j n)
    (h : f.Conditions g helper args conditions) : f.Conditions g' helper args conditions := by
  unfold Conditions at h ⊢
  split at h
  next hd =>
    obtain ⟨r, hr, hcond⟩ := h
    rw [if_pos hd]
    exact ⟨r, hr, hcond.mono hg⟩
  next hd => rwa [if_neg hd]

end

end Forest

namespace Draft

variable {f g : Forest} {keep : Prop} {c : Changes} {d d' : Draft} {root s t call : Nat}
  {style : HelperStyle} {helper : Helper} {callee r : Ref} {args : List Ref} {p : Pending}

/-- The helper call in the statement `s` has been prepared. -/
structure Ready (f : Forest) (keep : Prop) (style : HelperStyle) (helper : Helper) (s call : Nat)
    (args : List Ref) (d : Draft) (p : Pending) : Prop where
  statement : p.statement = some s
  operands : ∀ r ∈ p.call :: p.conditions, d.Operand f keep s r
  call : f.Renders d.forest style helper call args p.call
  conditions : f.Conditions d.forest helper args p.conditions

theorem Ready.grows (h : d.Ready f keep style helper s call args p) (hg : Grows f t d d') :
    d'.Ready f keep style helper s call args p where
  statement := h.statement
  operands r hr := (h.operands r hr).grows hg
  call := h.call.mono hg.node
  conditions := h.conditions.mono hg.node

/-! ### Reading the call -/

theorem field?_eq (h : d.Sound f keep c) (hp : f.Parsed root) (properties : List Ref)
    (hprops : ∀ i, some i ∈ properties → i < f.size) (name : String) :
    Deprecation.field? d.forest properties name = Deprecation.field? f properties name := by
  unfold Deprecation.field?
  induction properties with
  | nil => rfl
  | cons r properties ih =>
    rw [List.findSome?_cons, List.findSome?_cons, ih fun i hi => hprops i (.tail _ hi)]
    cases r with
    | none => rfl
    | some i =>
      rw [h.old (hprops i (by simp))]
      cases hn : f.node? (some i) with
      | none => rfl
      | some n =>
        cases n
        case property key quoted value shorthand =>
          cases value with
          | none => rfl
          | some v =>
            have hv := (hp.of_mem_children hn (i := v) (by simp [Node.children])).1
            have := hprops i (by simp)
            simp only [Option.map_some, Changes.node, h.stringValue?_eq (Nat.lt_trans hv this)]
        all_goals rfl

/-- The meta information of a deprecation reads as it was written. -/
theorem ofObject_eq (h : d.Sound f keep c) (hp : f.Parsed root) {i : Nat} (hi : i < f.size) :
    Deprecation.ofObject d.forest (some i) = Deprecation.ofObject f (some i) := by
  unfold Deprecation.ofObject
  rw [h.old hi]
  cases hn : f.node? (some i) with
  | none => rfl
  | some n =>
    cases n
    case object properties =>
      have hfield := field?_eq h hp properties fun k hk => by
        have := (hp.of_mem_children hn (i := k) (by simpa [Node.children] using hk)).1
        omega
      simp only [Option.map_some, Changes.node, Deprecation.required, hfield]
    all_goals rfl

theorem callIn (h : d.Sound f keep c)
    (hs : f.node? (some s) = some (.expressionStatement (some call)))
    (hc : f.node? (some call) = some (.call callee args)) (hclear : c.guarded s = none)
    {parts : Ref × List Ref} (hrun : Yields (helper.callIn (some s)) d.forest parts g) :
    parts = (some call, args) ∧ g = d.forest := by
  have hexpr : d.forest.statementExpression? (some s) = some (some call) := by
    rw [Forest.statementExpression?, h.old (Forest.lt_size_of_node? hs), hs, Option.map_some,
      Changes.node, hclear]
    rfl
  have hparts : d.forest.callParts? (some call) = some (callee, args) := by
    rw [Forest.callParts?, h.old (Forest.lt_size_of_node? hc), hc]
    rfl
  unfold Helper.callIn at hrun
  obtain ⟨g₀, t, hget, hrun⟩ := yields_bind.1 hrun
  obtain ⟨rfl, rfl⟩ := yields_get.1 hget
  rw [hexpr] at hrun
  dsimp only at hrun
  rw [hparts] at hrun
  obtain ⟨rfl, rfl⟩ := yields_pure.1 hrun
  exact ⟨rfl, rfl⟩

theorem lends_of_mem (keep : Prop) (hp : f.Parsed root)
    (hs : f.node? (some s) = some (.expressionStatement (some call)))
    (hc : f.node? (some call) = some (.call callee args)) (hr : r ∈ args) :
    ∃ i, r = some i ∧ f.Lends keep s i := by
  rcases hp.child hc r (by simp [Node.children, hr]) with ⟨-, h⟩ | ⟨i, m, rfl, -⟩
  · cases h
  · exact ⟨i, rfl, call, callee, args, hs, hc, .inl hr⟩

theorem operand_of_mem (hp : f.Parsed root)
    (hs : f.node? (some s) = some (.expressionStatement (some call)))
    (hc : f.node? (some call) = some (.call callee args)) (hr : r ∈ args) :
    d.Operand f keep s r := by
  obtain ⟨i, rfl, hlends⟩ := lends_of_mem keep hp hs hc hr
  exact ⟨i, rfl, .inr hlends⟩

/-! ### Rendering the call -/

/-- A helper that exists at run time. -/
theorem externalCall (helper : Helper) (h : d.Sound f keep c) (hp : f.Parsed root)
    (hs : f.node? (some s) = some (.expressionStatement (some call)))
    (hc : f.node? (some call) = some (.call callee args))
    (hkeep : style.global = none → keep) :
    ∃ d' r, Helper.externalCall style helper (some call) args d.forest = (r, d'.forest) ∧
      Makes f keep c s [] d r d' ∧
      style.global.elim (r = some call) fun object =>
        f.IsMethodCall d'.forest object helper.name args r := by
  unfold Helper.externalCall
  cases hg : style.global with
  | none =>
    have hlends : f.Lends keep s call := ⟨call, callee, args, hs, hc, .inr ⟨hkeep hg, rfl⟩⟩
    exact ⟨d, some call, rfl, ⟨h, .refl, ⟨call, rfl, .inr hlends⟩, fun i hi => .inr ⟨hi, nofun⟩⟩,
      rfl⟩
  | some object =>
    obtain ⟨d', j, hrun, hmake, hj⟩ := methodCall (s := s) h hp object
      helper.name args fun r hr => operand_of_mem hp hs hc hr
    refine ⟨d', some j, ?_, hmake.weaken (List.nil_subset _), hj⟩
    show (some <$> Helper.methodCall object helper.name args) d.forest = _
    rw [Build.map_apply, hrun]

/-- A helper that the console has too. -/
theorem consoleCall (h : d.Sound f keep c) (hp : f.Parsed root)
    (hs : f.node? (some s) = some (.expressionStatement (some call)))
    (hc : f.node? (some call) = some (.call callee args))
    (hkeep : style.isExternal = true → style.global = none → keep)
    (hd : helper ≠ .deprecate) (hr : helper ≠ .runInDebug) :
    ∃ d' r, Helper.consoleCall style helper (some call) args d.forest = (r, d'.forest) ∧
      Makes f keep c s [] d r d' ∧ f.Renders d'.forest style helper call args r := by
  unfold Helper.consoleCall Forest.Renders
  split
  next hext => exact externalCall helper h hp hs hc (hkeep hext)
  next hext =>
    obtain ⟨d', j, hrun, hmake, hj⟩ := methodCall (s := s) h hp "console"
      helper.name args fun r hr => operand_of_mem hp hs hc hr
    refine ⟨d', some j, ?_, hmake.weaken (List.nil_subset _), ?_⟩
    · show (some <$> Helper.methodCall "console" helper.name args) d.forest = _
      rw [Build.map_apply, hrun]
    · cases helper with
      | «deprecate» => exact absurd rfl hd
      | runInDebug => exact absurd rfl hr
      | assert | warn | log => exact hj

/-- A function that runs in debug builds only. -/
theorem callbackCall (h : d.Sound f keep c) (hp : f.Parsed root)
    (hs : f.node? (some s) = some (.expressionStatement (some call)))
    (hc : f.node? (some call) = some (.call callee args))
    (hkeep : style.isExternal = true → style.global = none → keep)
    (hrun : Yields (Helper.callbackCall style (some call) args) d.forest r g) :
    ∃ d', d'.forest = g ∧ Makes f keep c s [] d r d' ∧
      f.Renders d'.forest style .runInDebug call args r := by
  have hrun := hrun.callbackCall
  unfold Forest.Renders
  split at hrun
  next hext =>
    obtain ⟨d', r', hrun', hmake, hr⟩ := externalCall .runInDebug h hp hs hc
      (hkeep hext)
    obtain ⟨rfl, rfl⟩ := Prod.mk.inj (hrun'.symm.trans hrun)
    refine ⟨d', rfl, hmake, ?_⟩
    rw [if_pos hext]
    exact hr
  next hext =>
    obtain ⟨callback, grouped', j', g₁, hcallback, hnode₁, hnode₂, rfl⟩ := hrun
    have hmem : callback ∈ args := List.mem_of_mem_head? hcallback
    obtain ⟨d₁, grouped, hrun₁, hmake₁, hgrouped⟩ :=
      exists_expression (n := .parenthesized callback) (s := s) h hp rfl rfl (fun _ => rfl)
        (by simpa [Node.children] using operand_of_mem hp hs hc hmem)
    obtain ⟨d₂, j, hrun₂, hmake₂, hj⟩ :=
      exists_expression (n := .call (some grouped) []) (s := s) hmake₁.sound hp rfl rfl
        (fun _ => rfl) (by simpa [Node.children] using hmake₁.operand)
    obtain ⟨rfl, rfl⟩ := Prod.mk.inj (hrun₁.symm.trans hnode₁)
    obtain ⟨rfl, rfl⟩ := Prod.mk.inj (hrun₂.symm.trans hnode₂)
    refine ⟨d₂, rfl, (hmake₁.next hmake₂ (by simp [Node.children])).weaken
      (List.nil_subset _), ?_⟩
    rw [if_neg hext]
    exact ⟨callback, grouped, j, hcallback, rfl, hmake₂.grows.node hgrouped, hj⟩

/-- A deprecation that is printed as a warning. -/
theorem deprecationWarning (h : d.Sound f keep c) (hp : f.Parsed root)
    (hargs : ∀ r ∈ args, ∃ i, r = some i ∧ i < f.size) {j : Nat}
    (hrun : Yields (Helper.deprecationWarning args) d.forest j g) :
    ∃ d', d'.forest = g ∧ Makes f keep c s [] d (some j) d' ∧
      ∃ object dep message text, args[2]? = some object ∧
        Deprecation.ofObject f object = .ok dep ∧ args.head?.bind f.stringValue? = some message ∧
        f.Added g text (.literal (.string (dep.warning message))) ∧
        f.IsMethodCall g "console" "warn" [some text] (some j) := by
  obtain ⟨object, dep, message, text', g₁, hobject, hdep, hmessage, hnode, hcall⟩ :=
    hrun.deprecationWarning
  obtain ⟨d₁, text, hrun₁, hmake₁, htext⟩ := exists_expression
    (n := .literal (.string (dep.warning message))) (s := s) h hp rfl rfl (fun _ => rfl) nofun
  obtain ⟨d₂, j', hrun₂, hmake₂, hj⟩ := methodCall (s := s) hmake₁.sound hp
    "console" "warn" [some text] (by simpa using hmake₁.operand)
  obtain ⟨rfl, rfl⟩ := Prod.mk.inj (hrun₁.symm.trans hnode)
  obtain ⟨rfl, rfl⟩ := Prod.mk.inj (hrun₂.symm.trans hcall)
  obtain ⟨i, rfl, hi⟩ := hargs object (List.mem_of_getElem? hobject)
  rw [ofObject_eq h hp hi] at hdep
  have hmessage' : args.head?.bind f.stringValue? = some message := by
    rw [← hmessage]
    cases hhead : args.head? with
    | none => rfl
    | some r =>
      obtain ⟨k, rfl, hk⟩ := hargs r (List.mem_of_mem_head? hhead)
      exact (h.stringValue?_eq hk).symm
  exact ⟨d₂, rfl, (hmake₁.next hmake₂ (by simp)).weaken (List.nil_subset _), some i, dep,
    message, text, hobject, hdep, hmessage', hmake₂.grows.node htext, hj⟩

/-- The call of a deprecation. -/
theorem deprecationCall (h : d.Sound f keep c) (hp : f.Parsed root)
    (hs : f.node? (some s) = some (.expressionStatement (some call)))
    (hc : f.node? (some call) = some (.call callee args))
    (hkeep : style.isExternal = true → style.global = none → keep)
    (hrun : Yields (Helper.deprecationCall style (some call) args) d.forest r g) :
    ∃ d', d'.forest = g ∧ Makes f keep c s [] d r d' ∧
      f.Renders d'.forest style .deprecate call args r := by
  have hargs : ∀ r ∈ args, ∃ i, r = some i ∧ i < f.size := by
    intro r hr
    obtain ⟨i, rfl, hlends⟩ := lends_of_mem keep hp hs hc hr
    exact ⟨i, rfl, hlends.lt_size hp⟩
  have hrun := hrun.deprecationCall
  unfold Forest.Renders
  split at hrun
  next hext =>
    obtain ⟨d', r', hrun', hmake, hr⟩ := externalCall .deprecate h hp hs hc
      (hkeep hext)
    obtain ⟨rfl, rfl⟩ := Prod.mk.inj (hrun'.symm.trans hrun)
    refine ⟨d', rfl, hmake, ?_⟩
    rw [if_pos hext]
    exact hr
  next hext =>
    obtain ⟨j, hwarning, rfl⟩ := hrun
    obtain ⟨d', rfl, hmake, hrender⟩ := deprecationWarning (s := s) h hp hargs hwarning
    refine ⟨d', rfl, hmake, ?_⟩
    rw [if_neg hext]
    exact hrender

/-- What is prepared for a helper call in a statement is ready, and waits for its place. -/
theorem build (h : d.Sound f keep c) (hp : f.Parsed root)
    (hs : f.node? (some s) = some (.expressionStatement (some call)))
    (hc : f.node? (some call) = some (.call callee args)) (hclear : c.guarded s = none)
    (hkeep : style.isExternal = true → style.global = none → keep)
    (hrun : Yields (helper.build style (some s)) d.forest p g) :
    ∃ d', d'.forest = g ∧ d'.Sound f keep c ∧ Grows f s d d' ∧
      d'.Ready f keep style helper s call args p ∧
      ∀ i ∈ d'.loose, i ∈ d.loose ∨ some i ∈ p.call :: p.conditions := by
  unfold Helper.build at hrun
  obtain ⟨parts, g₁, hparts, hrun⟩ := yields_bind.1 hrun
  obtain ⟨rfl, rfl⟩ := callIn h hs hc hclear hparts
  -- All helpers but two are calls of the console.
  have hconsole (hd : helper ≠ .deprecate) (hr : helper ≠ .runInDebug)
      (hrun : Yields (do return ⟨some s, [], ← Helper.consoleCall style helper (some call) args⟩ :
        Reshape Pending) d.forest p g) :
      ∃ d', d'.forest = g ∧ d'.Sound f keep c ∧ Grows f s d d' ∧
        d'.Ready f keep style helper s call args p ∧
        ∀ i ∈ d'.loose, i ∈ d.loose ∨ some i ∈ p.call :: p.conditions := by
    obtain ⟨r, g₂, hlift, hrun⟩ := yields_bind.1 hrun
    obtain ⟨rfl, rfl⟩ := yields_pure.1 hrun
    obtain ⟨d', r', hrun', hmake, hrender⟩ := consoleCall h hp hs hc hkeep hd hr
    obtain ⟨rfl, rfl⟩ := hlift.of_lift hrun'
    refine ⟨d', rfl, hmake.sound, hmake.grows, ⟨rfl, by simpa using hmake.operand, hrender, ?_⟩,
      fun i hi => ?_⟩
    · rw [Forest.Conditions, if_neg hd]
    · exact (hmake.loose i hi).symm.imp And.left fun hi => by simp [hi]
  cases helper with
  | «deprecate» =>
    obtain ⟨cond, g₁, hlift, hrun⟩ := yields_bind.1 hrun
    obtain ⟨r, g₂, hcall, hrun⟩ := yields_bind.1 hrun
    obtain ⟨rfl, rfl⟩ := yields_pure.1 hrun
    obtain ⟨d₁, j, hrun₁, hmake₁, t, hnegated, htest⟩ := negated (s := s) h hp args[1]?
      fun r hr => operand_of_mem hp hs hc (List.mem_of_getElem? hr)
    obtain ⟨rfl, rfl⟩ := hlift.of_lift hrun₁
    obtain ⟨d₂, rfl, hmake₂, hrender⟩ := deprecationCall hmake₁.sound hp hs hc hkeep hcall
    refine ⟨d₂, rfl, hmake₂.sound, hmake₁.grows.trans hmake₂.grows, ⟨rfl, ?_, hrender, ?_⟩,
      fun i hi => ?_⟩
    · simpa using ⟨hmake₂.operand, hmake₁.operand.grows hmake₂.grows⟩
    · rw [Forest.Conditions, if_pos rfl]
      exact ⟨_, rfl, Forest.IsCondition.mono hmake₂.grows.node ⟨t, hnegated, htest⟩⟩
    · rcases hmake₂.loose i hi with rfl | ⟨hi, -⟩
      · exact .inr (by simp)
      · exact (hmake₁.loose i hi).symm.imp And.left fun hi => by simp [hi]
  | runInDebug =>
    obtain ⟨r, g₂, hcall, hrun⟩ := yields_bind.1 hrun
    obtain ⟨rfl, rfl⟩ := yields_pure.1 hrun
    obtain ⟨d', rfl, hmake, hrender⟩ := callbackCall h hp hs hc hkeep hcall
    refine ⟨d', rfl, hmake.sound, hmake.grows, ⟨rfl, by simpa using hmake.operand, hrender, ?_⟩,
      fun i hi => ?_⟩
    · rw [Forest.Conditions, if_neg nofun]
    · exact (hmake.loose i hi).symm.imp And.left fun hi => by simp [hi]
  | assert | warn | log => exact hconsole nofun nofun hrun

end Draft

end DebugGuard
