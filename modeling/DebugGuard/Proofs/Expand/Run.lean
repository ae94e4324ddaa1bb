import DebugGuard.Expand.Module
import Mathlib

/-!
# Steps that go through, and steps that are refused

`Yields x s a s'` says that the step `x`, taken in the state `s`, goes through with the result `a`
and leaves the state `s'`; `Refuses x s e s'` says that it is refused with the error `e`.  Each way
of putting steps together is taken apart by one lemma.
-/

namespace DebugGuard

section

variable {σ ε α β : Type}

/-- The step goes through. -/
def Yields (x : ExceptT ε (StateM σ) α) (s : σ) (a : α) (s' : σ) : Prop :=
  x s = (.ok a, s')

variable {x : ExceptT ε (StateM σ) α} {k : α → ExceptT ε (StateM σ) β} {s s' : σ} {a a' : α} {b : β}

theorem yields_bind :
    Yields (x >>= k) s b s' ↔ ∃ a t, Yields x s a t ∧ Yields (k a) t b s' := by
  have hbind : (x >>= k) s = (ExceptT.bindCont k (x s).1 : StateM σ (Except ε β)) (x s).2 := rfl
  unfold Yields
  rw [hbind]
  cases h : x s with
  | mk r t =>
    constructor
    · intro hk
      cases r with
      | ok a => exact ⟨a, t, rfl, hk⟩
      | error e => cases congrArg Prod.fst hk
    · rintro ⟨a', t', ⟨⟩, hk⟩
      exact hk

@[simp] theorem yields_pure : Yields (pure a : ExceptT ε (StateM σ) α) s a' s' ↔
    a = a' ∧ s = s' := by
  show (Except.ok a, s) = (Except.ok a', s') ↔ _
  simp

@[simp] theorem not_yields_throw {e : ε} :
    ¬Yields (throw e : ExceptT ε (StateM σ) α) s a s' := by
  show ¬(Except.error e, s) = (Except.ok a, s')
  simp

@[simp] theorem yields_get {t : σ} : Yields (get : ExceptT ε (StateM σ) σ) s t s' ↔
    s = t ∧ s = s' := by
  show (Except.ok s, s) = (Except.ok t, s') ↔ _
  simp

@[simp] theorem yields_set {t : σ} {u : PUnit} : Yields (set t : ExceptT ε (StateM σ) PUnit) s u s' ↔
    t = s' := by
  show (Except.ok _, t) = (Except.ok u, s') ↔ _
  simp

@[simp] theorem yields_modify {f : σ → σ} {u : PUnit} :
    Yields (modify f : ExceptT ε (StateM σ) PUnit) s u s' ↔ f s = s' := by
  show (Except.ok _, f s) = (Except.ok u, s') ↔ _
  simp

/-- A step that cannot be refused goes through. -/
@[simp] theorem yields_lift {y : StateM σ α} :
    Yields (liftM y : ExceptT ε (StateM σ) α) s a s' ↔ y s = (a, s') := by
  show (Except.ok (y s).1, (y s).2) = (Except.ok a, s') ↔ _
  rw [Prod.mk.injEq, Except.ok.injEq]
  constructor
  · rintro ⟨rfl, rfl⟩
    rfl
  · intro h
    rw [h]
    exact ⟨rfl, rfl⟩

theorem Yields.of_lift {y : StateM σ α} {t : σ}
    (h : Yields (liftM y : ExceptT ε (StateM σ) α) s a s') (hy : y s = (a', t)) :
    a' = a ∧ t = s' :=
  Prod.mk.inj (hy.symm.trans (yields_lift.1 h))

theorem yields_map {f : α → β} :
    Yields (f <$> x) s b s' ↔ ∃ a, Yields x s a s' ∧ f a = b := by
  rw [← bind_pure_comp, yields_bind]
  simp

theorem yields_discard {u : PUnit} : Yields (discard x) s u s' ↔ ∃ a, Yields x s a s' := by
  show Yields ((fun _ => PUnit.unit) <$> x) s u s' ↔ _
  simp [yields_map]

@[simp] theorem yields_mapM_nil {γ : Type} {F : γ → ExceptT ε (StateM σ) α} {as : List α} :
    Yields (([] : List γ).mapM F) s as s' ↔ [] = as ∧ s = s' := by
  rw [List.mapM_nil, yields_pure]

theorem yields_mapM_cons {γ : Type} {F : γ → ExceptT ε (StateM σ) α} {c : γ} {cs : List γ}
    {as : List α} : Yields ((c :: cs).mapM F) s as s' ↔
      ∃ a t as', Yields (F c) s a t ∧ Yields (cs.mapM F) t as' s' ∧ as = a :: as' := by
  simp only [List.mapM_cons, yields_bind, yields_pure]
  constructor
  · rintro ⟨a, t, ha, as', t', has, rfl, rfl⟩
    exact ⟨a, t, as', ha, has, rfl⟩
  · rintro ⟨a, t, as', ha, has, rfl⟩
    exact ⟨a, t, ha, as', s', has, rfl, rfl⟩

@[simp] theorem yields_forM_nil {γ : Type} {F : γ → ExceptT ε (StateM σ) PUnit} {u : PUnit} :
    Yields (([] : List γ).forM F) s u s' ↔ s = s' := by
  show Yields (pure PUnit.unit) s u s' ↔ _
  simp

theorem yields_forM_cons {γ : Type} {F : γ → ExceptT ε (StateM σ) PUnit} {c : γ} {cs : List γ}
    {u : PUnit} : Yields ((c :: cs).forM F) s u s' ↔
      ∃ t, Yields (F c) s u t ∧ Yields (cs.forM F) t u s' := by
  show Yields (F c >>= fun _ => cs.forM F) s u s' ↔ _
  rw [yields_bind]
  constructor
  · rintro ⟨_, t, h, h'⟩
    exact ⟨t, h, h'⟩
  · rintro ⟨t, h, h'⟩
    exact ⟨u, t, h, h'⟩

end

section

variable {σ ε α β : Type}

/-- The step is refused. -/
def Refuses (x : ExceptT ε (StateM σ) α) (s : σ) (e : ε) (s' : σ) : Prop :=
  x s = (.error e, s')

theorem yields_or_refuses (x : ExceptT ε (StateM σ) α) (s : σ) :
    (∃ a t, Yields x s a t) ∨ ∃ e t, Refuses x s e t := by
  unfold Yields Refuses
  rcases x s with ⟨a | e, t⟩
  · exact .inr ⟨_, _, rfl⟩
  · exact .inl ⟨_, _, rfl⟩

variable {x : ExceptT ε (StateM σ) α} {k : α → ExceptT ε (StateM σ) β} {s s' t : σ} {a : α}
  {e e' : ε}

theorem Yields.bind_apply (h : Yields x s a t) : (x >>= k) s = k a t := by
  show (ExceptT.bindCont k (x s).1 : StateM σ (Except ε β)) (x s).2 = _
  rw [h]
  rfl

/-- Nothing is done after a step that is refused. -/
theorem Refuses.bind_apply (h : Refuses x s e t) : (x >>= k) s = (.error e, t) := by
  show (ExceptT.bindCont k (x s).1 : StateM σ (Except ε β)) (x s).2 = _
  rw [h]
  rfl

theorem refuses_bind : Refuses (x >>= k) s e s' ↔
    Refuses x s e s' ∨ ∃ a t, Yields x s a t ∧ Refuses (k a) t e s' := by
  constructor
  · intro h
    rcases yields_or_refuses x s with ⟨a, t, hx⟩ | ⟨e', t, hx⟩
    · exact .inr ⟨a, t, hx, hx.bind_apply.symm.trans h⟩
    · cases hx.bind_apply.symm.trans h
      exact .inl hx
  · rintro (hx | ⟨a, t, hx, h⟩)
    · exact hx.bind_apply
    · exact hx.bind_apply.trans h

@[simp] theorem not_refuses_pure : ¬Refuses (pure a : ExceptT ε (StateM σ) α) s e s' := by
  rintro ⟨⟩

@[simp] theorem refuses_throw : Refuses (throw e : ExceptT ε (StateM σ) α) s e' s' ↔
    e = e' ∧ s = s' := by
  show (Except.error e, s) = ((Except.error e', s') : Except ε α × σ) ↔ _
  simp

@[simp] theorem not_refuses_get : ¬Refuses (get : ExceptT ε (StateM σ) σ) s e s' := by
  rintro ⟨⟩

@[simp] theorem not_refuses_lift {y : StateM σ α} :
    ¬Refuses (liftM y : ExceptT ε (StateM σ) α) s e s' := by
  rintro ⟨⟩

theorem refuses_discard {u : ε} : Refuses (discard x) s u s' ↔ Refuses x s u s' := by
  show Refuses (x >>= fun _ => pure PUnit.unit) s u s' ↔ _
  rw [refuses_bind]
  simp only [not_refuses_pure, and_false, exists_false, or_false]

end

/-! ### The steps of an expansion -/

theorem yields_edit {change : Forest → Except EditError Forest} {f g : Forest} {u : Unit} :
    Yields (Reshape.edit change) f u g ↔ change f = .ok g := by
  unfold Reshape.edit
  rw [yields_bind]
  constructor
  · rintro ⟨f', t, hget, h⟩
    obtain ⟨rfl, rfl⟩ := yields_get.1 hget
    split at h
    next g' hg =>
      rw [hg, yields_set.1 h]
    next e he => exact absurd h not_yields_throw
  · intro h
    refine ⟨f, f, yields_get.2 ⟨rfl, rfl⟩, ?_⟩
    rw [h]
    exact yields_set.2 rfl

namespace Expand

variable {w w' : Work} {α : Type} {a : α} {u : Unit}

@[simp] theorem yields_forest {f : Forest} : Yields forest w f w' ↔ w.forest = f ∧ w = w' := by
  show (Except.ok w.forest, w) = (Except.ok f, w') ↔ _
  simp

theorem yields_reshape {step : Reshape α} :
    Yields (reshape step) w a w' ↔
      ∃ g, Yields step w.forest a g ∧ w' = { w with forest := g } := by
  show ((step w.forest).1, { w with forest := (step w.forest).2 }) = (Except.ok a, w') ↔
    ∃ g, step w.forest = (Except.ok a, g) ∧ _
  cases h : step w.forest with
  | mk r g =>
    constructor
    · rintro ⟨⟩
      exact ⟨g, rfl, rfl⟩
    · rintro ⟨g', ⟨⟩, rfl⟩
      rfl

@[simp] theorem yields_modifyExpander {change : Expander → Expander} :
    Yields (modifyExpander change) w u w' ↔ { w with expander := change w.expander } = w' :=
  yields_modify

end Expand

/-! ### What has been built when a step goes through -/

namespace Yields

variable {style : HelperStyle} {settings : Settings} {flags : Flags} {module name : String}
  {object call r : Ref} {args : List Ref} {dep : Deprecation} {f g : Forest} {j : Nat} {u : Unit}

/-- Meta information is read if it is complete, and reading changes nothing. -/
theorem readDeprecation (h : Yields (Helper.readDeprecation object) f dep g) :
    Deprecation.ofObject f object = .ok dep ∧ g = f := by
  unfold Helper.readDeprecation at h
  obtain ⟨f₀, t, hget, h⟩ := yields_bind.1 h
  obtain ⟨rfl, rfl⟩ := yields_get.1 hget
  split at h
  next dep' hdep =>
    obtain ⟨rfl, rfl⟩ := yields_pure.1 h
    exact ⟨hdep, rfl⟩
  next => exact absurd h not_yields_throw

/-- A warning needs complete meta information and a message. -/
theorem deprecationWarning (h : Yields (Helper.deprecationWarning args) f j g) :
    ∃ object dep message text g₁, args[2]? = some object ∧
      Deprecation.ofObject f object = .ok dep ∧ args.head?.bind f.stringValue? = some message ∧
      Build.node (.literal (.string (dep.warning message))) f = (text, g₁) ∧
      Helper.methodCall "console" "warn" [some text] g₁ = (j, g) := by
  unfold Helper.deprecationWarning at h
  split at h
  next => exact absurd h not_yields_throw
  next object hobject =>
    obtain ⟨dep, f₁, hread, hrest⟩ := yields_bind.1 h
    obtain ⟨hdep, rfl⟩ := hread.readDeprecation
    obtain ⟨f₀, t, hget, hrest⟩ := yields_bind.1 hrest
    obtain ⟨rfl, rfl⟩ := yields_get.1 hget
    split at hrest
    next => exact absurd hrest not_yields_throw
    next message hmessage =>
      obtain ⟨text, g₁, htext, hcall⟩ := yields_bind.1 hrest
      exact ⟨object, dep, message, text, g₁, hobject, hdep, hmessage, yields_lift.1 htext,
        yields_lift.1 hcall⟩

/-- A deprecation is a call of the helper if that exists at run time, and else a warning. -/
theorem deprecationCall (h : Yields (Helper.deprecationCall style call args) f r g) :
    if style.isExternal = true then
      Helper.externalCall style .deprecate call args f = (r, g)
    else ∃ j, Yields (Helper.deprecationWarning args) f j g ∧ r = some j := by
  unfold Helper.deprecationCall at h
  split at h
  next hext =>
    rw [if_pos hext]
    obtain ⟨f₀, t, hget, h⟩ := yields_bind.1 h
    obtain ⟨rfl, rfl⟩ := yields_get.1 hget
    -- the meta information is only checked here
    dsimp only at h
    split at h
    next object _ =>
      obtain ⟨u, f₁, hread, hcall⟩ := yields_bind.1 h
      obtain ⟨dep, hread⟩ := yields_discard.1 hread
      obtain ⟨-, rfl⟩ := hread.readDeprecation
      exact yields_lift.1 hcall
    next => exact yields_lift.1 h
  next hext =>
    rw [if_neg hext]
    obtain ⟨j, g₁, hwarning, h⟩ := yields_bind.1 h
    obtain ⟨rfl, rfl⟩ := yields_pure.1 h
    exact ⟨j, hwarning, rfl⟩

/-- A callback is called in parentheses if the helper does not exist at run time. -/
theorem callbackCall (h : Yields (Helper.callbackCall style call args) f r g) :
    if style.isExternal = true then
      Helper.externalCall style .runInDebug call args f = (r, g)
    else ∃ callback grouped j g₁, args.head? = some callback ∧
      Build.node (.parenthesized callback) f = (grouped, g₁) ∧
      Build.node (.call (some grouped) []) g₁ = (j, g) ∧ r = some j := by
  unfold Helper.callbackCall at h
  split at h
  next hext =>
    rw [if_pos hext]
    exact yields_lift.1 h
  next hext =>
    rw [if_neg hext]
    split at h
    next => exact absurd h not_yields_throw
    next callback hcallback =>
      obtain ⟨grouped, g₁, hgrouped, h⟩ := yields_bind.1 h
      obtain ⟨j, g₂, hcall, h⟩ := yields_bind.1 h
      obtain ⟨rfl, rfl⟩ := yields_pure.1 h
      exact ⟨callback, grouped, j, g₁, hcallback, yields_lift.1 hgrouped, yields_lift.1 hcall, rfl⟩

/-- The constant for a specifier has the value of the flag that is imported. -/
theorem ofSpecifier (h : Yields (Flag.ofSpecifier flags module r) f j g) :
    ∃ flag value, f.importedName? r = some flag ∧ flags.find? flag = some value ∧
      Flag.constant ((f.localName? r).getD "") value f = (j, g) := by
  unfold Flag.ofSpecifier at h
  obtain ⟨f₀, t, hget, h⟩ := yields_bind.1 h
  obtain ⟨rfl, rfl⟩ := yields_get.1 hget
  dsimp only at h
  split at h
  next => exact absurd h not_yields_throw
  next flag hflag =>
    split at h
    next => exact absurd h not_yields_throw
    next value hvalue => exact ⟨flag, value, hflag, hvalue, yields_lift.1 h⟩

/-- The constants for the specifiers of an import take its place. -/
theorem inlineImport (h : Yields (Flag.inlineImport flags module r) f u g) :
    ∃ ds g₁, Yields (Flag.constants flags module (f.importSpecifiers r)) f ds g₁ ∧
      g₁.splice r (ds.map some) = .ok g := by
  unfold Flag.inlineImport at h
  obtain ⟨f₀, t, hget, h⟩ := yields_bind.1 h
  obtain ⟨rfl, rfl⟩ := yields_get.1 hget
  obtain ⟨ds, g₁, hconstants, hedit⟩ := yields_bind.1 h
  exact ⟨ds, g₁, hconstants, yields_edit.1 hedit⟩

theorem injectFlag (h : Yields (Expand.injectFlag settings r name) f u g) :
    ∃ j g₁, Flag.constant name settings.debug f = (j, g₁) ∧ g₁.putFirst r (some j) = .ok g := by
  unfold Expand.injectFlag at h
  obtain ⟨j, g₁, hconstant, hedit⟩ := yields_bind.1 h
  exact ⟨j, g₁, yields_lift.1 hconstant, yields_edit.1 hedit⟩

end Yields

end DebugGuard
