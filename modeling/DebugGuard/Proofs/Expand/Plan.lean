import DebugGuard.Expand.Expander
import DebugGuard.Expand.Helper
import DebugGuard.Proofs.Scope.Lookup

/-!
# What an expansion sets out to do

Which imports of a parsed script are inlined, which one is removed and which statements are guarded,
all of it said of the script as it was parsed.
-/

namespace DebugGuard

/-- Helper calls stay as they are written, behind the flag. -/
def Settings.KeepsCalls (s : Settings) : Prop :=
  s.helpers.isExternal = true ∧ s.helpers.global = none

namespace Forest

variable (f : Forest) (settings : Settings) (root : Nat)

/-- An import of a feature module. -/
def importsFeature (i : Nat) : Bool :=
  (f.importSource? (some i)).any settings.isFeatureSource

/-- An import of the debug tools that is none of a feature module. -/
def importsTools (i : Nat) : Bool :=
  (f.importSource? (some i)).any fun source =>
    !settings.isFeatureSource source && source == settings.toolsSource

/-- The names that an import of the debug tools binds. -/
def toolNamesOf (i : Nat) : List String :=
  if f.importsTools settings i then (f.importSpecifiers (some i)).filterMap f.localName? else []

/-- The names that imports of the debug tools bind in front of the node `k`. -/
def toolNames (k : Nat) : List String :=
  (List.range k).flatMap (f.toolNamesOf settings)

/-- The name that a statement calls. -/
def calledName? (i : Nat) : Option String :=
  ((f.statementExpression? (some i)).bind f.callParts?).bind fun parts => f.identifierName? parts.1

/-- The import specifier that a statement calls as a debug helper.  An import of the debug tools in
front of the statement has to bind the name, and where the statement stands some import has to bind
it; constants for imports of features in front of it do not count. -/
def helperCall? (i : Nat) : Option Binding :=
  (f.calledName? i).bind fun name =>
    if (f.toolNames settings i).contains name then
      (f.resolve? (some i) name).filter fun b =>
        b.kind = .module && !(decide (b.owner < i) && f.importsFeature settings b.owner)
    else none

/-- The helper that a statement calls. -/
def helper? (i : Nat) : Option Helper :=
  ((f.helperCall? settings i).bind fun b => b.imported? f).bind Helper.ofName?

/-- The statements in front of the node `k` that call helpers. -/
def queued (k : Nat) : List Nat :=
  (List.range k).filter fun i => (f.helperCall? settings i).isSome

/-- The import of the debug flag, as long as it is none of a feature module. -/
def flagBinding? : Option Binding :=
  if settings.isFeatureSource envFlagsModule then none else Expand.flagImport? f (some root)

/-- The flags that an import is inlined with. -/
def inlinedFlags? (i : Nat) : Option Flags :=
  (f.importSource? (some i)).bind fun source =>
    match settings.featureSpec? source with
    | some spec => some spec.flags
    | none =>
      if (f.flagBinding? settings root).any (·.owner == i) then some settings.envFlags else none

/-- The import that is removed: the one that binds the first name of the debug tools. -/
def droppedImport? : Option Nat :=
  if settings.helpers.dropsImport then
    (f.toolNames settings f.size).head?.bind fun first =>
      (f.resolve? (some root) first).map (·.owner)
  else none

/-- The import that has to be removed can be found. -/
def FindsDropped : Prop :=
  settings.helpers.dropsImport = true → f.toolNames settings f.size ≠ [] →
    (f.droppedImport? settings root).isSome = true

variable {f settings root} {i k : Nat} {specifiers : List Ref} {source : String} {n : Node Ref}

/-! ### Imports and other nodes -/

theorem importSource?_import (hn : f.node? (some i) = some (.importFrom specifiers source)) :
    f.importSource? (some i) = some source := by
  rw [importSource?, hn]
  rfl

theorem importsFeature_of_source (h : f.importSource? (some i) = some source) :
    f.importsFeature settings i = settings.isFeatureSource source := by
  rw [importsFeature, h, Option.any_some]

theorem importsTools_import (hn : f.node? (some i) = some (.importFrom specifiers source)) :
    f.importsTools settings i =
      (!settings.isFeatureSource source && source == settings.toolsSource) := by
  rw [importsTools, importSource?_import hn, Option.any_some]

/-- What is no import imports neither features nor debug tools. -/
theorem imports_eq_false (hn : f.node? (some i) = some n) (h : n.isImport = false) :
    f.importsFeature settings i = false ∧ f.importsTools settings i = false := by
  have hsource : f.importSource? (some i) = none := by
    rw [importSource?, hn, Option.bind_some]
    cases n <;> first | rfl | cases h
  exact ⟨by rw [importsFeature, hsource, Option.any_none],
    by rw [importsTools, hsource, Option.any_none]⟩

theorem toolNames_succ : f.toolNames settings (k + 1) =
    f.toolNames settings k ++ f.toolNamesOf settings k := by
  rw [toolNames, List.range_succ, List.flatMap_append]
  simp [toolNames]

theorem queued_succ : f.queued settings (k + 1) =
    f.queued settings k ++ if (f.helperCall? settings k).isSome then [k] else [] := by
  rw [queued, List.range_succ, List.filter_append, List.filter_cons, List.filter_nil]
  rfl

theorem mem_queued : i ∈ f.queued settings k ↔
    i < k ∧ (f.helperCall? settings i).isSome = true := by
  simp [queued]

theorem mem_toolNames {x : String} : x ∈ f.toolNames settings k ↔
    ∃ i < k, f.importsTools settings i = true ∧
      ∃ s ∈ f.importSpecifiers (some i), f.localName? s = some x := by
  simp only [toolNames, toolNamesOf, List.mem_flatMap, List.mem_range]
  constructor
  · rintro ⟨i, hi, hx⟩
    split at hx
    next htools => exact ⟨i, hi, htools, List.mem_filterMap.1 hx⟩
    next => cases hx
  · rintro ⟨i, hi, htools, hx⟩
    refine ⟨i, hi, ?_⟩
    rw [if_pos htools]
    exact List.mem_filterMap.2 hx

theorem exists_of_importsTools (h : f.importsTools settings i = true) :
    f.importSource? (some i) = some settings.toolsSource ∧
      settings.isFeatureSource settings.toolsSource = false ∧ ∃ specifiers,
        f.node? (some i) = some (.importFrom specifiers settings.toolsSource) ∧
          f.importSpecifiers (some i) = specifiers := by
  rw [importsTools, Option.any_eq_true] at h
  obtain ⟨source, hsource, htools⟩ := h
  rw [Bool.and_eq_true, Bool.not_eq_true', beq_iff_eq] at htools
  obtain ⟨hfeature, rfl⟩ := htools
  obtain ⟨n, hn, hn'⟩ := Option.bind_eq_some_iff.1 hsource
  cases n <;> cases hn'
  exact ⟨hsource, hfeature, _, hn, by rw [importSpecifiers, hn]; rfl⟩

theorem isFeatureSource_iff :
    settings.isFeatureSource source = true ↔ ∃ spec, settings.featureSpec? source = some spec := by
  rw [Settings.isFeatureSource, Settings.featureSpec?, List.any_eq_true, ← List.find?_isSome,
    Option.isSome_iff_exists]

theorem exists_inlinedFlags? (root : Nat) (h : f.importsFeature settings i = true) :
    ∃ flags, f.inlinedFlags? settings root i = some flags := by
  rw [importsFeature, Option.any_eq_true] at h
  obtain ⟨source, hsource, hfeature⟩ := h
  obtain ⟨spec, hspec⟩ := isFeatureSource_iff.1 hfeature
  exact ⟨spec.flags, by rw [inlinedFlags?, hsource, Option.bind_some, hspec]⟩

theorem inlinedFlags?_feature (root : Nat) {spec : FeatureSpec}
    (hsource : f.importSource? (some i) = some source)
    (hspec : settings.featureSpec? source = some spec) :
    f.inlinedFlags? settings root i = some spec.flags := by
  rw [inlinedFlags?, hsource, Option.bind_some, hspec]

theorem exists_of_flagBinding? {b : Binding} (h : f.flagBinding? settings root = some b) :
    settings.isFeatureSource envFlagsModule = false ∧ f.resolve? (some root) debugName = some b ∧
      b.kind = .module ∧ f.importSource? (some b.owner) = some envFlagsModule := by
  unfold flagBinding? at h
  split at h
  next => cases h
  next hfeature =>
    obtain ⟨hb, hsource⟩ := Option.filter_eq_some_iff.1 h
    rw [decide_eq_true_iff, Binding.source?] at hsource
    split at hsource
    next hkind => exact ⟨by simpa using hfeature, hb, hkind, hsource⟩
    next => cases hsource

theorem inlinedFlags?_flagBinding {b : Binding} (h : f.flagBinding? settings root = some b) :
    f.inlinedFlags? settings root b.owner = some settings.envFlags := by
  obtain ⟨hfeature, -, -, hsource⟩ := exists_of_flagBinding? h
  have hspec : settings.featureSpec? envFlagsModule = none := by
    rw [Option.eq_none_iff_forall_ne_some]
    intro spec hspec
    rw [isFeatureSource_iff.2 ⟨spec, hspec⟩] at hfeature
    cases hfeature
  rw [inlinedFlags?, hsource, Option.bind_some, hspec, h]
  simp

/-- What is inlined is the imports of features and the import of the debug flag. -/
theorem isSome_inlinedFlags? : (f.inlinedFlags? settings root i).isSome = true ↔
    f.importsFeature settings i = true ∨
      ∃ b, f.flagBinding? settings root = some b ∧ b.owner = i := by
  constructor
  · intro h
    obtain ⟨flags, hflags⟩ := Option.isSome_iff_exists.1 h
    obtain ⟨source, hsource, hflags⟩ := Option.bind_eq_some_iff.1 hflags
    split at hflags
    next spec hspec =>
      left
      rw [importsFeature_of_source hsource]
      exact isFeatureSource_iff.2 ⟨spec, hspec⟩
    next =>
      right
      split at hflags
      next howner => simpa [Option.any_eq_true] using howner
      next => cases hflags
  · rintro (h | ⟨b, hb, rfl⟩)
    · obtain ⟨flags, hflags⟩ := exists_inlinedFlags? root h
      rw [hflags]
      rfl
    · rw [inlinedFlags?_flagBinding hb]
      rfl

theorem exists_of_droppedImport? (h : f.droppedImport? settings root = some i) :
    settings.helpers.dropsImport = true ∧ ∃ first b,
      (f.toolNames settings f.size).head? = some first ∧
        f.resolve? (some root) first = some b ∧ b.owner = i := by
  unfold droppedImport? at h
  split at h
  next hdrops =>
    obtain ⟨first, hfirst, h⟩ := Option.bind_eq_some_iff.1 h
    obtain ⟨b, hb, howner⟩ := Option.map_eq_some_iff.1 h
    exact ⟨hdrops, first, b, hfirst, hb, howner⟩
  next => cases h

/-- Only statements that hold a call of a name call helpers. -/
theorem calledName?_eq_some {name : String} : f.calledName? i = some name ↔
    ∃ call callee args, f.node? (some i) = some (.expressionStatement call) ∧
      f.node? call = some (.call callee args) ∧ f.node? callee = some (.identifier name) := by
  simp only [calledName?, statementExpression?, callParts?, identifierName?,
    Option.bind_eq_some_iff]
  constructor
  · rintro ⟨⟨callee, args⟩, ⟨call, ⟨n, hn, hcall⟩, m, hm, hparts⟩, o, ho, hname⟩
    cases n <;> cases hcall
    cases m <;> cases hparts
    cases o <;> cases hname
    exact ⟨call, callee, args, hn, hm, ho⟩
  · rintro ⟨call, callee, args, hn, hm, ho⟩
    exact ⟨(callee, args), ⟨call, ⟨_, hn, rfl⟩, _, hm, rfl⟩, _, ho, rfl⟩

theorem exists_of_helperCall? {b : Binding} (h : f.helperCall? settings i = some b) :
    ∃ name, f.calledName? i = some name ∧ name ∈ f.toolNames settings i ∧
      f.resolve? (some i) name = some b ∧ b.kind = .module ∧
      (b.owner < i → f.importsFeature settings b.owner = false) := by
  obtain ⟨name, hname, h⟩ := Option.bind_eq_some_iff.1 h
  split at h
  next hmem =>
    obtain ⟨hb, hfilter⟩ := Option.filter_eq_some_iff.1 h
    rw [Bool.and_eq_true, decide_eq_true_iff] at hfilter
    refine ⟨name, hname, by simpa using hmem, hb, hfilter.1, fun hlt => ?_⟩
    simpa [hlt] using hfilter.2
  next => cases h

/-- A debug tool that is imported in front of the statement is called as a helper. -/
theorem isSome_helperCall? {name : String} {b : Binding} (hk : f.Kinded)
    (hname : f.calledName? i = some name) (hresolve : f.resolve? (some i) name = some b)
    (htools : f.importsTools settings b.owner = true) (hlt : b.owner < i) :
    (f.helperCall? settings i).isSome = true := by
  obtain ⟨-, -, -, rfl, hdecl⟩ := exists_of_resolve? hk hresolve
  obtain ⟨hsource, hfeature, specifiers, howner, hspecifiers⟩ := exists_of_importsTools htools
  have hmodule := hdecl.module_of_import howner
  obtain ⟨specifiers', source', howner', hmem, hlocal⟩ := hdecl.import_of_module hmodule
  obtain ⟨rfl, rfl⟩ : specifiers = specifiers' ∧ settings.toolsSource = source' := by
    simpa using howner.symm.trans howner'
  have hx : b.name ∈ f.toolNames settings i :=
    mem_toolNames.2 ⟨b.owner, hlt, htools, _, hspecifiers ▸ hmem, hlocal⟩
  have himports : f.importsFeature settings b.owner = false :=
    (importsFeature_of_source hsource).trans hfeature
  rw [helperCall?, hname, Option.bind_some, if_pos (by simpa using hx), hresolve]
  simp [Option.filter, hmodule, himports]

/-- What is no statement that holds an expression calls nothing. -/
theorem helperCall?_eq_none (hn : f.node? (some i) = some n)
    (h : n.isExpressionStatement = false) : f.helperCall? settings i = none := by
  have hname : f.calledName? i = none := by
    rw [Option.eq_none_iff_forall_ne_some]
    intro name hname
    obtain ⟨call, -, -, hn', -⟩ := calledName?_eq_some.1 hname
    obtain rfl := Option.some.inj (hn.symm.trans hn')
    cases h
  rw [helperCall?, hname, Option.bind_none]

end Forest

end DebugGuard
