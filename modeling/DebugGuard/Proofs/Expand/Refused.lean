import DebugGuard.Proofs.Expand.Finish
import DebugGuard.Proofs.Expand.Worked

/-!
# What a refused rewrite leaves as it is

A rewrite may be refused after it has built something.  What it has built stays in the forest, but
nothing lists it, and neither the queue nor the recorded names know of it: every node keeps its data,
and the script reads as before.

Parent links are another matter.  A deprecation puts its test into the condition `!(test)` before
its meta information and its message are looked at.  If one of them is found wanting, the test has a
new parent that hangs nowhere (`Rewrite.adopted`).  No other node gets another parent.

Main statement: `refused_rewrite`.
-/

namespace DebugGuard

open Forest

/-- The test of a deprecation that is refused, if it has one. -/
def Rewrite.adopted (f : Forest) : Rewrite → ExpandError → Option Ref
  | .queue statement, .badDeprecation _ =>
    ((f.statementExpression? statement).bind f.callParts?).bind fun parts => parts.2[1]?
  | _, _ => none

variable {α : Type} {f g : Forest} {height : Nat → ℚ} {w w' : Work} {settings : Settings}
  {style : HelperStyle} {helper : Helper} {statement call r : Ref} {args : List Ref}
  {e : ExpandError} {module : String}

/-! ### Refusals of single steps -/

theorem refuses_reshape {step : Reshape α} : Refuses (Expand.reshape step) w e w' ↔
    ∃ g, Refuses step w.forest e g ∧ w' = { w with forest := g } := by
  unfold Refuses
  rw [Tidies.reshape_apply]
  cases step w.forest with
  | mk result g =>
    constructor
    · rintro ⟨⟩
      exact ⟨g, rfl, rfl⟩
    · rintro ⟨k, ⟨⟩, rfl⟩
      rfl

theorem refuses_edit {change : Forest → Except EditError Forest}
    (h : Refuses (Reshape.edit change) f e g) : g = f := by
  rw [Refuses, edit_apply] at h
  split at h
  next => cases h
  next => exact (Prod.mk.inj h).2.symm

theorem Refuses.readDeprecation (h : Refuses (Helper.readDeprecation r) f e g) :
    (∃ fault, e = .badDeprecation fault) ∧ g = f := by
  unfold Helper.readDeprecation at h
  rcases refuses_bind.1 h with h | ⟨f₀, f₁, hget, h⟩
  · exact absurd h not_refuses_get
  · obtain ⟨rfl, rfl⟩ := yields_get.1 hget
    split at h
    next => exact absurd h not_refuses_pure
    next fault _ =>
      obtain ⟨rfl, rfl⟩ := refuses_throw.1 h
      exact ⟨⟨fault, rfl⟩, rfl⟩

theorem Refuses.deprecationWarning (h : Refuses (Helper.deprecationWarning args) f e g) :
    (∃ fault, e = .badDeprecation fault) ∧ g = f := by
  unfold Helper.deprecationWarning at h
  split at h
  next =>
    obtain ⟨rfl, rfl⟩ := refuses_throw.1 h
    exact ⟨⟨_, rfl⟩, rfl⟩
  next object _ =>
    rcases refuses_bind.1 h with h | ⟨d, f₁, hread, hrest⟩
    · exact h.readDeprecation
    · obtain ⟨-, rfl⟩ := hread.readDeprecation
      rcases refuses_bind.1 hrest with hrest | ⟨f₀, f₁, hget, hrest⟩
      · exact absurd hrest not_refuses_get
      · obtain ⟨rfl, rfl⟩ := yields_get.1 hget
        split at hrest
        next =>
          obtain ⟨rfl, rfl⟩ := refuses_throw.1 hrest
          exact ⟨⟨_, rfl⟩, rfl⟩
        next =>
          rcases refuses_bind.1 hrest with hrest | ⟨text, f₁, -, hrest⟩
          · exact absurd hrest not_refuses_lift
          · exact absurd hrest not_refuses_lift

/-- A deprecation is refused for what it says, before its call is built. -/
theorem Refuses.deprecationCall (h : Refuses (Helper.deprecationCall style call args) f e g) :
    (∃ fault, e = .badDeprecation fault) ∧ g = f := by
  unfold Helper.deprecationCall at h
  split at h
  next =>
    rcases refuses_bind.1 h with h | ⟨f₀, f₁, hget, h⟩
    · exact absurd h not_refuses_get
    · obtain ⟨rfl, rfl⟩ := yields_get.1 hget
      dsimp only at h
      split at h
      next object _ =>
        rcases refuses_bind.1 h with h | ⟨u, f₁, -, h⟩
        · exact (refuses_discard.1 h).readDeprecation
        · exact absurd h not_refuses_lift
      next => exact absurd h not_refuses_lift
  next =>
    rcases refuses_bind.1 h with h | ⟨j, f₁, -, h⟩
    · exact h.deprecationWarning
    · exact absurd h not_refuses_pure

/-- A callback is refused before anything is built of it. -/
theorem Refuses.callbackCall (h : Refuses (Helper.callbackCall style call args) f e g) :
    e = .badCall (Helper.name .runInDebug) ∧ g = f := by
  unfold Helper.callbackCall at h
  split at h
  next => exact absurd h not_refuses_lift
  next =>
    split at h
    next =>
      obtain ⟨rfl, rfl⟩ := refuses_throw.1 h
      exact ⟨rfl, rfl⟩
    next =>
      rcases refuses_bind.1 h with h | ⟨grouped, f₁, -, h⟩
      · exact absurd h not_refuses_lift
      · rcases refuses_bind.1 h with h | ⟨j, f₁, -, h⟩
        · exact absurd h not_refuses_lift
        · exact absurd h not_refuses_pure

/-- Of all helper calls only a deprecation is refused after something has been built. -/
theorem Refuses.render (h : Refuses (helper.render style statement call args) f e g) :
    (∃ fault, e = .badDeprecation fault ∧ g = (Helper.negated args[1]? f).2) ∨
      (∀ fault, e ≠ .badDeprecation fault) ∧ g = f := by
  have hconsole (h : Refuses (do
      return ⟨statement, [], ← Helper.consoleCall style helper call args⟩ : Reshape Pending)
      f e g) : False := by
    rcases refuses_bind.1 h with h | ⟨r, f₁, -, h⟩
    · exact not_refuses_lift h
    · exact not_refuses_pure h
  cases helper with
  | «deprecate» =>
    rcases refuses_bind.1 h with h | ⟨condition, f₁, hcondition, h⟩
    · exact absurd h not_refuses_lift
    · rcases refuses_bind.1 h with h | ⟨r, f₂, -, h⟩
      · obtain ⟨⟨fault, rfl⟩, rfl⟩ := h.deprecationCall
        refine .inl ⟨fault, rfl, ?_⟩
        rw [yields_lift.1 hcondition]
      · exact absurd h not_refuses_pure
  | runInDebug =>
    rcases refuses_bind.1 h with h | ⟨r, f₁, -, h⟩
    · obtain ⟨rfl, rfl⟩ := h.callbackCall
      exact .inr ⟨nofun, rfl⟩
    · exact absurd h not_refuses_pure
  | assert | warn | log => exact (hconsole h).elim

/-- Building the call for a statement is refused with nothing built, or with the condition of a
deprecation built. -/
theorem Refuses.build (h : Refuses (helper.build style statement) f e g) :
    (∃ fault call callee args, e = .badDeprecation fault ∧
      f.statementExpression? statement = some call ∧ f.callParts? call = some (callee, args) ∧
      g = (Helper.negated args[1]? f).2) ∨ (∀ fault, e ≠ .badDeprecation fault) ∧ g = f := by
  rw [Helper.build_eq] at h
  rcases refuses_bind.1 h with hcall | ⟨⟨call, args⟩, f₁, hcall, hrender⟩
  · obtain ⟨rfl, rfl⟩ := hcall.callIn
    refine .inr ⟨?_, rfl⟩
    intro fault heq
    cases heq
  · obtain ⟨rfl, hexpression, callee, hparts⟩ := hcall.callIn
    rcases hrender.render with ⟨fault, rfl, rfl⟩ | hnothing
    · exact .inl ⟨fault, call, callee, args, rfl, hexpression, hparts, rfl⟩
    · exact .inr hnothing

/-! ### Refused rewrites -/

theorem Yields.calledHelper? {o : Option (String × Binding)}
    (h : Yields (Expand.calledHelper? statement) w o w') : w' = w := by
  unfold Expand.calledHelper? at h
  obtain ⟨t, u, hget, h⟩ := yields_bind.1 h
  obtain ⟨rfl, rfl⟩ := yields_get.1 hget
  dsimp only at h
  split at h
  next => exact (yields_pure.1 h).2.symm
  next =>
    split at h
    next => exact (yields_pure.1 h).2.symm
    next => split at h <;> exact (yields_pure.1 h).2.symm

theorem Refuses.calledHelper? : ¬Refuses (Expand.calledHelper? statement) w e w' := by
  intro h
  unfold Expand.calledHelper? at h
  rcases refuses_bind.1 h with h | ⟨t, u, -, h⟩
  · exact absurd h not_refuses_get
  · split at h
    split at h
    next => exact absurd h not_refuses_pure
    next =>
      split at h
      next => exact absurd h not_refuses_pure
      next => split at h <;> exact absurd h not_refuses_pure

/-- A refused helper call changes nothing, or it has put the test of a deprecation into its
condition. -/
theorem Refuses.queue (h : Refuses (Expand.queue settings statement) w e w') :
    w'.expander = w.expander ∧
      ((∃ fault call callee args, e = .badDeprecation fault ∧
        w.forest.statementExpression? statement = some call ∧
        w.forest.callParts? call = some (callee, args) ∧
        w'.forest = (Helper.negated args[1]? w.forest).2) ∨
      (∀ fault, e ≠ .badDeprecation fault) ∧ w'.forest = w.forest) := by
  unfold Expand.queue at h
  rcases refuses_bind.1 h with hcalled | ⟨called, w₁, hcalled, hrest⟩
  · exact absurd hcalled Refuses.calledHelper?
  obtain rfl := hcalled.calledHelper?
  split at hrest
  next => exact absurd hrest not_refuses_pure
  next name binding =>
    rcases refuses_bind.1 hrest with hforest | ⟨f, w₂, hforest, hrest⟩
    · cases hforest
    obtain ⟨-, rfl⟩ := Expand.yields_forest.1 hforest
    split at hrest
    next =>
      obtain ⟨rfl, rfl⟩ := refuses_throw.1 hrest
      exact ⟨rfl, .inr ⟨nofun, rfl⟩⟩
    next imported _ =>
      split at hrest
      next =>
        obtain ⟨rfl, rfl⟩ := refuses_throw.1 hrest
        exact ⟨rfl, .inr ⟨nofun, rfl⟩⟩
      next helper _ =>
        rcases refuses_bind.1 hrest with hbuild | ⟨p, w₃, -, hrest⟩
        · obtain ⟨g, hrefused, rfl⟩ := refuses_reshape.1 hbuild
          exact ⟨rfl, hrefused.build⟩
        · rcases refuses_bind.1 hrest with hmodify | ⟨u, w₄, -, hpure⟩
          · cases hmodify
          · exact absurd hpure not_refuses_pure

/-- Constants are all that a refused import adds: they come first, and putting them into a list is
one step. -/
theorem Refuses.inlineImport {flags : Flags}
    (h : Refuses (Flag.inlineImport flags module r) f e g) :
    g = (Flag.constants flags module (f.importSpecifiers r) f).2 := by
  unfold Flag.inlineImport at h
  rcases refuses_bind.1 h with hget | ⟨f₀, f₁, hget, hrest⟩
  · exact absurd hget not_refuses_get
  obtain ⟨rfl, rfl⟩ := yields_get.1 hget
  rcases refuses_bind.1 hrest with hconstants | ⟨ds, g₁, hconstants, hedit⟩
  · rw [hconstants]
  · rw [hconstants]
    exact refuses_edit hedit

/-- A refused import of features leaves constants behind that nothing lists. -/
theorem Refuses.inlineFeatures (hw : w.forest.Graded height)
    (h : Refuses (Expand.inlineFeatures settings r) w e w') :
    w'.expander = w.expander ∧ Grows w.forest w'.forest ∧
      ∀ i < w.forest.size, w'.forest.parentOf (some i) = w.forest.parentOf (some i) := by
  unfold Expand.inlineFeatures at h
  rcases refuses_bind.1 h with hforest | ⟨f, w₁, hforest, hrest⟩
  · cases hforest
  obtain ⟨rfl, rfl⟩ := Expand.yields_forest.1 hforest
  split at hrest
  next => exact absurd hrest not_refuses_pure
  next source _ =>
    split at hrest
    next => exact absurd hrest not_refuses_pure
    next spec _ =>
      rcases refuses_bind.1 hrest with hinline | ⟨u, w₂, -, hpure⟩
      · obtain ⟨g, hrefused, rfl⟩ := refuses_reshape.1 hinline
        obtain rfl := hrefused.inlineImport
        have hconstants : Reshapes []
            (Flag.constants spec.flags source (w.forest.importSpecifiers r)) _ :=
          reshapes_constants spec.flags source (w.forest.importSpecifiers r)
        obtain ⟨height', hbuilt⟩ := hconstants (x := 0) hw nofun
        exact ⟨rfl, hbuilt.grows, fun i hi => hbuilt.parent i hi List.not_mem_nil⟩
      · exact absurd hpure not_refuses_pure

/-- The test of a condition hangs below a new node. -/
theorem parentOf_negated {t : Nat} (ht : t < f.size) :
    (Helper.negated (some (some t)) f).2.parentOf (some t) = some f.size := by
  have hadd : (Helper.negated (some (some t)) f).2 =
      (f.add (.parenthesized (some t)) 0).add (.unary "!" (some f.size)) 0 := rfl
  have hne : t ≠ f.size := Nat.ne_of_lt ht
  rw [hadd, parentOf_add_of_notMem (by simp [Node.children, hne]),
    parentOf_add_of_mem (List.mem_singleton_self _) ht]

/-- A refused rewrite leaves the queue and the recorded names as they are, the script reads as
before, and every node keeps its data.  A node gets another parent exactly if it is the test of a
deprecation that is refused for its meta information or its message. -/
theorem refused_rewrite {step : Rewrite} {root : Ref} (hw : Worked settings root w)
    (h : Refuses (step.run settings) w e w') :
    w'.expander = w.expander ∧ w'.forest.tree root = w.forest.tree root ∧
      ∀ i < w.forest.size, w'.forest.node? (some i) = w.forest.node? (some i) ∧
        w'.forest.startOf? (some i) = w.forest.startOf? (some i) ∧
        (w'.forest.parentOf (some i) = w.forest.parentOf (some i) ↔
          step.adopted w.forest e ≠ some (some i)) := by
  obtain ⟨k, rfl, hk, height, hgraded, -⟩ := hw.tidy
  -- nothing is left to show but what becomes of the parent links
  have hframe (hexpander : w'.expander = w.expander) (hgrows : Grows w.forest w'.forest)
      (hparent : ∀ i < w.forest.size,
        w'.forest.parentOf (some i) = w.forest.parentOf (some i) ↔
          step.adopted w.forest e ≠ some (some i)) :
      w'.expander = w.expander ∧ w'.forest.tree (some k) = w.forest.tree (some k) ∧
        ∀ i < w.forest.size, w'.forest.node? (some i) = w.forest.node? (some i) ∧
          w'.forest.startOf? (some i) = w.forest.startOf? (some i) ∧
          (w'.forest.parentOf (some i) = w.forest.parentOf (some i) ↔
            step.adopted w.forest e ≠ some (some i)) :=
    ⟨hexpander, hgraded.tree_eq hgrows hk, fun i hi =>
      ⟨hgrows.node i hi, hgrows.pos i hi, hparent i hi⟩⟩
  cases step with
  | inlineFeatures declaration =>
    obtain ⟨hexpander, hgrows, hparent⟩ := Refuses.inlineFeatures hgraded h
    refine hframe hexpander hgrows fun i hi => ?_
    simp [hparent i hi, Rewrite.adopted]
  | queue statement =>
    obtain ⟨hexpander, ⟨fault, call, callee, args, rfl, hcall, hparts, hforest⟩ | ⟨he, hforest⟩⟩ :=
      Refuses.queue h
    · obtain ⟨s, -, -, hunder⟩ := under_of_callParts hgraded hcall hparts
      have htest : ∀ r ∈ args[1]?.toList, w.forest.Under height (height s) r := fun r hr =>
        hunder r (List.mem_cons_of_mem _ (List.mem_of_getElem? (Option.mem_toList.1 hr)))
      obtain ⟨height', hbuilt⟩ := builds_negated hgraded htest
      rw [← hforest] at hbuilt
      refine hframe hexpander hbuilt.grows fun i hi => ?_
      have hadopted :
          (Rewrite.queue statement).adopted w.forest (.badDeprecation fault) = args[1]? := by
        rw [Rewrite.adopted, hcall, Option.bind_some, hparts, Option.bind_some]
      rw [hadopted]
      constructor
      · -- all old parents stand before the node that would be the new one
        intro hsame hi'
        rw [hforest, hi', parentOf_negated hi] at hsame
        exact Nat.lt_irrefl _ (hgraded.parent hsame.symm)
      · intro hne
        exact hbuilt.parent i hi fun hmem => hne (Option.mem_toList.1 hmem)
    · refine hframe hexpander (hforest ▸ .refl) fun i hi => ?_
      have hadopted : (Rewrite.queue statement).adopted w.forest e = none := by
        cases e with
        | badDeprecation fault => exact absurd rfl (he fault)
        | _ => rfl
      simp [hforest, hadopted]

/-- The second argument of a deprecation without meta information gets another parent. -/
theorem refused_test_adopted : ∃ (root : Ref) (w w' : Work),
    Worked .standard root w ∧
      Refuses ((Rewrite.queue (some 6)).run .standard) w (.badDeprecation .noMeta) w' ∧
      w.forest.node? (some 4) = some (.identifier "x") ∧
      w'.forest.parentOf (some 4) ≠ w.forest.parentOf (some 4) := by
  have hrun : (Tree.parse
      "import { deprecate } from \"@ember/debug-tools\"; deprecate(\"m\", x);").toOption.any (fun t =>
        let w := (Expand.noteTools [some 0] ⟨(ofTree t).2, .start⟩).2
        decide (((Rewrite.queue (some 6)).run .standard w).1 = .error (.badDeprecation .noMeta) ∧
          (ofTree t).2.node? (some 6) = some (.expressionStatement (some 5)) ∧
          (ofTree t).2.node? (some 5) = some (.call (some 2) [some 3, some 4]) ∧
          (ofTree t).2.node? (some 4) = some (.identifier "x"))) = true := by
    decide +kernel
  cases hparse : Tree.parse
      "import { deprecate } from \"@ember/debug-tools\"; deprecate(\"m\", x);" with
  | error e =>
    rw [hparse] at hrun
    cases hrun
  | ok t =>
    rw [hparse] at hrun
    obtain ⟨herror, hstatement, hcall, htest⟩ := of_decide_eq_true hrun
    have hstart : Worked .standard (ofTree t).1 ⟨(ofTree t).2, .start⟩ := .start hparse rfl
    have hw := Worked.noteTools [some 0] hstart
    set w := (Expand.noteTools [some 0] ⟨(ofTree t).2, .start⟩).2
    have h : Refuses ((Rewrite.queue (some 6)).run .standard) w (.badDeprecation .noMeta)
        ((Rewrite.queue (some 6)).run .standard w).2 := Prod.ext herror rfl
    refine ⟨_, _, _, hw, h, htest, fun hsame => ?_⟩
    obtain ⟨-, -, hnodes⟩ := refused_rewrite hw h
    obtain ⟨-, -, hparent⟩ := hnodes 4 (lt_size_of_node? htest)
    refine hparent.1 hsame ?_
    show (((ofTree t).2.statementExpression? (some 6)).bind (ofTree t).2.callParts?).bind
      (fun parts => parts.2[1]?) = some (some 4)
    rw [statementExpression?, hstatement]
    show ((ofTree t).2.callParts? (some 5)).bind _ = _
    rw [callParts?, hcall]
    rfl

end DebugGuard
