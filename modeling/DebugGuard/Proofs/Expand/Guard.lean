import DebugGuard.Expand.Expander
import DebugGuard.Proofs.Expand.Plan
import DebugGuard.Proofs.Expand.Prepared

/-!
# Putting guarded calls in place

Once the name of the debug flag is known, the guarded expressions of all waiting calls are built
(`Draft.guardAll`), and then each is put into its statement (`Draft.placeAll`).  After that no new
node hangs loose (`Draft.applyGuards`).
-/

namespace DebugGuard

namespace Forest

/-- The expression `e` is the guarded form of the helper call in the statement `s`; `id` is the
identifier of the flag in it. -/
def GuardsCall (f g : Forest) (settings : Settings) (flag : String) (s id e : Nat) : Prop :=
  ∃ helper call callee args rendered conditions, f.helper? settings s = some helper ∧
    f.node? (some s) = some (.expressionStatement (some call)) ∧
    f.node? (some call) = some (.call callee args) ∧
    f.Renders g settings.helpers helper call args rendered ∧
    f.Conditions g helper args conditions ∧ f.IsGuarded g flag conditions rendered id e

theorem GuardsCall.mono {f g g' : Forest} {settings : Settings} {flag : String} {s id e : Nat}
    (hg : ∀ ⦃j n⦄, f.Added g j n → f.Added g' j n) (h : f.GuardsCall g settings flag s id e) :
    f.GuardsCall g' settings flag s id e := by
  obtain ⟨helper, call, callee, args, rendered, conditions, hhelper, hs, hc, hrender, hcond,
    hguard⟩ := h
  exact ⟨helper, call, callee, args, rendered, conditions, hhelper, hs, hc, hrender.mono hg,
    hcond.mono hg, hguard.mono hg⟩

theorem queued_nodup {f : Forest} {settings : Settings} {k : Nat} :
    (f.queued settings k).Nodup :=
  List.nodup_range.filter _

end Forest

namespace Draft

variable {f g : Forest} {settings : Settings} {keep : Prop} {c : Changes} {d d' : Draft}
  {root s t : Nat} {flag : String} {p : Pending} {ps : List Pending} {ss : List Nat}
  {gs : List (Ref × Nat)}

/-- A statement that calls a helper has been prepared. -/
def Awaits (f : Forest) (settings : Settings) (d : Draft) (s : Nat) (p : Pending) : Prop :=
  ∃ helper call callee args, f.helper? settings s = some helper ∧
    f.node? (some s) = some (.expressionStatement (some call)) ∧
    f.node? (some call) = some (.call callee args) ∧
    d.Ready f settings.KeepsCalls settings.helpers helper s call args p

theorem Awaits.grows (h : d.Awaits f settings s p) (hg : Grows f t d d') :
    d'.Awaits f settings s p := by
  obtain ⟨helper, call, callee, args, hhelper, hs, hc, hready⟩ := h
  exact ⟨helper, call, callee, args, hhelper, hs, hc, hready.grows hg⟩

/-- The guarded expression for a statement, with the statement, is built. -/
def Guards (f : Forest) (settings : Settings) (flag : String) (d : Draft) (s : Nat)
    (q : Ref × Nat) : Prop :=
  q.1 = some s ∧ d.site q.2 = s ∧ f.size ≤ q.2 ∧ q.2 < d.forest.size ∧
    ∃ id, f.GuardsCall d.forest settings flag s id q.2

theorem Guards.grows {q : Ref × Nat} (h : d.Guards f settings flag s q) (hg : Grows f t d d') :
    d'.Guards f settings flag s q := by
  obtain ⟨hq, hsite, hfq, hlt, id, hguards⟩ := h
  refine ⟨hq, ?_, hfq, Nat.lt_of_lt_of_le hlt hg.size_le, id, hguards.mono hg.node⟩
  rw [hg.site hlt, hsite]

/-- The guarded expressions of waiting calls are built. -/
theorem guardAll (h : d.Sound f settings.KeepsCalls c) (hp : f.Parsed root) (flag : String)
    (hps : List.Forall₂ (d.Awaits f settings) ss ps) :
    ∃ d' gs, Pending.guardAll flag ps d.forest = (gs, d'.forest) ∧
      d'.Sound f settings.KeepsCalls c ∧ Grows f f.size d d' ∧
      List.Forall₂ (d'.Guards f settings flag) ss gs ∧
      ∀ i ∈ d'.loose, i ∈ gs.map Prod.snd ∨
        (i ∈ d.loose ∧ ∀ p ∈ ps, some i ∉ p.call :: p.conditions) := by
  unfold Pending.guardAll
  induction ps generalizing d ss with
  | nil =>
    cases hps
    exact ⟨d, [], rfl, h, .refl, .nil, fun i hi => .inr ⟨hi, nofun⟩⟩
  | cons p ps ih =>
    obtain ⟨s, ss, hsp, hrest, rfl⟩ := List.forall₂_cons_right_iff.1 hps
    obtain ⟨helper, call, callee, args, hhelper, hs, hc, hready⟩ := hsp
    obtain ⟨d₁, id, e, hrun₁, hmake, hguard⟩ := guarded (p := p) h hp flag
      (hready.operands _ (by simp)) fun r hr => hready.operands r (by simp [hr])
    have hgrows := hmake.grows.mono (Nat.le_of_lt (Forest.lt_size_of_node? hs))
    obtain ⟨d₂, gs, hrun₂, hsound, hgrows₂, hgs, hloose⟩ := ih hmake.sound
      (List.Forall₂.imp (fun _ _ hsp => Awaits.grows hsp hmake.grows) hrest)
    -- The guarded expression is new, so it is none that the statement lends.
    have hadded : f.Added d₁.forest e _ := hguard.choose_spec.choose_spec.2.2.2
    have hsite : d₁.site e = s := by
      obtain ⟨j, ⟨⟩, ⟨hsite, -⟩ | hlends⟩ := hmake.operand
      · exact hsite
      · exact absurd (hlends.lt_size hp) (Nat.not_lt_of_le hadded.1)
    have hguards : d₁.Guards f settings flag s (p.statement, e) :=
      ⟨hready.statement, hsite, hadded.1, Forest.lt_size_of_node? hadded.2, id, helper, call,
        callee, args, p.call, p.conditions, hhelper, hs, hc, hready.call.mono hmake.grows.node,
        hready.conditions.mono hmake.grows.node, hguard⟩
    refine ⟨d₂, (p.statement, e) :: gs, ?_, hsound, hgrows.trans hgrows₂,
      .cons (hguards.grows hgrows₂) hgs, fun i hi => ?_⟩
    · simp only [List.mapM_cons, Build.bind_apply, Build.pure_apply, hrun₁, hrun₂]
    · rw [List.map_cons, List.mem_cons]
      rcases hloose i hi with hi | ⟨hi, hps'⟩
      · exact .inl (.inr hi)
      rcases hmake.loose i hi with hie | ⟨hi, hp'⟩
      · exact .inl (.inl (Option.some.inj hie))
      · refine .inr ⟨hi, fun q hq => ?_⟩
        rcases List.mem_cons.1 hq with rfl | hq
        · exact hp'
        · exact hps' q hq

/-- Guarded expressions are put into their statements. -/
theorem placeAll (h : d.Sound f keep c) (hp : f.Parsed root)
    (hgs : List.Forall₂ (d.Guards f settings flag) ss gs) (hnodup : ss.Nodup)
    (hclear : ∀ s ∈ ss, c.guarded s = none) {u : Unit}
    (hrun : Yields (gs.forM fun (s, e) => Reshape.edit fun f => f.setExpression s (some e))
      d.forest u g) :
    ∃ d' c', d'.forest = g ∧ d'.Sound f keep c' ∧ Grows f f.size d d' ∧
      c'.replaced = c.replaced ∧ c'.front = c.front ∧
      (∀ s, s ∉ ss → c'.guarded s = c.guarded s) ∧
      (∀ s ∈ ss, ∃ id e, c'.guarded s = some e ∧ f.GuardsCall g settings flag s id e) ∧
      ∀ i ∈ d'.loose, i ∈ d.loose ∧ i ∉ gs.map Prod.snd := by
  induction gs generalizing d c ss with
  | nil =>
    cases hgs
    obtain rfl := yields_forM_nil.1 hrun
    exact ⟨d, c, rfl, h, .refl, rfl, rfl, fun _ _ => rfl, nofun, fun i hi => ⟨hi, nofun⟩⟩
  | cons q gs ih =>
    obtain ⟨s, ss, hsq, hrest, rfl⟩ := List.forall₂_cons_right_iff.1 hgs
    obtain ⟨hs, hss⟩ := List.nodup_cons.1 hnodup
    obtain ⟨q, e⟩ := q
    obtain ⟨g₁, hedit, hforM⟩ := yields_forM_cons.1 hrun
    obtain ⟨rfl, hsite, hfe, hlt, id, hguards⟩ := hsq
    have hguards' := hguards
    obtain ⟨helper, call, callee, args, rendered, conditions, hhelper, hn, hc, -, -, left, all, -,
      -, -, he⟩ := hguards'
    have hplant := h.setExpression hp hn (hclear s (by simp)) hfe hsite he.2 rfl
      (yields_edit.1 hedit)
    obtain ⟨d₁, rfl, -, hloose₁, hsound₁, hgrows⟩ := h.plant (t := f.size) hp hplant
      fun i hi => Forest.lt_size_of_parentOf (hplant.gone_old i hi).1
    -- Each statement waits once, so the others are still without a guard.
    have hclear' : ∀ s' ∈ ss, (c.guard s e).guarded s' = none := by
      intro s' hs'
      rw [Changes.guarded_guard, if_neg, hclear s' (by simp [hs'])]
      rintro rfl
      exact hs hs'
    obtain ⟨d', c', rfl, hsound, hgrows', hreplaced, hfront, hother, hplaced, hloose⟩ :=
      ih hsound₁ (List.Forall₂.imp (fun _ _ hsq => Guards.grows hsq hgrows) hrest) hss hclear'
        hforM
    refine ⟨d', c', rfl, hsound, hgrows.trans hgrows', hreplaced, hfront, fun s' hs' => ?_,
      fun s' hs' => ?_, fun i hi => ?_⟩
    · rw [List.mem_cons, not_or] at hs'
      rw [hother s' hs'.2, Changes.guarded_guard, if_neg hs'.1]
    · rcases List.mem_cons.1 hs' with rfl | hs'
      · refine ⟨id, e, ?_, hguards.mono (hgrows.trans hgrows').node⟩
        rw [hother s' hs, Changes.guarded_guard, if_pos rfl]
      · exact hplaced s' hs'
    · obtain ⟨hi, higs⟩ := hloose i hi
      rw [hloose₁] at hi
      refine ⟨hi.1, ?_⟩
      rw [List.map_cons, List.mem_cons, not_or]
      exact ⟨fun hie => hi.2 (List.mem_singleton.2 hie), higs⟩

/-- The guarded calls are put in place, and nothing is loose any more. -/
theorem applyGuards (h : d.Sound f settings.KeepsCalls c) (hp : f.Parsed root)
    (hps : List.Forall₂ (d.Awaits f settings) ss ps) (hnodup : ss.Nodup)
    (hclear : ∀ s, c.guarded s = none)
    (hloose : ∀ i ∈ d.loose, ∃ p ∈ ps, some i ∈ p.call :: p.conditions) {u : Unit}
    (hrun : Yields (Expand.applyGuards flag ps) d.forest u g) :
    ∃ d' c', d'.forest = g ∧ d'.loose = ∅ ∧ d'.Sound f settings.KeepsCalls c' ∧
      Grows f f.size d d' ∧ c'.replaced = c.replaced ∧ c'.front = c.front ∧
      (∀ s, s ∉ ss → c'.guarded s = none) ∧
      ∀ s ∈ ss, ∃ id e, c'.guarded s = some e ∧ f.GuardsCall g settings flag s id e := by
  unfold Expand.applyGuards at hrun
  obtain ⟨d₁, gs, hrun₁, hsound₁, hgrows₁, hgs, hloose₁⟩ := guardAll h hp flag hps
  obtain ⟨gs', g₁, hlift, hrun⟩ := yields_bind.1 hrun
  obtain ⟨rfl, rfl⟩ := hlift.of_lift hrun₁
  obtain ⟨d₂, c', rfl, hsound₂, hgrows₂, hreplaced, hfront, hother, hplaced, hloose₂⟩ :=
    placeAll hsound₁ hp hgs hnodup (fun s _ => hclear s) hrun
  refine ⟨d₂, c', rfl, ?_, hsound₂, hgrows₁.trans hgrows₂, hreplaced, hfront,
    fun s hs => (hother s hs).trans (hclear s), hplaced⟩
  -- What was loose is held by a guarded expression, and that by its statement.
  refine Set.eq_empty_iff_forall_notMem.2 fun i hi => ?_
  obtain ⟨hi, higs⟩ := hloose₂ i hi
  obtain ⟨hi, hnone⟩ := (hloose₁ i hi).resolve_left higs
  obtain ⟨p, hp', hpi⟩ := hloose i hi
  exact hnone p hp' hpi

end Draft

end DebugGuard
