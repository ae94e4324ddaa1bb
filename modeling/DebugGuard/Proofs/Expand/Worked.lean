import DebugGuard.Proofs.Expand.Height
import DebugGuard.Proofs.Forest.Mutation

/-!
# A script under the operations of the pass

The pass is made of four operations: replacing an import of features, queueing a helper call, noting
the names of an import, and finishing a block.  `Worked settings root w` says that they lead from
some parsed script to `w`, each of them asked for any number of times, in any order and of any node,
and each of them carried out or refused.

What is queued takes nodes of the script into new expressions, so parent links and child lists come
apart on the way.  What lasts is that the child lists can be graded, with everything that a waiting
call is made of below its statement (`Work.Tidy`).

Main statement: `Worked.tidy`.
-/

namespace DebugGuard

open Forest

/-- An operation that rewrites one node of the script. -/
inductive Rewrite where
  | inlineFeatures (declaration : Ref)
  | queue (statement : Ref)
  deriving DecidableEq, Repr

/-- The step of the pass; its answer is whether the node was one to rewrite. -/
def Rewrite.run (settings : Settings) : Rewrite → Expand Bool
  | .inlineFeatures declaration => Expand.inlineFeatures settings declaration
  | .queue statement => Expand.queue settings statement

/-- What the operations of the pass make of a parsed script.  A refused operation leaves something
behind, too. -/
inductive Worked (settings : Settings) (root : Ref) : Work → Prop where
  | start {source : String} {t : Tree} : Tree.parse source = .ok t → (ofTree t).1 = root →
    Worked settings root ⟨(ofTree t).2, .start⟩
  | rewrite {w : Work} (step : Rewrite) : Worked settings root w →
    Worked settings root (step.run settings w).2
  | noteTools {w : Work} (specifiers : List Ref) : Worked settings root w →
    Worked settings root (Expand.noteTools specifiers w).2
  | finish {w : Work} (block : Ref) : Worked settings root w →
    Worked settings root (Expand.finish settings block w).2

variable {α β : Type} {f g : Forest} {height height' : Nat → ℚ} {root : Nat} {p : Pending}
  {held ps : List Pending} {w w' : Work} {settings : Settings} {style : HelperStyle}
  {helper : Helper} {statement r : Ref} {flags : Flags} {module flag name : String}

/-! ### What is waiting -/

/-- All that a waiting call is made of is below its statement. -/
def Pending.Fits (f : Forest) (height : Nat → ℚ) (p : Pending) : Prop :=
  ∃ s < f.size, p.statement = some s ∧ ∀ r ∈ p.call :: p.conditions, f.Under height (height s) r

theorem Pending.Fits.regraded (h : p.Fits f height) (hg : Regraded f height g height') :
    p.Fits g height' := by
  obtain ⟨s, hs, hstatement, hunder⟩ := h
  refine ⟨s, Nat.lt_of_lt_of_le hs hg.size_le, hstatement, fun r hr => ?_⟩
  rw [hg.same s hs]
  exact hg.under (hunder r hr)

/-- The forest is graded, and the calls in the queue and those in `held` are below their
statements. -/
def Work.Tidy (root : Nat) (held : List Pending) (w : Work) : Prop :=
  root < w.forest.size ∧ ∃ height, w.forest.Graded height ∧
    ∀ p ∈ w.expander.pending ++ held, p.Fits w.forest height

theorem Work.Tidy.mono (h : w.Tidy root held) (hsub : ∀ p ∈ ps, p ∈ held) : w.Tidy root ps := by
  obtain ⟨hroot, height, hgraded, hfits⟩ := h
  refine ⟨hroot, height, hgraded, fun p hp => hfits p ?_⟩
  rw [List.mem_append] at hp ⊢
  exact hp.imp_right (hsub p)

/-- The state of the expander counts only for its queue. -/
theorem Work.Tidy.congr (h : w.Tidy root held) (hforest : w'.forest = w.forest)
    (hpending : ∀ p ∈ w'.expander.pending ++ ps, p ∈ w.expander.pending ++ held) :
    w'.Tidy root ps := by
  obtain ⟨hroot, height, hgraded, hfits⟩ := h
  rw [← hforest] at hroot hgraded hfits
  exact ⟨hroot, height, hgraded, fun p hp => hfits p (hpending p hp)⟩

/-- The step keeps a tidy work tidy, the calls `held` in hand included, and has those in `held'` in
hand afterwards, or none if it is refused. -/
def Tidies (root : Nat) (held : List Pending) (step : Expand α) (held' : α → List Pending) :
    Prop :=
  ∀ ⦃w⦄, w.Tidy root held →
    (step w).2.Tidy root (Except.parts held' (step w).1)

namespace Tidies

variable {step : Expand α} {next : α → Expand β} {held₁ : α → List Pending}
  {held₂ : β → List Pending}

theorem pure {a : α} (h : held₁ a = held) : Tidies root held (pure a) held₁ := by
  intro w hw
  show w.Tidy root (held₁ a)
  rwa [h]

theorem throw {e : ExpandError} : Tidies root held (throw e : Expand α) held₁ := by
  intro w hw
  exact hw.mono nofun

theorem bind (h : Tidies root held step held₁)
    (hnext : ∀ a, Tidies root (held₁ a) (next a) held₂) :
    Tidies root held (step >>= next) held₂ := by
  intro w hw
  have hstep := h hw
  rcases yields_or_refuses step w with ⟨a, t, hrun⟩ | ⟨e, t, hrun⟩
  · rw [hrun] at hstep
    rw [hrun.bind_apply]
    exact hnext a hstep
  · rw [hrun] at hstep
    rw [hrun.bind_apply]
    exact hstep

theorem get {next : Work → Expand β} (h : ∀ w, Tidies root held (next w) held₂) :
    Tidies root held (get >>= next) held₂ :=
  fun w hw => h w hw

theorem forest {next : Forest → Expand β} (h : ∀ f, Tidies root held (next f) held₂) :
    Tidies root held (Expand.forest >>= next) held₂ :=
  fun w hw => h w.forest hw

theorem modifyExpander {change : Expander → Expander}
    (h : ∀ e, ∀ p ∈ (change e).pending ++ ps, p ∈ e.pending ++ held) :
    Tidies root held (Expand.modifyExpander change) fun _ => ps := by
  intro w hw
  exact hw.congr rfl (h w.expander)

theorem reshape_apply {step : Reshape α} : Expand.reshape step w =
    ((step w.forest).1, { w with forest := (step w.forest).2 }) :=
  rfl

/-- A step on the forest that is said to keep it graded, whatever comes of the step itself. -/
theorem reshape {step : Reshape α}
    (h : ∀ f height, f.Graded height → (∀ p ∈ held, p.Fits f height) →
      ∃ height', Regraded f height (step f).2 height') :
    Tidies root held (Expand.reshape step) fun _ => held := by
  rintro w ⟨hroot, height, hgraded, hfits⟩
  obtain ⟨height', hg⟩ := h w.forest height hgraded fun p hp =>
    hfits p (List.mem_append_right _ hp)
  have hall : ({ w with forest := (step w.forest).2 } : Work).Tidy root held :=
    ⟨Nat.lt_of_lt_of_le hroot hg.size_le, height', hg.graded, fun p hp =>
      (hfits p hp).regraded hg⟩
  rw [reshape_apply]
  cases (step w.forest).1 with
  | ok a => exact hall
  | error e => exact hall.mono nofun

theorem weaken (h : Tidies root held step fun _ => held) :
    Tidies root held step fun _ => [] := by
  intro w hw
  have hstep := h hw
  cases hrun : (step w).1 with
  | ok a => exact hstep.mono nofun
  | error e => exact hstep.mono nofun

end Tidies

/-! ### While the module is read -/

/-- A call that is found is the expression of the statement. -/
theorem Yields.callIn {call : Ref} {args : List Ref}
    (h : Yields (helper.callIn statement) f (call, args) g) :
    g = f ∧ f.statementExpression? statement = some call ∧
      ∃ callee, f.callParts? call = some (callee, args) := by
  unfold Helper.callIn at h
  obtain ⟨f₀, f₁, hget, h⟩ := yields_bind.1 h
  obtain ⟨rfl, rfl⟩ := yields_get.1 hget
  split at h
  next => exact absurd h not_yields_throw
  next call hcall =>
    split at h
    next => exact absurd h not_yields_throw
    next callee args hparts =>
      obtain ⟨heq, rfl⟩ := yields_pure.1 h
      obtain ⟨rfl, rfl⟩ := Prod.mk.inj heq
      exact ⟨rfl, hcall, callee, hparts⟩

/-- A statement without a call is refused as it is. -/
theorem Refuses.callIn {e : ExpandError} (h : Refuses (helper.callIn statement) f e g) :
    e = .badCall helper.name ∧ g = f := by
  unfold Helper.callIn at h
  rcases refuses_bind.1 h with hget | ⟨f₀, f₁, hget, h⟩
  · exact absurd hget not_refuses_get
  · obtain ⟨rfl, rfl⟩ := yields_get.1 hget
    split at h
    next =>
      obtain ⟨rfl, rfl⟩ := refuses_throw.1 h
      exact ⟨rfl, rfl⟩
    next =>
      split at h
      next =>
        obtain ⟨rfl, rfl⟩ := refuses_throw.1 h
        exact ⟨rfl, rfl⟩
      next => exact absurd h not_refuses_pure

/-- The call in a statement hangs below it, and so do its arguments. -/
theorem under_of_callParts {call callee : Ref} {args : List Ref} (hf : f.Graded height)
    (hcall : f.statementExpression? statement = some call)
    (hparts : f.callParts? call = some (callee, args)) :
    ∃ s < f.size, statement = some s ∧ ∀ r ∈ call :: args, f.Under height (height s) r := by
  obtain ⟨n, hn, hexpression⟩ := Option.bind_eq_some_iff.1 hcall
  obtain ⟨m, hm, hcallParts⟩ := Option.bind_eq_some_iff.1 hparts
  obtain ⟨s, rfl⟩ := exists_eq_some hn
  obtain ⟨c, rfl⟩ := exists_eq_some hm
  cases n <;> cases hexpression
  cases m <;> cases hcallParts
  have hc : f.Under height (height s) (some c) := hf.under hn List.mem_cons_self
  refine ⟨s, lt_size_of_node? hn, rfl, List.forall_mem_cons.2 ⟨hc, fun r hr => ?_⟩⟩
  exact (hf.under hm (List.mem_cons_of_mem _ hr)).mono (le_of_lt (hc c rfl).2)

theorem statement_of_render {call : Ref} {args : List Ref}
    (h : Yields (helper.render style statement call args) f p g) : p.statement = statement := by
  have hconsole (h : Yields (do return ⟨statement, [], ← Helper.consoleCall style helper call args⟩ :
      Reshape Pending) f p g) : p.statement = statement := by
    obtain ⟨r, g₁, -, h⟩ := yields_bind.1 h
    obtain ⟨rfl, -⟩ := yields_pure.1 h
    rfl
  cases helper with
  | «deprecate» =>
    obtain ⟨condition, g₁, -, h⟩ := yields_bind.1 h
    obtain ⟨r, g₂, -, h⟩ := yields_bind.1 h
    obtain ⟨rfl, -⟩ := yields_pure.1 h
    rfl
  | runInDebug =>
    obtain ⟨r, g₁, -, h⟩ := yields_bind.1 h
    obtain ⟨rfl, -⟩ := yields_pure.1 h
    rfl
  | assert | warn | log => exact hconsole h

/-- Whatever comes of it, building the call for a statement keeps the forest graded, and a call that
is built belongs below the statement. -/
theorem exists_regraded_build (style : HelperStyle) (helper : Helper) (statement : Ref)
    (hf : f.Graded height) :
    ∃ height', Regraded f height (helper.build style statement f).2 height' ∧
      ∀ p, (helper.build style statement f).1 = .ok p →
        p.Fits (helper.build style statement f).2 height' := by
  rw [Helper.build_eq]
  rcases yields_or_refuses (helper.callIn statement) f with ⟨⟨call, args⟩, g, h⟩ | ⟨e, g, h⟩
  · obtain ⟨rfl, hcall, callee, hparts⟩ := h.callIn
    obtain ⟨s, hs, hstatement, hunder⟩ := under_of_callParts hf hcall hparts
    rw [h.bind_apply]
    obtain ⟨height', hbuilt⟩ := reshapes_render style helper statement hf hunder
    refine ⟨height', hbuilt.regraded, fun p hp => ?_⟩
    have hyields : Yields (helper.render style statement call args) g p
        (helper.render style statement call args g).2 := Prod.ext hp rfl
    have hout := hbuilt.under
    rw [show (helper.render style statement call args g).1 = .ok p from hp] at hout
    refine ⟨s, Nat.lt_of_lt_of_le hs hbuilt.regraded.size_le,
      (statement_of_render hyields).trans hstatement, fun r hr => ?_⟩
    rw [hbuilt.regraded.same s hs]
    exact hout r hr
  · rw [h.bind_apply]
    obtain ⟨-, rfl⟩ := Refuses.callIn h
    exact ⟨height, .refl hf, nofun⟩

namespace Tidies

theorem calledHelper? : Tidies root held (Expand.calledHelper? statement) fun _ => held := by
  refine .get fun ⟨f, e⟩ => ?_
  dsimp only
  cases (f.statementExpression? statement).bind f.callParts? with
  | none => exact .pure rfl
  | some parts =>
    obtain ⟨callee, args⟩ := parts
    dsimp only
    cases f.identifierName? callee with
    | none => exact .pure rfl
    | some name =>
      dsimp only
      split
      · exact .pure rfl
      · exact .pure rfl

theorem build : Tidies root [] (Expand.reshape (helper.build style statement)) fun p => [p] := by
  rintro w ⟨hroot, height, hgraded, hfits⟩
  obtain ⟨height', hg, hbuilt⟩ := exists_regraded_build style helper statement hgraded
  have hall (ps : List Pending)
      (hps : ∀ p ∈ ps, p.Fits (helper.build style statement w.forest).2 height') :
      ({ w with forest := (helper.build style statement w.forest).2 } : Work).Tidy root ps := by
    refine ⟨Nat.lt_of_lt_of_le hroot hg.size_le, height', hg.graded, fun p hp => ?_⟩
    rcases List.mem_append.1 hp with hp | hp
    · exact (hfits p (List.mem_append_left _ hp)).regraded hg
    · exact hps p hp
  rw [reshape_apply]
  cases hrun : (helper.build style statement w.forest).1 with
  | ok p => exact hall [p] (List.forall_mem_singleton.2 (hbuilt p hrun))
  | error e => exact hall [] nofun

theorem queue : Tidies root [] (Expand.queue settings statement) fun _ => [] := by
  refine .bind .calledHelper? fun called => ?_
  cases called with
  | none => exact .pure rfl
  | some called =>
    obtain ⟨name, binding⟩ := called
    refine .forest fun f => ?_
    cases binding.imported? f with
    | none => exact .throw
    | some imported =>
      dsimp only
      cases Helper.ofName? imported with
      | none => exact .throw
      | some helper =>
        refine .bind .build fun p => .bind (.modifyExpander fun e q hq => ?_) fun _ => .pure rfl
        simpa using hq

end Tidies

/-! ### Edits -/

theorem regraded_edit (change : Forest → Except EditError Forest) (hf : f.Graded height)
    (h : ∀ g, change f = .ok g → Regraded f height g height) :
    Regraded f height (Reshape.edit change f).2 height := by
  rw [edit_apply]
  cases hchange : change f with
  | ok g => exact h g hchange
  | error e => exact .refl hf

/-- Replacing an import by constants keeps the forest graded, whatever comes of it. -/
theorem exists_regraded_inlineImport (hf : f.Graded height) :
    ∃ height', Regraded f height (Flag.inlineImport flags module r f).2 height' := by
  -- the constants are built below the node that is to list them, if there is one
  have hconstants : Reshapes [] (Flag.constants flags module (f.importSpecifiers r)) _ :=
    reshapes_constants flags module (f.importSpecifiers r)
  obtain ⟨height', hbuilt⟩ := hconstants (x := height ((f.parentOf r).getD 0)) hf nofun
  show ∃ height', Regraded f height ((Flag.constants flags module (f.importSpecifiers r) >>=
    fun ds => Reshape.edit fun f => f.splice r (ds.map some)) f).2 height'
  rcases yields_or_refuses (Flag.constants flags module (f.importSpecifiers r)) f with
    ⟨ds, g, h⟩ | ⟨e, g, h⟩
  · rw [h] at hbuilt
    rw [h.bind_apply]
    refine ⟨height', hbuilt.regraded.trans (regraded_edit _ hbuilt.regraded.graded
      fun k hk => hbuilt.regraded.graded.splice (fun p hp d hd => ?_) hk)⟩
    cases hr : f.node? r with
    | none =>
      rw [importSpecifiers, hr] at h
      obtain ⟨rfl, -⟩ := yields_mapM_nil.1 h
      cases hd
    | some n =>
      obtain ⟨i, rfl⟩ := exists_eq_some hr
      rw [hbuilt.parent i (lt_size_of_node? hr) nofun] at hp
      have hunder := hbuilt.under d hd
      rw [hp] at hunder
      rwa [hbuilt.regraded.same p (hf.parent hp)]
  · rw [h] at hbuilt
    rw [h.bind_apply]
    exact ⟨height', hbuilt.regraded⟩

/-- A constant brings no statement list with it. -/
theorem lt_size_of_list_constant {value : Literal} {b : Nat}
    (h : ((Flag.constant name value f).2.statements? (some b)).isSome) : b < f.size := by
  by_contra hb
  have hnone : f.node? (some b) = none := by
    cases hn : f.node? (some b) with
    | none => rfl
    | some n => exact absurd (lt_size_of_node? hn) hb
  simp only [Flag.constant, Build.constant, Build.declare, Build.bind_apply, Build.node_apply,
    statements?, node?_add, hnone] at h
  split at h
  next => cases h
  next =>
    split at h
    next => cases h
    next => split at h <;> cases h

theorem exists_regraded_injectFlag {block : Ref} (hf : f.Graded height) :
    ∃ height', Regraded f height (Expand.injectFlag settings block name f).2 height' := by
  obtain ⟨height', hbuilt⟩ := builds_constant name settings.debug
    (x := height (block.getD 0)) hf nofun
  have hedit := regraded_edit (fun g => g.putFirst block
    (some (Flag.constant name settings.debug f).1)) hbuilt.regraded.graded fun k hk => by
      refine hbuilt.regraded.graded.putFirst (fun b hb => ?_) hk
      subst hb
      obtain ⟨body, hbody, -⟩ := putFirst_eq_ok.1 hk
      have hlt := lt_size_of_list_constant (Option.isSome_of_eq_some hbody)
      rw [hbuilt.regraded.same b hlt]
      exact hbuilt.under _ List.mem_cons_self
  exact ⟨height', hbuilt.regraded.trans hedit⟩

/-- The guarded expressions wait below the statements that they belong into. -/
def Placed (f : Forest) (height : Nat → ℚ) (q : Ref × Nat) : Prop :=
  ∃ s < f.size, q.1 = some s ∧ f.Under height (height s) (some q.2)

theorem exists_regraded_guardAll (flag : String) (hf : f.Graded height)
    (h : ∀ p ∈ ps, p.Fits f height) :
    ∃ height', Regraded f height (Pending.guardAll flag ps f).2 height' ∧
      ∀ q ∈ (Pending.guardAll flag ps f).1, Placed (Pending.guardAll flag ps f).2 height' q := by
  induction ps generalizing f height with
  | nil => exact ⟨height, .refl hf, nofun⟩
  | cons p ps ih =>
    obtain ⟨s, hs, hstatement, hunder⟩ := h p List.mem_cons_self
    obtain ⟨height₁, hbuilt⟩ := builds_guarded flag hf hunder
    obtain ⟨height₂, hg, hrest⟩ := ih hbuilt.regraded.graded fun q hq =>
      (h q (List.mem_cons_of_mem _ hq)).regraded hbuilt.regraded
    simp only [Pending.guardAll, List.mapM_cons, Build.bind_apply, Build.pure_apply]
    refine ⟨height₂, hbuilt.regraded.trans hg, List.forall_mem_cons.2 ⟨?_, hrest⟩⟩
    have hsame := (hbuilt.regraded.trans hg).same s hs
    have hle := (hbuilt.regraded.trans hg).size_le
    refine ⟨s, Nat.lt_of_lt_of_le hs hle, hstatement, ?_⟩
    rw [hsame]
    exact hg.under (hbuilt.under _ List.mem_cons_self)

theorem regraded_placeAll {gs : List (Ref × Nat)} (hf : f.Graded height)
    (h : ∀ q ∈ gs, Placed f height q) :
    Regraded f height ((gs.forM fun (s, e) => Reshape.edit fun f => f.setExpression s (some e) :
      Reshape Unit) f).2 height := by
  induction gs generalizing f with
  | nil => exact .refl hf
  | cons q gs ih =>
    obtain ⟨st, e⟩ := q
    obtain ⟨s, hs, rfl, hunder⟩ := h _ List.mem_cons_self
    have hedit := regraded_edit (fun f => f.setExpression (some s) (some e)) hf
      fun g hg => hf.setExpression hunder hg
    show Regraded f height ((Reshape.edit (fun f => f.setExpression (some s) (some e)) >>=
      fun _ => gs.forM fun (s, e) => Reshape.edit fun f => f.setExpression s (some e) :
        Reshape Unit) f).2 height
    rcases yields_or_refuses (Reshape.edit fun f => f.setExpression (some s) (some e)) f with
      ⟨u, g, hrun⟩ | ⟨err, g, hrun⟩
    · rw [hrun] at hedit
      rw [hrun.bind_apply]
      refine hedit.trans (ih hedit.graded fun q hq => ?_)
      obtain ⟨s', hs', hq', hunder'⟩ := h q (List.mem_cons_of_mem _ hq)
      exact ⟨s', Nat.lt_of_lt_of_le hs' hedit.size_le, hq', hedit.under hunder'⟩
    · rw [hrun] at hedit
      rw [hrun.bind_apply]
      exact hedit

theorem exists_regraded_applyGuards (hf : f.Graded height) (h : ∀ p ∈ ps, p.Fits f height) :
    ∃ height', Regraded f height (Expand.applyGuards flag ps f).2 height' := by
  obtain ⟨height', hg, hgs⟩ := exists_regraded_guardAll flag hf h
  exact ⟨height', hg.trans (regraded_placeAll hg.graded hgs)⟩

namespace Tidies

theorem inlineFeatures : Tidies root [] (Expand.inlineFeatures settings r) fun _ => [] := by
  refine .forest fun f => ?_
  cases f.importSource? r with
  | none => exact .pure rfl
  | some source =>
    dsimp only
    cases settings.featureSpec? source with
    | none => exact .pure rfl
    | some spec =>
      exact .bind (.reshape fun f height hf _ => exists_regraded_inlineImport hf)
        fun _ => .pure rfl

theorem noteTools {specifiers : List Ref} :
    Tidies root [] (Expand.noteTools specifiers) fun _ => [] :=
  .forest fun _ => .modifyExpander fun _ _ hp => hp

theorem takePending : Tidies root [] Expand.takePending id := by
  intro w hw
  show ({ w with expander := { w.expander with pending := [] } } : Work).Tidy root
    w.expander.pending
  exact hw.congr rfl (by simp)

theorem freshFlag {block : Ref} : Tidies root held (Expand.freshFlag block) fun _ => held :=
  .get fun _ => .bind (.modifyExpander fun _ _ hp => hp) fun _ => .pure rfl

theorem cleanUp {block : Ref} : Tidies root [] (Expand.cleanUp settings block) fun _ => [] := by
  refine .bind (.modifyExpander fun _ _ hp => hp) fun _ => .get fun ⟨f, e⟩ => ?_
  dsimp only
  cases e.locals.head? with
  | none => exact .pure rfl
  | some first =>
    dsimp only
    split
    · cases (f.resolve? block first).filter (·.kind = .module) with
      | none => exact .throw
      | some binding =>
        refine .reshape fun f height hf _ => ⟨height, regraded_edit _ hf fun g hg => ?_⟩
        exact hf.splice (fun _ _ r hr => absurd hr List.not_mem_nil) hg
    · exact .pure rfl

theorem finish {block : Ref} : Tidies root [] (Expand.finish settings block) fun _ => [] := by
  refine .bind .takePending fun pending => .forest fun f => ?_
  cases Expand.flagImport? f block with
  | some binding =>
    refine .bind (.weaken (.reshape fun f height hf h => exists_regraded_applyGuards hf h))
      fun _ => ?_
    exact .bind (.reshape fun f height hf _ => exists_regraded_inlineImport hf) fun _ => .cleanUp
  | none =>
    refine .bind .freshFlag fun name => ?_
    have happly : Tidies root pending (Expand.reshape (Expand.applyGuards name pending))
        fun _ => [] :=
      .weaken (.reshape fun f height hf h => exists_regraded_applyGuards hf h)
    dsimp only
    split
    · refine .bind (.reshape fun f height hf _ => exists_regraded_injectFlag hf) fun _ => ?_
      exact .bind happly fun _ => .cleanUp
    · exact .bind happly fun _ => .cleanUp

end Tidies

/-- Whatever the operations of the pass make of a parsed script is tidy. -/
theorem Worked.tidy {r : Ref} (h : Worked settings r w) :
    ∃ root, r = some root ∧ w.Tidy root [] := by
  have hstep {α : Type} {step : Expand α} {w : Work} {root : Nat} (hw : w.Tidy root [])
      (hstep : Tidies root [] step fun _ => []) : (step w).2.Tidy root [] := by
    have htidy := hstep hw
    cases hrun : (step w).1 <;> rw [hrun] at htidy <;> exact htidy
  induction h with
  | start hparse hroot =>
    obtain ⟨root, hroot', hp, -, -⟩ := parsed_of_parse hparse
    refine ⟨root, hroot.symm.trans hroot', ?_, _, hp.graded, nofun⟩
    exact hp.size_eq ▸ Nat.lt_succ_self root
  | rewrite step _ ih =>
    obtain ⟨root, hr, hw⟩ := ih
    cases step with
    | inlineFeatures declaration => exact ⟨root, hr, hstep hw .inlineFeatures⟩
    | queue statement => exact ⟨root, hr, hstep hw .queue⟩
  | noteTools specifiers _ ih =>
    obtain ⟨root, hr, hw⟩ := ih
    exact ⟨root, hr, hstep hw .noteTools⟩
  | finish block _ ih =>
    obtain ⟨root, hr, hw⟩ := ih
    exact ⟨root, hr, hstep hw .finish⟩

/-! ### The pass -/

section

variable {root : Ref}

theorem Worked.bind {step : Expand α} {next : α → Expand β} (h : Worked settings root (step w).2)
    (hnext : ∀ a t, Yields step w a t → Worked settings root t →
      Worked settings root (next a t).2) :
    Worked settings root ((step >>= next) w).2 := by
  rcases yields_or_refuses step w with ⟨a, t, hstep⟩ | ⟨e, t, hstep⟩
  · rw [hstep] at h
    rw [hstep.bind_apply]
    exact hnext a t hstep h
  · rw [hstep] at h
    rwa [hstep.bind_apply]

theorem Worked.discard {step : Expand α} (h : Worked settings root (step w).2) :
    Worked settings root ((Functor.discard step : Expand PUnit) w).2 := by
  show Worked settings root ((step >>= fun _ => pure PUnit.unit) w).2
  exact h.bind fun _ _ _ ht => ht

/-- The pass over a tree is made of operations of this kind. -/
theorem Worked.visitUpTo {fuel : Nat} (h : Worked settings root w) :
    Worked settings root (Expand.visitUpTo settings fuel r w).2 := by
  induction fuel generalizing r w with
  | zero => exact h
  | succ fuel ih =>
    have hchildren (cs : List Nat) (w : Work) (h : Worked settings root w) :
        Worked settings root ((cs.forM fun (c : Nat) => Expand.visitUpTo settings fuel (some c))
          w).2 := by
      induction cs generalizing w with
      | nil => exact h
      | cons c cs ihcs => exact (ih h).bind fun _ t _ ht => ihcs t ht
    unfold Expand.visitUpTo
    refine Worked.bind h fun f w' hforest _ => ?_
    obtain ⟨rfl, rfl⟩ := Expand.yields_forest.1 hforest
    cases w.forest.node? r with
    | none => exact h
    | some n =>
      cases n with
      | importFrom specifiers source =>
        dsimp only
        split
        · exact (h.rewrite (.inlineFeatures r)).discard
        · split
          · exact h.noteTools specifiers
          · exact h
      | _ => exact (hchildren _ w h).bind fun _ t _ ht => (ht.rewrite (.queue r)).discard

/-- The whole pass stays within these operations. -/
theorem Worked.pass (h : Worked settings root w) :
    Worked settings root (Expand.pass settings root w).2 := by
  have hvisit : Worked settings root (Expand.visit settings root w).2 := h.visitUpTo
  exact hvisit.bind fun _ _ _ ht => ht.finish root

end

end DebugGuard
