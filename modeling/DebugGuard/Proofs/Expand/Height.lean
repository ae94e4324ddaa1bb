import DebugGuard.Proofs.Expand.Run
import DebugGuard.Proofs.Forest.Graded

/-!
# Building below a statement

`Builds ins step outs` says of a building step that it keeps a graded forest graded, and that what
it makes of the nodes `ins` below some height is below that height again.  It also says what the
step leaves alone: old nodes keep their data, and only those in `ins` may get another parent.

The rules below put such steps together, and each building function has one lemma.  A step that may
be refused is described in both cases; a refused one returns nothing.
-/

namespace DebugGuard

open Forest

variable {α β : Type} {f g k : Forest} {height height' height'' : Nat → ℚ} {x : ℚ}
  {ins mid outs : List Ref}

/-- `g` comes from `f` by building `outs` out of `ins`, below the height `x`. -/
structure Built (x : ℚ) (ins : List Ref) (f : Forest) (height : Nat → ℚ) (outs : List Ref)
    (g : Forest) (height' : Nat → ℚ) : Prop where
  regraded : Regraded f height g height'
  grows : Grows f g
  parent : ∀ i < f.size, some i ∉ ins → g.parentOf (some i) = f.parentOf (some i)
  /-- What is not new has been there to build with. -/
  given : ∀ i < f.size, some i ∈ outs → some i ∈ ins
  under : ∀ r ∈ outs, g.Under height' x r

theorem Built.trans (h : Built x ins f height mid g height')
    (h' : Built x (mid ++ ins) g height' outs k height'') :
    Built x ins f height outs k height'' where
  regraded := h.regraded.trans h'.regraded
  grows := h.grows.trans h'.grows
  parent i hi hins := by
    have hmid : some i ∉ mid ++ ins := fun hmem =>
      (List.mem_append.1 hmem).elim (fun hmem => hins (h.given i hi hmem)) hins
    rw [h'.parent i (Nat.lt_of_lt_of_le hi h.grows.size_le) hmid, h.parent i hi hins]
  given i hi hmem := by
    have hmid := h'.given i (Nat.lt_of_lt_of_le hi h.grows.size_le) hmem
    exact (List.mem_append.1 hmid).elim (h.given i hi) id
  under := h'.under

/-- The step builds `outs` out of `ins`, wherever these are. -/
def Builds (ins : List Ref) (step : Build α) (outs : α → List Ref) : Prop :=
  ∀ ⦃f height x⦄, f.Graded height → (∀ r ∈ ins, f.Under height x r) →
    ∃ height', Built x ins f height (outs (step f).1) (step f).2 height'

/-- What is made by a step that goes through. -/
def Except.parts {ε γ : Type} (outs : α → List γ) : Except ε α → List γ
  | .ok a => outs a
  | .error _ => []

/-- The step builds `outs` out of `ins` if it is not refused, and something in any case. -/
def Reshapes (ins : List Ref) (step : Reshape α) (outs : α → List Ref) : Prop :=
  Builds (α := Except ExpandError α) ins step (Except.parts outs)

/-! ### Rules -/

namespace Builds

variable {step : Build α} {next : α → Build β} {made : α → List Ref} {made' : β → List Ref}
  {ins' : List Ref}

theorem pure {a : α} (h : ∀ r ∈ made a, r ∈ ins) : Builds ins (pure a) made := by
  intro f height x hf hins
  exact ⟨height, .refl hf, .refl, fun _ _ _ => rfl, fun i _ hi => h _ hi,
    fun r hr => hins r (h r hr)⟩

theorem bind (h : Builds ins step made) (hnext : ∀ a, Builds (made a ++ ins) (next a) made') :
    Builds ins (step >>= next) made' := by
  intro f height x hf hins
  obtain ⟨height', hbuilt⟩ := h hf hins
  have hins' : ∀ r ∈ made (step f).1 ++ ins, (step f).2.Under height' x r := by
    intro r hr
    rcases List.mem_append.1 hr with hr | hr
    · exact hbuilt.under r hr
    · exact hbuilt.regraded.under (hins r hr)
  obtain ⟨height'', hbuilt'⟩ := hnext (step f).1 hbuilt.regraded.graded hins'
  exact ⟨height'', hbuilt.trans hbuilt'⟩

theorem mono (h : Builds ins step made) (hins : ∀ r ∈ ins, r ∈ ins') : Builds ins' step made := by
  intro f height x hf hr
  obtain ⟨height', hbuilt⟩ := h hf fun r hmem => hr r (hins r hmem)
  exact ⟨height', hbuilt.regraded, hbuilt.grows,
    fun i hi hmem => hbuilt.parent i hi fun h => hmem (hins _ h),
    fun i hi hmem => hins _ (hbuilt.given i hi hmem), hbuilt.under⟩

theorem node {n : Node Ref} (h : ∀ r ∈ n.children, r ∈ ins) :
    Builds ins (Build.node n) fun j => [some j] := by
  intro f height x hf hins
  obtain ⟨height', hadd, hunder⟩ := hf.exists_add 0 fun r hr => hins r (h r hr)
  refine ⟨height', hadd, grows_add, fun i _ hmem => ?_, fun i hi hmem => ?_, fun r hr => ?_⟩
  · exact parentOf_add_of_notMem fun hi => hmem (h _ hi)
  · cases List.mem_singleton.1 hmem
    exact absurd hi (Nat.lt_irrefl _)
  · rw [List.mem_singleton.1 hr]
    exact hunder

end Builds

namespace Reshapes

variable {step : Reshape α} {next : α → Reshape β} {made : α → List Ref} {made' : β → List Ref}
  {ins' : List Ref}

theorem pure {a : α} (h : ∀ r ∈ made a, r ∈ ins) : Reshapes ins (pure a) made :=
  Builds.pure h

theorem throw {e : ExpandError} : Reshapes ins (throw e : Reshape α) made :=
  Builds.pure nofun

theorem bind (h : Reshapes ins step made)
    (hnext : ∀ a, Reshapes (made a ++ ins) (next a) made') :
    Reshapes ins (step >>= next) made' := by
  have hcont (r : Except ExpandError α) : Builds (α := Except ExpandError β)
      (Except.parts made r ++ ins) (ExceptT.bindCont next r : Build _) (Except.parts made') := by
    cases r with
    | ok a => exact hnext a
    | error e => exact Builds.pure nofun
  exact Builds.bind h hcont

theorem mono (h : Reshapes ins step made) (hins : ∀ r ∈ ins, r ∈ ins') :
    Reshapes ins' step made :=
  Builds.mono h hins

theorem lift {build : Build α} (h : Builds ins build made) :
    Reshapes ins (liftM build) made :=
  Builds.bind h fun _ => Builds.pure fun _ => List.mem_append_left _

/-- Looking at the forest changes nothing. -/
theorem get {next : Forest → Reshape β} (h : ∀ f, Reshapes ins (next f) made') :
    Reshapes ins (get >>= next) made' :=
  fun f _ _ hf hins => h f hf hins

end Reshapes

/-! ### Expressions -/

variable {call left right : Ref} {args conditions : List Ref} {style : HelperStyle}
  {helper : Helper} {p : Pending}

theorem builds_methodCall {object method : String} :
    Builds args (Helper.methodCall object method args) fun j => [some j] :=
  .bind (.node nofun) fun o => .bind (.node (by simp [Node.children])) fun callee =>
    .node (by simp +contextual [Node.children])

theorem builds_externalCall :
    Builds (call :: args) (Helper.externalCall style helper call args) fun r => [r] := by
  unfold Helper.externalCall
  cases style.global with
  | none => exact .pure (by simp)
  | some object =>
    exact .bind (builds_methodCall.mono fun r => List.mem_cons_of_mem _) fun j => .pure (by simp)

theorem builds_consoleCall :
    Builds (call :: args) (Helper.consoleCall style helper call args) fun r => [r] := by
  unfold Helper.consoleCall
  split
  · exact builds_externalCall
  · exact .bind (builds_methodCall.mono fun r => List.mem_cons_of_mem _) fun j => .pure (by simp)

theorem reshapes_callbackCall :
    Reshapes (call :: args) (Helper.callbackCall style call args) fun r => [r] := by
  unfold Helper.callbackCall
  split
  · exact .lift builds_externalCall
  · cases args with
    | nil => exact .throw
    | cons callback args =>
      refine .bind (.lift (.node (by simp [Node.children]))) fun grouped => ?_
      exact .bind (.lift (.node (by simp [Node.children]))) fun j => .pure (by simp)

theorem builds_negated {test : Option Ref} :
    Builds test.toList (Helper.negated test) fun j => [some j] := by
  have hgrouped (t : Ref) : Builds [t] (do
      let grouped ← Build.node (.parenthesized t)
      Build.node (.unary "!" (some grouped))) fun j => [some j] :=
    .bind (.node (by simp [Node.children])) fun grouped => .node (by simp [Node.children])
  cases test with
  | none =>
    have hliteral : Builds [] (some <$> Build.node (.literal (.boolean false)))
        fun t : Ref => [t] := by
      rw [← bind_pure_comp]
      exact .bind (.node nofun) fun j => .pure (by simp)
    exact .bind hliteral hgrouped
  | some t => exact hgrouped t

theorem reshapes_readDeprecation {object : Ref} :
    Reshapes ins (Helper.readDeprecation object) fun _ => [] := by
  refine .get fun f => ?_
  cases Deprecation.ofObject f object with
  | ok d => exact .pure nofun
  | error fault => exact .throw

theorem reshapes_deprecationWarning :
    Reshapes ins (Helper.deprecationWarning args) fun j => [some j] := by
  unfold Helper.deprecationWarning
  cases args[2]? with
  | none => exact .throw
  | some object =>
    refine .bind reshapes_readDeprecation fun d => .get fun f => ?_
    cases args.head?.bind f.stringValue? with
    | none => exact .throw
    | some message =>
      refine .bind (.lift (.node nofun)) fun text => ?_
      exact .mono (.lift builds_methodCall) (by simp)

theorem reshapes_deprecationCall :
    Reshapes (call :: args) (Helper.deprecationCall style call args) fun r => [r] := by
  unfold Helper.deprecationCall
  split
  · refine .get fun f => ?_
    cases args[2]?.filter fun m => f.nodeIs Node.isObject m with
    | none => exact .lift builds_externalCall
    | some object =>
      have hread : Reshapes (call :: args) (discard (Helper.readDeprecation object))
          fun _ => [] := by
        show Reshapes _ (Helper.readDeprecation object >>= fun _ => Pure.pure PUnit.unit) _
        exact .bind reshapes_readDeprecation fun d => .pure nofun
      exact .bind hread fun u => .lift builds_externalCall
  · exact .bind reshapes_deprecationWarning fun j => .pure (by simp)

theorem builds_both : Builds [left, right] (Pending.both left right) fun r => [r] :=
  .bind (.node (by simp [Node.children])) fun j => .pure (by simp)

theorem builds_conjunction :
    Builds (left :: conditions) (conditions.foldlM Pending.both left) fun r => [r] := by
  induction conditions generalizing left with
  | nil => exact .pure (by simp)
  | cons c conditions ih =>
    rw [List.foldlM_cons]
    refine .bind (builds_both.mono (by simp)) fun both => ih.mono fun r hr => ?_
    simp only [List.cons_append, List.nil_append, List.mem_cons] at hr ⊢
    tauto

theorem builds_guarded (flag : String) :
    Builds (p.call :: p.conditions) (p.guarded flag) fun j => [some j] := by
  refine .bind (.node nofun) fun first => .bind (builds_conjunction.mono ?_) fun conditions => ?_
  · intro r hr
    simp only [List.cons_append, List.nil_append, List.mem_cons] at hr ⊢
    tauto
  · exact .bind (builds_both.mono (by simp)) fun all => .node (by simp [Node.children])

/-! ### Helper calls -/

/-- What is made of a helper call once it has been found in its statement. -/
def Helper.render (style : HelperStyle) (helper : Helper) (statement call : Ref)
    (args : List Ref) : Reshape Pending :=
  match helper with
  | .deprecate => do
    let condition ← Helper.negated args[1]?
    return ⟨statement, [some condition], ← Helper.deprecationCall style call args⟩
  | .runInDebug => return ⟨statement, [], ← Helper.callbackCall style call args⟩
  | _ => return ⟨statement, [], ← Helper.consoleCall style helper call args⟩

theorem Helper.build_eq {statement : Ref} : helper.build style statement =
    helper.callIn statement >>= fun (call, args) => helper.render style statement call args :=
  rfl

theorem reshapes_render (style : HelperStyle) (helper : Helper) (statement : Ref) :
    Reshapes (call :: args) (helper.render style statement call args)
      fun p => p.call :: p.conditions := by
  have hconsole : Reshapes (call :: args) (do
      return ⟨statement, [], ← Helper.consoleCall style helper call args⟩)
      fun p : Pending => p.call :: p.conditions :=
    .bind (.lift builds_consoleCall) fun r => .pure (by simp)
  cases helper with
  | «deprecate» =>
    have htest : ∀ r ∈ args[1]?.toList, r ∈ call :: args := fun r hr =>
      List.mem_cons_of_mem _ (List.mem_of_getElem? (Option.mem_toList.1 hr))
    refine .bind (.mono (.lift builds_negated) htest) fun condition => ?_
    exact .bind (.mono reshapes_deprecationCall (by simp +contextual)) fun r => .pure (by simp)
  | runInDebug => exact .bind reshapes_callbackCall fun r => .pure (by simp)
  | assert | warn | log => exact hconsole

/-! ### Constants -/

theorem builds_constant (name : String) (value : Literal) :
    Builds [] (Flag.constant name value) fun j => [some j] :=
  .bind (.node nofun) fun literal => .bind (.node (by simp [Node.children])) fun declarator =>
    .node (by simp [Node.children])

theorem reshapes_ofSpecifier (flags : Flags) (module : String) (specifier : Ref) :
    Reshapes ins (Flag.ofSpecifier flags module specifier) fun j => [some j] := by
  refine .get fun f => ?_
  cases f.importedName? specifier with
  | none => exact .throw
  | some flag =>
    dsimp only
    cases flags.find? flag with
    | none => exact .throw
    | some value => exact .mono (.lift (builds_constant _ value)) nofun

theorem reshapes_constants (flags : Flags) (module : String) (specifiers : List Ref) :
    Reshapes ins (Flag.constants flags module specifiers) fun ds => ds.map some := by
  unfold Flag.constants
  induction specifiers generalizing ins with
  | nil => exact .pure nofun
  | cons r specifiers ih =>
    rw [List.mapM_cons]
    exact .bind (reshapes_ofSpecifier flags module r) fun d =>
      .bind ih fun ds => .pure (by simp +contextual)

end DebugGuard
