import DebugGuard.Proofs.Expand.Prepared
import DebugGuard.Proofs.Forest.Ledger

/-!
# What the expansion does with its new nodes

The building functions keep account (`Forest.Ledger`): of what they are given they put each new node
into one expression, and what they return is all that is left to be put somewhere.  The functions
that edit put it into a list.
-/

namespace DebugGuard.Forest.Ledger

variable {f g g' : Forest} {m s call j e : Nat} {n : Node Ref} {r test left right : Ref}
  {l args conditions : List Ref} {style : HelperStyle} {helper : Helper} {p : Pending}
  {ps : List Pending} {gs : List (Ref × Nat)} {flag : String}

/-! ### Expressions -/

theorem node (h : Ledger m (n.children ++ l) g) :
    Ledger m (some (Build.node n g).1 :: l) (Build.node n g).2 :=
  h.add

theorem methodCall (object method : String) (args : List Ref) (h : Ledger m (args ++ l) g) :
    Ledger m (some (Helper.methodCall object method args g).1 :: l)
      (Helper.methodCall object method args g).2 := by
  have ho := node (n := .identifier object) (l := args ++ l) h
  have hcallee := node (n := .member (some _) method) (l := args ++ l) ho
  exact node (n := .call (some _) args) (l := l) hcallee

theorem grouped_not (h : Ledger m (test :: l) g) :
    let p := Build.node (.parenthesized test) g
    let j := Build.node (.unary "!" (some p.1)) p.2
    Ledger m (some j.1 :: l) j.2 :=
  node (n := .unary "!" (some _)) (l := l) (node (n := .parenthesized test) (l := l) h)

theorem negated {test : Option Ref} (hold : ∀ i, test = some (some i) → i < m)
    (h : Ledger m l g) :
    Ledger m (some (Helper.negated test g).1 :: l) (Helper.negated test g).2 := by
  cases test with
  | none => exact grouped_not (node (n := .literal (.boolean false)) (l := l) h)
  | some t => exact grouped_not (h.cons_old fun i hi => hold i (congrArg some hi))

theorem both (h : Ledger m (left :: right :: l) g) :
    Ledger m ((Pending.both left right g).1 :: l) (Pending.both left right g).2 :=
  node (n := .binary left "&&" right) (l := l) h

theorem conjunction (h : Ledger m (left :: (conditions ++ l)) g) :
    Ledger m ((conditions.foldlM Pending.both left g).1 :: l)
      (conditions.foldlM Pending.both left g).2 := by
  induction conditions generalizing left g with
  | nil => exact h
  | cons c conditions ih =>
    rw [List.foldlM_cons]
    exact ih (both (l := conditions ++ l) h)

theorem guarded (flag : String) (h : Ledger m (p.call :: (p.conditions ++ l)) g) :
    Ledger m (some (p.guarded flag g).1 :: l) (p.guarded flag g).2 := by
  have hid := node (n := .identifier flag) (l := p.call :: (p.conditions ++ l)) h
  have hleft := conjunction (l := p.call :: l)
    (hid.perm (.cons _ List.perm_middle.symm))
  have hall := both (l := l) hleft
  exact node (n := .parenthesized _) (l := l) hall

/-- Of what the calls in the queue are made of, one guarded expression for each is left. -/
theorem guardAll (flag : String)
    (h : Ledger m (ps.flatMap (fun p => p.call :: p.conditions) ++ l) g)
    (hrun : Pending.guardAll flag ps g = (gs, g')) :
    Ledger m (gs.map (fun q => some q.2) ++ l) g' := by
  unfold Pending.guardAll at hrun
  -- The expressions made so far wait in `l`.
  induction ps generalizing g gs l with
  | nil =>
    cases hrun
    exact h
  | cons p ps ih =>
    simp only [List.mapM_cons, Build.bind_apply, Build.pure_apply] at hrun
    obtain ⟨rfl, rfl⟩ := hrun
    have hfirst := guarded (p := p) (l := ps.flatMap (fun p => p.call :: p.conditions) ++ l) flag
      (by simpa using h)
    exact (ih (hfirst.perm List.perm_middle.symm) rfl).perm List.perm_middle

/-- The guarded expressions are put into their statements. -/
theorem placeAll (h : Ledger m (gs.map (fun q => some q.2) ++ l) g) {u : Unit}
    (hrun : Yields (gs.forM fun (s, e) => Reshape.edit fun f => f.setExpression s (some e))
      g u g') : Ledger m l g' := by
  induction gs generalizing g with
  | nil =>
    obtain rfl := yields_forM_nil.1 hrun
    exact h
  | cons q gs ih =>
    obtain ⟨q, e⟩ := q
    obtain ⟨g₁, hedit, hrest⟩ := yields_forM_cons.1 hrun
    exact ih (h.setExpression (yields_edit.1 hedit)) hrest

theorem applyGuards (h : Ledger m (ps.flatMap fun p => p.call :: p.conditions) g) {u : Unit}
    (hrun : Yields (Expand.applyGuards flag ps) g u g') : Ledger m [] g' := by
  unfold Expand.applyGuards at hrun
  obtain ⟨gs, g₁, hguard, hrun⟩ := yields_bind.1 hrun
  exact (guardAll (l := []) flag (by rwa [List.append_nil]) (yields_lift.1 hguard)).placeAll hrun

/-! ### Rendered calls -/

theorem externalCall (hold : ∀ i, r = some i ∨ some i ∈ args → i < m) (h : Ledger m l g) :
    Ledger m ((Helper.externalCall style helper r args g).1 :: l)
      (Helper.externalCall style helper r args g).2 := by
  unfold Helper.externalCall
  cases style.global with
  | none => exact h.cons_old fun i hi => hold i (.inl hi)
  | some object =>
    exact methodCall object helper.name args (h.append_old fun i hi => hold i (.inr hi))

theorem consoleCall (hold : ∀ i, r = some i ∨ some i ∈ args → i < m) (h : Ledger m l g) :
    Ledger m ((Helper.consoleCall style helper r args g).1 :: l)
      (Helper.consoleCall style helper r args g).2 := by
  unfold Helper.consoleCall
  split
  · exact externalCall hold h
  · exact methodCall "console" helper.name args (h.append_old fun i hi => hold i (.inr hi))

theorem callbackCall (hold : ∀ i, r = some i ∨ some i ∈ args → i < m) (h : Ledger m l g)
    {r' : Ref} (hrun : Yields (Helper.callbackCall style r args) g r' g') :
    Ledger m (r' :: l) g' := by
  have hrun := hrun.callbackCall
  split at hrun
  next =>
    obtain ⟨rfl, rfl⟩ := Prod.mk.inj hrun
    exact externalCall hold h
  next =>
    obtain ⟨callback, _, j, g₁, hcallback, hgrouped, hcall, rfl⟩ := hrun
    obtain ⟨rfl, rfl⟩ := Prod.mk.inj hgrouped
    obtain ⟨rfl, rfl⟩ := Prod.mk.inj hcall
    have hgrouped := node (n := .parenthesized callback) (l := l)
      (h.cons_old fun i hi => hold i (.inr (hi ▸ List.mem_of_mem_head? hcallback)))
    exact node (n := .call (some _) []) (l := l) hgrouped

theorem deprecationWarning (h : Ledger m l g)
    (hrun : Yields (Helper.deprecationWarning args) g j g') : Ledger m (some j :: l) g' := by
  obtain ⟨object, dep, message, _, g₁, -, -, -, htext, hcall⟩ := hrun.deprecationWarning
  obtain ⟨rfl, rfl⟩ := Prod.mk.inj htext
  obtain ⟨rfl, rfl⟩ := Prod.mk.inj hcall
  exact methodCall "console" "warn" [some _]
    (node (n := .literal (.string (dep.warning message))) (l := l) h)

theorem deprecationCall (hold : ∀ i, r = some i ∨ some i ∈ args → i < m) (h : Ledger m l g)
    {r' : Ref} (hrun : Yields (Helper.deprecationCall style r args) g r' g') :
    Ledger m (r' :: l) g' := by
  have hrun := hrun.deprecationCall
  split at hrun
  next =>
    obtain ⟨rfl, rfl⟩ := Prod.mk.inj hrun
    exact externalCall hold h
  next =>
    obtain ⟨j, hwarning, rfl⟩ := hrun
    exact deprecationWarning h hwarning

/-- What is prepared for a helper call is left to be put somewhere. -/
theorem build {callee : Ref} {root : Nat} {c : Changes} {d : Draft} {keep : Prop}
    (hd : d.Sound f keep c) (hp : f.Parsed root)
    (hs : f.node? (some s) = some (.expressionStatement (some call)))
    (hc : f.node? (some call) = some (.call callee args)) (hclear : c.guarded s = none)
    (h : Ledger f.size l d.forest)
    (hrun : Yields (helper.build style (some s)) d.forest p g) :
    Ledger f.size (p.call :: p.conditions ++ l) g := by
  have hcall : call < f.size := lt_size_of_node? hc
  have hold : ∀ i, some call = some i ∨ some i ∈ args → i < f.size := by
    rintro i (⟨⟨⟩⟩ | hi)
    · exact hcall
    · exact Nat.lt_trans (hp.of_mem_children hc (by simp [Node.children, hi])).1 hcall
  unfold Helper.build at hrun
  obtain ⟨parts, g₁, hparts, hrun⟩ := yields_bind.1 hrun
  obtain ⟨rfl, rfl⟩ := Draft.callIn hd hs hc hclear hparts
  -- All helpers but two are calls of the console.
  have hconsole (hrun : Yields (do return ⟨some s, [], ← Helper.consoleCall style helper (some call)
      args⟩ : Reshape Pending) d.forest p g) : Ledger f.size (p.call :: p.conditions ++ l) g := by
    obtain ⟨r, g₂, hlift, hrun⟩ := yields_bind.1 hrun
    obtain ⟨rfl, rfl⟩ := yields_pure.1 hrun
    obtain ⟨rfl, rfl⟩ := Prod.mk.inj (yields_lift.1 hlift)
    exact consoleCall hold h
  cases helper with
  | «deprecate» =>
    obtain ⟨cond, g₁, hlift, hrun⟩ := yields_bind.1 hrun
    obtain ⟨r, g₂, hcall, hrun⟩ := yields_bind.1 hrun
    obtain ⟨rfl, rfl⟩ := yields_pure.1 hrun
    obtain ⟨rfl, rfl⟩ := Prod.mk.inj (yields_lift.1 hlift)
    exact deprecationCall hold
      (negated (fun i hi => hold i (.inr (List.mem_of_getElem? hi))) h) hcall
  | runInDebug =>
    obtain ⟨r, g₂, hcall, hrun⟩ := yields_bind.1 hrun
    obtain ⟨rfl, rfl⟩ := yields_pure.1 hrun
    exact callbackCall hold h hcall
  | assert | warn | log => exact hconsole hrun

/-! ### Constants -/

theorem constant (name : String) (value : Literal) (h : Ledger m l g) :
    Ledger m (some (Flag.constant name value g).1 :: l) (Flag.constant name value g).2 := by
  have hl := node (n := .literal value) (l := l) h
  have hdeclarator := node (n := .declarator name (some _)) (l := l) hl
  exact node (n := .varDeclaration .const [some _]) (l := l) hdeclarator

theorem ofSpecifier {flags : Flags} {module : String} (h : Ledger m l g)
    (hrun : Yields (Flag.ofSpecifier flags module r) g j g') : Ledger m (some j :: l) g' := by
  obtain ⟨flag, value, -, -, hconstant⟩ := hrun.ofSpecifier
  obtain ⟨rfl, rfl⟩ := Prod.mk.inj hconstant
  exact constant _ value h

theorem constants {flags : Flags} {module : String} {specifiers : List Ref} {ds : List Nat}
    (h : Ledger m l g) (hrun : Yields (Flag.constants flags module specifiers) g ds g') :
    Ledger m (ds.map some ++ l) g' := by
  unfold Flag.constants at hrun
  induction specifiers generalizing g ds l with
  | nil =>
    obtain ⟨rfl, rfl⟩ := yields_mapM_nil.1 hrun
    exact h
  | cons r specifiers ih =>
    obtain ⟨j, g₁, ds, hfirst, hrest, rfl⟩ := yields_mapM_cons.1 hrun
    exact (ih (h.ofSpecifier hfirst) hrest).perm List.perm_middle

theorem inlineImport {flags : Flags} {module : String} {u : Unit} (h : Ledger m l g)
    (hrun : Yields (Flag.inlineImport flags module r) g u g') : Ledger m l g' := by
  obtain ⟨ds, g₁, hconstants, hsplice⟩ := hrun.inlineImport
  exact (h.constants hconstants).splice hsplice

theorem injectFlag {settings : Settings} {name : String} {u : Unit} (h : Ledger m l g)
    (hrun : Yields (Expand.injectFlag settings r name) g u g') : Ledger m l g' := by
  obtain ⟨j, g₁, hconstant, hput⟩ := hrun.injectFlag
  obtain ⟨rfl, rfl⟩ := Prod.mk.inj hconstant
  exact (h.constant name settings.debug).putFirst hput

end DebugGuard.Forest.Ledger
