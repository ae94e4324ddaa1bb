import DebugGuard.Expand.Flag
import DebugGuard.Expand.Helper
import DebugGuard.Proofs.Expand.Run
import DebugGuard.Proofs.Forest.Planting
import DebugGuard.Proofs.Scope.Carried

/-!
# Building on a script

A `Draft` is a forest under work together with the places that its new nodes belong to.  Building
adds expressions for one statement at a time; whatever it puts into them is new and belongs to that
statement, or is lent by it (`Draft.Operand`).  Each of the building functions comes with one lemma
that says what it makes: `Draft.methodCall`, `Draft.negated`, `Draft.constant`, `Draft.guarded`.
-/

namespace DebugGuard

/-- A forest under work. -/
structure Draft where
  forest : Forest
  /-- The node of the script that a new node belongs to. -/
  site : Nat → Nat
  /-- The new nodes that hang nowhere yet. -/
  loose : Set Nat

namespace Draft

variable {f : Forest} {keep : Prop} {c : Changes} {d d' d'' : Draft} {root s t j : Nat} {r : Ref}
  {rs : List Ref} {n : Node Ref}

/-- The draft comes from the parsed forest `f` by the changes `c` and new nodes. -/
def Sound (f : Forest) (keep : Prop) (c : Changes) (d : Draft) : Prop :=
  f.Graft keep c d.site d.loose d.forest

/-- Work on the script up to the node `s`: new nodes stay as they are, and nodes from `s` on are not
moved. -/
structure Grows (f : Forest) (s : Nat) (d d' : Draft) : Prop where
  size_le : d.forest.size ≤ d'.forest.size
  node : ∀ ⦃j n⦄, f.Added d.forest j n → f.Added d'.forest j n
  site : ∀ ⦃j⦄, j < d.forest.size → d'.site j = d.site j
  parent : ∀ ⦃i⦄, s ≤ i → i < f.size →
    d'.forest.parentOf (some i) = d.forest.parentOf (some i)

theorem Grows.refl : Grows f s d d :=
  ⟨Nat.le_refl _, fun _ _ h => h, fun _ _ => rfl, fun _ _ _ => rfl⟩

theorem Grows.trans (h : Grows f s d d') (h' : Grows f s d' d'') : Grows f s d d'' where
  size_le := Nat.le_trans h.size_le h'.size_le
  node _ _ hn := h'.node (h.node hn)
  site _ hj := (h'.site (Nat.lt_of_lt_of_le hj h.size_le)).trans (h.site hj)
  parent _ hs hi := (h'.parent hs hi).trans (h.parent hs hi)

theorem Grows.mono (h : Grows f s d d') (hst : s ≤ t) : Grows f t d d' where
  __ := h
  parent _ ht hi := h.parent (Nat.le_trans hst ht) hi

/-- What is planted in a draft makes a draft. -/
theorem Sound.plant (h : d.Sound f keep c) (hp : f.Parsed root) {c' : Changes} {g : Forest}
    {put : List Nat} {gone : Option Nat}
    (hplant : f.Planting d.forest c c' d.site s n put gone g) (hgone : ∀ i, gone = some i → i < t) :
    ∃ d', d'.forest = g ∧ d'.site = d.site ∧ d'.loose = d.loose \ {j | j ∈ put} ∧
      d'.Sound f keep c' ∧ Grows f t d d' :=
  ⟨⟨g, d.site, _⟩, rfl, rfl, rfl, Forest.Graft.plant h hp hplant,
    Nat.le_of_eq hplant.alters.size.symm, fun _ _ hj => hplant.added hj, fun _ _ => rfl,
    fun i hi hlt => hplant.parent_eq hlt fun hg => Nat.not_lt_of_le hi (hgone i hg)⟩

/-- What may be put into an expression for the statement `s`: an expression that belongs there, or
one that the statement lends. -/
def Operand (f : Forest) (keep : Prop) (s : Nat) (d : Draft) (r : Ref) : Prop :=
  ∃ j, r = some j ∧
    ((d.site j = s ∧ ∃ n, f.Added d.forest j n ∧ n.isExpression = true) ∨ f.Lends keep s j)

theorem Operand.grows (h : d.Operand f keep s r) (hg : Grows f t d d') :
    d'.Operand f keep s r := by
  obtain ⟨j, rfl, ⟨hs, n, hn, he⟩ | hlends⟩ := h
  · refine ⟨j, rfl, .inl ⟨?_, n, hg.node hn, he⟩⟩
    rw [hg.site (Forest.lt_size_of_node? hn.2), hs]
  · exact ⟨j, rfl, .inr hlends⟩

theorem Operand.exists_node? (h : d.Operand f keep s r) (hd : d.Sound f keep c)
    (hp : f.Parsed root) : ∃ n, d.forest.node? r = some n ∧ n.isExpression = true := by
  obtain ⟨j, rfl, ⟨-, n, hn, he⟩ | hlends⟩ := h
  · exact ⟨n, hn.2, he⟩
  · obtain ⟨n, hn, he⟩ := hlends.isExpression hp
    refine ⟨c.node j n, ?_, by rwa [Changes.isExpression_node]⟩
    rw [hd.old (hlends.lt_size hp), hn, Option.map_some]

/-- A new node on top of others that belong to the same statement. -/
theorem exists_add (h : d.Sound f keep c) (hscope : n.isScope = false)
    (hkind : ∀ r ∈ n.children, ∃ m, d.forest.node? r = some m ∧ n.takes m = true)
    (hfrom : ∀ i, some i ∈ n.children →
      (f.size ≤ i ∧ d.site i = s) ∨ (i < f.size ∧ f.Lends keep s i))
    (hbefore : ∀ i, some i ∈ n.children → i < f.size → i < t) :
    ∃ d' : Draft, d'.forest = d.forest.add n 0 ∧
      d'.loose = insert d.forest.size (d.loose \ {j | some j ∈ n.children}) ∧
      d'.Sound f keep c ∧ Grows f t d d' ∧ d'.site d.forest.size = s := by
  have hsite : Function.update d.site d.forest.size s d.forest.size = s := by simp
  have hlt : ∀ j < d.forest.size, Function.update d.site d.forest.size s j = d.site j :=
    fun j hj => Function.update_of_ne (Nat.ne_of_lt hj) ..
  refine ⟨⟨_, Function.update d.site d.forest.size s, _⟩, rfl, rfl,
    (h.congr_site hlt).add hscope hsite hkind fun i hi => ?_, ?_, hsite⟩
  · refine (hfrom i hi).imp_left fun ⟨hfi, hs⟩ => ⟨hfi, ?_⟩
    obtain ⟨m, hm, -⟩ := hkind _ hi
    rw [hlt i (Forest.lt_size_of_node? hm), hs]
  · refine ⟨?_, fun j m hm => ⟨hm.1, Forest.node?_add_of_node? hm.2⟩, hlt, fun i hs hi => ?_⟩
    · show d.forest.size ≤ (d.forest.add n 0).size
      rw [Forest.size_add]
      omega
    · exact Forest.parentOf_add_of_notMem fun hmem => Nat.not_lt_of_le hs (hbefore i hmem hi)

/-- Of `d`, building the expression `r` for the statement `s` makes `d'`.  The references in `spent`
hang below `r` then. -/
structure Makes (f : Forest) (keep : Prop) (c : Changes) (s : Nat) (spent : List Ref) (d : Draft)
    (r : Ref) (d' : Draft) : Prop where
  sound : d'.Sound f keep c
  grows : Grows f s d d'
  operand : d'.Operand f keep s r
  loose : ∀ i ∈ d'.loose, some i = r ∨ (i ∈ d.loose ∧ some i ∉ spent)

/-- What has been built last is put into the next expression. -/
theorem Makes.next {spent spent' : List Ref} {r' : Ref} (h : Makes f keep c s spent d r d')
    (h' : Makes f keep c s spent' d' r' d'') (hr : r ∈ spent') :
    Makes f keep c s (spent ++ spent') d r' d'' where
  sound := h'.sound
  grows := h.grows.trans h'.grows
  operand := h'.operand
  loose i hi := by
    refine (h'.loose i hi).imp_right fun ⟨hi', hs'⟩ => ?_
    rcases h.loose i hi' with rfl | ⟨hi'', hs⟩
    · exact absurd hr hs'
    · exact ⟨hi'', by simp [hs, hs']⟩

theorem Makes.weaken {spent spent' : List Ref} (h : Makes f keep c s spent d r d')
    (hsub : spent' ⊆ spent) : Makes f keep c s spent' d r d' where
  __ := h
  loose i hi := (h.loose i hi).imp_right fun ⟨hi', hs⟩ => ⟨hi', fun hm => hs (hsub hm)⟩

/-- A new expression on top of others. -/
theorem exists_expression (h : d.Sound f keep c) (hp : f.Parsed root) (hscope : n.isScope = false)
    (he : n.isExpression = true) (htakes : ∀ m : Node Ref, n.takes m = m.isExpression)
    (hops : ∀ r ∈ n.children, d.Operand f keep s r) :
    ∃ d' j, Build.node n d.forest = (j, d'.forest) ∧
      Makes f keep c s n.children d (some j) d' ∧ f.Added d'.forest j n := by
  have hkind : ∀ r ∈ n.children, ∃ m, d.forest.node? r = some m ∧ n.takes m = true := by
    intro r hr
    obtain ⟨m, hm, hm'⟩ := (hops r hr).exists_node? h hp
    exact ⟨m, hm, by rw [htakes, hm']⟩
  have hfrom : ∀ i, some i ∈ n.children →
      (f.size ≤ i ∧ d.site i = s) ∨ (i < f.size ∧ f.Lends keep s i) := by
    intro i hi
    obtain ⟨j, ⟨⟩, ⟨hs, m, hm, -⟩ | hlends⟩ := hops _ hi
    · exact .inl ⟨hm.1, hs⟩
    · exact .inr ⟨hlends.lt_size hp, hlends⟩
  have hbefore : ∀ i, some i ∈ n.children → i < f.size → i < s := by
    intro i hi hif
    rcases hfrom i hi with ⟨hfi, -⟩ | ⟨-, hlends⟩
    · omega
    · exact hlends.lt_site hp
  obtain ⟨d', hforest, hloose, hsound, hgrows, hsite⟩ :=
    exists_add h hscope hkind hfrom hbefore
  have hadded : f.Added d'.forest d.forest.size n := by
    refine ⟨h.size_le, ?_⟩
    rw [hforest, Forest.node?_add_size]
  refine ⟨d', d.forest.size, by rw [hforest]; rfl, ⟨hsound, hgrows, ?_, fun i hi => ?_⟩, hadded⟩
  · exact ⟨_, rfl, .inl ⟨hsite, n, hadded, he⟩⟩
  · rw [hloose] at hi
    exact hi.imp (congrArg some) id

/-! ### Calls -/

end Draft

namespace Forest

/-- The new call `object.method(args)`. -/
def IsMethodCall (f g : Forest) (object method : String) (args : List Ref) (r : Ref) : Prop :=
  ∃ o callee j, r = some j ∧ f.Added g o (.identifier object) ∧
    f.Added g callee (.member (some o) method) ∧ f.Added g j (.call (some callee) args)

/-- The new expression `!(test)`. -/
def IsNegated (f g : Forest) (test r : Ref) : Prop :=
  ∃ p j, r = some j ∧ f.Added g p (.parenthesized test) ∧ f.Added g j (.unary "!" (some p))

/-- The chain `first && c && … ` of new nodes, one for each condition. -/
def IsConjunction (f g : Forest) : Ref → List Ref → Ref → Prop
  | first, [], r => r = first
  | first, c :: cs, r => ∃ j, f.Added g j (.binary first "&&" c) ∧ IsConjunction f g (some j) cs r

/-- The new expression `(flag && condition && … && call)`, with the identifier of the flag. -/
def IsGuarded (f g : Forest) (flag : String) (conditions : List Ref) (call : Ref) (id e : Nat) :
    Prop :=
  ∃ left all, f.Added g id (.identifier flag) ∧ f.IsConjunction g (some id) conditions left ∧
    f.Added g all (.binary left "&&" call) ∧ f.Added g e (.parenthesized (some all))

/-! What has been built stays, as long as the new nodes do. -/

section

variable {f g g' : Forest} {r : Ref} {flag : String} {conditions : List Ref}

theorem IsMethodCall.mono {object method : String} {args : List Ref}
    (hg : ∀ ⦃j n⦄, f.Added g j n → f.Added g' j n) (h : f.IsMethodCall g object method args r) :
    f.IsMethodCall g' object method args r := by
  obtain ⟨o, callee, j, rfl, ho, hcallee, hj⟩ := h
  exact ⟨o, callee, j, rfl, hg ho, hg hcallee, hg hj⟩

theorem IsNegated.mono {test : Ref} (hg : ∀ ⦃j n⦄, f.Added g j n → f.Added g' j n)
    (h : f.IsNegated g test r) : f.IsNegated g' test r := by
  obtain ⟨p, j, rfl, hp, hj⟩ := h
  exact ⟨p, j, rfl, hg hp, hg hj⟩

theorem IsConjunction.mono {first : Ref} (hg : ∀ ⦃j n⦄, f.Added g j n → f.Added g' j n)
    (h : f.IsConjunction g first conditions r) : f.IsConjunction g' first conditions r := by
  induction conditions generalizing first with
  | nil => exact h
  | cons c cs ih =>
    obtain ⟨j, hj, hr⟩ := h
    exact ⟨j, hg hj, ih hr⟩

theorem IsGuarded.mono {call : Ref} {id e : Nat} (hg : ∀ ⦃j n⦄, f.Added g j n → f.Added g' j n)
    (h : f.IsGuarded g flag conditions call id e) : f.IsGuarded g' flag conditions call id e := by
  obtain ⟨left, all, hid, hleft, hall, he⟩ := h
  exact ⟨left, all, hg hid, hleft.mono hg, hg hall, hg he⟩

theorem IsConstant.mono {d declarator : Nat} {name : String} {value : Literal}
    (hg : ∀ ⦃j n⦄, f.Added g j n → f.Added g' j n) (h : f.IsConstant g d declarator name value) :
    f.IsConstant g' d declarator name value := by
  obtain ⟨l, hbound, hl⟩ := h.init
  exact ⟨hg h.declaration, l, hg hbound, hg hl⟩

theorem AreFlags.mono {flags : Flags} {specifiers : List Ref} {ds : List Nat}
    (hg : ∀ ⦃j n⦄, f.Added g j n → f.Added g' j n) (h : f.AreFlags g flags specifiers ds) :
    f.AreFlags g' flags specifiers ds := by
  refine List.Forall₂.imp (fun r d hrd => ?_) h
  obtain ⟨s, declarator, rfl, name, flag, value, hname, hflag, hvalue, hconst⟩ := hrd
  exact ⟨s, declarator, rfl, name, flag, value, hname, hflag, hvalue, hconst.mono hg⟩

theorem Inlines.mono {c : Changes} {flags : Nat → Option Flags}
    (hg : ∀ ⦃j n⦄, f.Added g j n → f.Added g' j n) (h : Inlines f g c flags) :
    Inlines f g' c flags where
  replaced i ds hr := by
    obtain ⟨specifiers, source, hn, hds⟩ := h.replaced hr
    refine ⟨specifiers, source, hn, ?_⟩
    cases hf : flags i with
    | none =>
      rw [hf] at hds
      exact hds
    | some fl =>
      rw [hf] at hds
      exact AreFlags.mono hg hds
  listed := h.listed
  front d hd := by
    obtain ⟨declarator, name, value, hconst⟩ := h.front d hd
    exact ⟨declarator, name, value, hconst.mono hg⟩

end

end Forest

namespace Draft

variable {args : List Ref}

theorem methodCall (h : d.Sound f keep c) (hp : f.Parsed root) (object method : String)
    (args : List Ref) (hargs : ∀ r ∈ args, d.Operand f keep s r) :
    ∃ d' j, Helper.methodCall object method args d.forest = (j, d'.forest) ∧
      Makes f keep c s args d (some j) d' ∧
      f.IsMethodCall d'.forest object method args (some j) := by
  obtain ⟨d₁, o, hrun₁, hmake₁, ho⟩ := exists_expression (n := .identifier object) (s := s) h hp rfl
    rfl (fun _ => rfl) nofun
  obtain ⟨d₂, callee, hrun₂, hmake₂, hcallee⟩ := exists_expression (n := .member (some o) method)
    (s := s) hmake₁.sound hp rfl rfl (fun _ => rfl) (by simpa [Node.children] using hmake₁.operand)
  have hargs₂ : ∀ r ∈ args, d₂.Operand f keep s r := fun r hr =>
    ((hargs r hr).grows hmake₁.grows).grows hmake₂.grows
  obtain ⟨d₃, j, hrun₃, hmake₃, hj⟩ := exists_expression (n := .call (some callee) args) (s := s)
    hmake₂.sound hp rfl rfl (fun _ => rfl) (by simpa [Node.children] using ⟨hmake₂.operand, hargs₂⟩)
  refine ⟨d₃, j, ?_, ?_, o, callee, j, rfl, ?_, ?_, hj⟩
  · simp only [Helper.methodCall, Build.bind_apply, hrun₁, hrun₂, hrun₃]
  · refine ((hmake₁.next hmake₂ (by simp [Node.children])).next hmake₃
      (by simp [Node.children])).weaken fun r hr => ?_
    simp [Node.children, hr]
  · exact hmake₃.grows.node (hmake₂.grows.node ho)
  · exact hmake₃.grows.node hcallee

/-- An operand is put in parentheses and negated. -/
theorem grouped_not (h : d.Sound f keep c) (hp : f.Parsed root) {t : Ref}
    (ht : d.Operand f keep s t) :
    ∃ (d₁ d₂ : Draft) (p j : Nat), Build.node (.parenthesized t) d.forest = (p, d₁.forest) ∧
      Build.node (.unary "!" (some p)) d₁.forest = (j, d₂.forest) ∧
      Makes f keep c s [t] d (some j) d₂ ∧ f.IsNegated d₂.forest t (some j) := by
  obtain ⟨d₁, p, hrun₁, hmake₁, hp₁⟩ := exists_expression (n := .parenthesized t) (s := s) h hp rfl
    rfl (fun _ => rfl) (by simpa [Node.children] using ht)
  obtain ⟨d₂, j, hrun₂, hmake₂, hj⟩ := exists_expression (n := .unary "!" (some p)) (s := s)
    hmake₁.sound hp rfl rfl (fun _ => rfl) (by simpa [Node.children] using hmake₁.operand)
  refine ⟨d₁, d₂, p, j, hrun₁, hrun₂, ?_, p, j, rfl, hmake₂.grows.node hp₁, hj⟩
  exact (hmake₁.next hmake₂ (by simp [Node.children])).weaken (by simp [Node.children])

/-- The condition of a deprecation. -/
theorem negated (h : d.Sound f keep c) (hp : f.Parsed root) (test : Option Ref)
    (htest : ∀ r ∈ test, d.Operand f keep s r) :
    ∃ d' j, Helper.negated test d.forest = (j, d'.forest) ∧ Makes f keep c s [] d (some j) d' ∧
      ∃ t, f.IsNegated d'.forest t (some j) ∧
        (test = some t ∨ test = none ∧ ∃ l, t = some l ∧
          f.Added d'.forest l (.literal (.boolean false))) := by
  cases test with
  | some t =>
    obtain ⟨d₁, d₂, p, j, hrun₁, hrun₂, hmake, hj⟩ := grouped_not h hp (htest t rfl)
    refine ⟨d₂, j, ?_, hmake.weaken (List.nil_subset _), t, hj, .inl rfl⟩
    simp only [Helper.negated, pure_bind, Build.bind_apply, hrun₁, hrun₂]
  | none =>
    obtain ⟨d₀, l, hrun₀, hmake₀, hl⟩ := exists_expression (n := .literal (.boolean false))
      (s := s) h hp rfl rfl (fun _ => rfl) nofun
    obtain ⟨d₁, d₂, p, j, hrun₁, hrun₂, hmake, hj⟩ := grouped_not hmake₀.sound hp hmake₀.operand
    refine ⟨d₂, j, ?_, (hmake₀.next hmake (by simp)).weaken (List.nil_subset _), some l, hj,
      .inr ⟨rfl, l, rfl, hmake.grows.node hl⟩⟩
    simp only [Helper.negated, Build.bind_apply, Build.map_apply, hrun₀, hrun₁, hrun₂]

/-! ### Guards -/

theorem both (h : d.Sound f keep c) (hp : f.Parsed root) {left right : Ref}
    (hl : d.Operand f keep s left) (hr : d.Operand f keep s right) :
    ∃ d' j, Pending.both left right d.forest = (some j, d'.forest) ∧
      Makes f keep c s [left, right] d (some j) d' ∧
      f.Added d'.forest j (.binary left "&&" right) := by
  obtain ⟨d', j, hrun, hmake, hj⟩ := exists_expression (n := .binary left "&&" right) (s := s) h hp
    rfl rfl (fun _ => rfl) (by simpa [Node.children] using ⟨hl, hr⟩)
  refine ⟨d', j, ?_, hmake, hj⟩
  show (some <$> Build.node (.binary left "&&" right)) d.forest = _
  rw [Build.map_apply, hrun]

theorem conjunction (h : d.Sound f keep c) (hp : f.Parsed root) (conditions : List Ref)
    {first : Ref} (hfirst : d.Operand f keep s first)
    (hconditions : ∀ r ∈ conditions, d.Operand f keep s r) :
    ∃ d' r, conditions.foldlM Pending.both first d.forest = (r, d'.forest) ∧
      Makes f keep c s (first :: conditions) d r d' ∧
      f.IsConjunction d'.forest first conditions r := by
  induction conditions generalizing d first with
  | nil =>
    refine ⟨d, first, rfl, ⟨h, .refl, hfirst, fun i hi => ?_⟩, rfl⟩
    by_cases hif : some i = first
    · exact .inl hif
    · exact .inr ⟨hi, by simpa using hif⟩
  | cons cond conditions ih =>
    obtain ⟨d₁, j, hrun₁, hmake₁, hj⟩ := both h hp hfirst (hconditions cond (by simp))
    obtain ⟨d₂, r, hrun₂, hmake₂, hr⟩ := ih hmake₁.sound hmake₁.operand fun r hr =>
      (hconditions r (by simp [hr])).grows hmake₁.grows
    refine ⟨d₂, r, ?_, (hmake₁.next hmake₂ (by simp)).weaken ?_, j, hmake₂.grows.node hj, hr⟩
    · rw [List.foldlM_cons, Build.bind_apply, hrun₁, hrun₂]
    · intro r hr
      simp only [List.mem_cons, List.mem_append, List.not_mem_nil] at hr ⊢
      tauto

theorem guarded (h : d.Sound f keep c) (hp : f.Parsed root) (flag : String) {p : Pending}
    (hcall : d.Operand f keep s p.call) (hconditions : ∀ r ∈ p.conditions, d.Operand f keep s r) :
    ∃ d' id e, p.guarded flag d.forest = (e, d'.forest) ∧
      Makes f keep c s (p.call :: p.conditions) d (some e) d' ∧
      f.IsGuarded d'.forest flag p.conditions p.call id e := by
  obtain ⟨d₁, id, hrun₁, hmake₁, hid⟩ := exists_expression (n := .identifier flag) (s := s) h hp rfl
    rfl (fun _ => rfl) nofun
  obtain ⟨d₂, left, hrun₂, hmake₂, hleft⟩ := conjunction hmake₁.sound hp p.conditions
    hmake₁.operand fun r hr => (hconditions r hr).grows hmake₁.grows
  obtain ⟨d₃, all, hrun₃, hmake₃, hall⟩ := both hmake₂.sound hp hmake₂.operand
    ((hcall.grows hmake₁.grows).grows hmake₂.grows)
  obtain ⟨d₄, e, hrun₄, hmake₄, he⟩ := exists_expression (n := .parenthesized (some all)) (s := s)
    hmake₃.sound hp rfl rfl (fun _ => rfl) (by simpa [Node.children] using hmake₃.operand)
  refine ⟨d₄, id, e, ?_, ?_, left, all, ?_, ?_, hmake₄.grows.node hall, he⟩
  · simp only [Pending.guarded, Build.bind_apply, hrun₁, hrun₂, hrun₃, hrun₄]
  · refine (((hmake₁.next hmake₂ (by simp)).next hmake₃ (by simp)).next hmake₄
      (by simp [Node.children])).weaken ?_
    intro r hr
    simp only [Node.children, List.mem_cons, List.mem_append, List.not_mem_nil] at hr ⊢
    tauto
  · exact hmake₄.grows.node (hmake₃.grows.node (hmake₂.grows.node hid))
  · exact hleft.mono fun _ _ h => hmake₄.grows.node (hmake₃.grows.node h)

/-! ### Constants -/

/-- A constant that belongs to the list `s`. -/
theorem constant (h : d.Sound f keep c) (s : Nat) (name : String) (value : Literal) :
    ∃ d' j declarator, Flag.constant name value d.forest = (j, d'.forest) ∧
      d'.Sound f keep c ∧ Grows f 0 d d' ∧ (∀ i ∈ d'.loose, i = j ∨ i ∈ d.loose) ∧
      d'.site j = s ∧ f.IsConstant d'.forest j declarator name value := by
  have hadd {d d' : Draft} {n : Node Ref} (hd : d.Sound f keep c)
      (hforest : d'.forest = d.forest.add n 0) : f.Added d'.forest d.forest.size n :=
    ⟨hd.size_le, by rw [hforest, Forest.node?_add_size]⟩
  obtain ⟨d₁, hforest₁, hloose₁, hsound₁, hgrows₁, hsite₁⟩ := exists_add (n := .literal value)
    (s := s) (t := 0) h rfl nofun nofun nofun
  have hl := hadd h hforest₁
  obtain ⟨d₂, hforest₂, hloose₂, hsound₂, hgrows₂, hsite₂⟩ :=
    exists_add (n := .declarator name (some d.forest.size)) (s := s) (t := 0) hsound₁ rfl
      (by simpa [Node.children, Node.takes] using ⟨_, hl.2, rfl⟩)
      (by simpa [Node.children] using .inl ⟨hl.1, hsite₁⟩)
      (by simpa [Node.children] using hl.1)
  have hdeclarator := hadd hsound₁ hforest₂
  obtain ⟨d₃, hforest₃, hloose₃, hsound₃, hgrows₃, hsite₃⟩ :=
    exists_add (n := .varDeclaration .const [some d₁.forest.size]) (s := s) (t := 0) hsound₂ rfl
      (by simpa [Node.children, Node.takes] using ⟨_, hdeclarator.2, rfl⟩)
      (by simpa [Node.children] using .inl ⟨hdeclarator.1, hsite₂⟩)
      (by simpa [Node.children] using hdeclarator.1)
  have hj := hadd hsound₂ hforest₃
  refine ⟨d₃, d₂.forest.size, d₁.forest.size, ?_, hsound₃,
    (hgrows₁.trans hgrows₂).trans hgrows₃, fun i hi => ?_, hsite₃, hj, d.forest.size,
    hgrows₃.node hdeclarator, hgrows₃.node (hgrows₂.node hl)⟩
  · simp only [Flag.constant, Build.constant, Build.declare, Build.bind_apply, Build.node_apply,
      hforest₁, hforest₂, hforest₃]
  · simp only [hloose₁, hloose₂, hloose₃, Set.mem_insert_iff, Set.mem_sdiff, Set.mem_ofPred_eq,
      Node.children, List.mem_singleton, Option.some.injEq, List.not_mem_nil] at hi
    tauto

end Draft

end DebugGuard
