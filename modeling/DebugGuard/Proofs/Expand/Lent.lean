import DebugGuard.Proofs.Expand.Guard
import DebugGuard.Proofs.Forest.Ledger

/-!
# Where lent nodes are put

A guarded expression is built of new nodes on top of nodes that its statement lends.
`Forest.Bears f g r i j` says that in it the new node `j`, which is `r` or stands below `r`, holds the
node `i` of the script.  What an expression bears follows from its form, from the outside in:

* `GuardsCall.bears`: a lent node is borne once, but for one case;
* `GuardsCall.shares`: that case is the test of a deprecation whose call is one of the helper.  It
  is borne by the condition, and the call holds it too.
-/

namespace DebugGuard.Forest

variable {f g : Forest} {settings : Settings} {style : HelperStyle} {helper : Helper}
  {flag object method : String} {root i j k s id e call : Nat} {n : Node Ref} {r callee : Ref}
  {args conditions : List Ref}

/-- The new node `j`, which is `r` or stands below `r`, holds the node `i` of the script. -/
inductive Bears (f g : Forest) : Ref → Nat → Nat → Prop
  | here {i j : Nat} {n : Node Ref} (hj : f.Added g j n) (hi : some i ∈ n.children)
      (hlt : i < f.size) : Bears f g (some j) i j
  | under {i j k : Nat} {n : Node Ref} {r : Ref} (hk : f.Added g k n) (hr : r ∈ n.children)
      (h : Bears f g r i j) : Bears f g (some k) i j

/-- What a new node bears is what it holds, and what those below it bear. -/
theorem bears_iff (hk : f.Added g k n) : f.Bears g (some k) i j ↔
    (j = k ∧ some i ∈ n.children ∧ i < f.size) ∨ ∃ r ∈ n.children, f.Bears g r i j := by
  constructor
  · intro h
    cases h with
    | here hj hi hlt =>
      obtain rfl := Option.some.inj (hk.2.symm.trans hj.2)
      exact .inl ⟨rfl, hi, hlt⟩
    | under hk' hr h =>
      obtain rfl := Option.some.inj (hk.2.symm.trans hk'.2)
      exact .inr ⟨_, hr, h⟩
  · rintro (⟨rfl, hi, hlt⟩ | ⟨r, hr, h⟩)
    · exact .here hk hi hlt
    · exact .under hk hr h

/-- A node of the script bears nothing. -/
theorem not_bears_of_lt (hk : k < f.size) : ¬f.Bears g (some k) i j := by
  intro h
  cases h with
  | here hj _ _ => exact Nat.not_lt_of_le hj.1 hk
  | under hk' _ _ => exact Nat.not_lt_of_le hk'.1 hk

/-- A new leaf bears nothing. -/
theorem not_bears_of_leaf (hk : f.Added g k n) (hn : n.children = []) : ¬f.Bears g (some k) i j := by
  rw [bears_iff hk, hn]
  simp

theorem Bears.lt_size (h : f.Bears g r i j) : i < f.size := by
  induction h with
  | here _ _ hlt => exact hlt
  | under _ _ _ ih => exact ih

/-- A new node on top of one operand. -/
theorem bears_single (hk : f.Added g k n) (hn : n.children = [r]) : f.Bears g (some k) i j ↔
    (j = k ∧ r = some i ∧ i < f.size) ∨ f.Bears g r i j := by
  rw [bears_iff hk, hn]
  simp [eq_comm]

/-! ### The parts of a guarded expression -/

/-- In `r` the new node `o` alone bears anything, and that is arguments, each of them once. -/
def BearsIn (f g : Forest) (args : List Ref) (r : Ref) (o : Nat) : Prop :=
  ∀ i j, f.Bears g r i j → j = o ∧ some i ∈ args ∧ (g.childrenOf (some j)).count i = 1

/-- A method call bears its arguments. -/
theorem IsMethodCall.bears (h : f.IsMethodCall g object method args r)
    (hargs : ∀ a ∈ args, ∀ i j, ¬f.Bears g a i j) (honce : ∀ i, args.count (some i) ≤ 1) :
    ∃ o, r = some o ∧ f.size ≤ o ∧ f.BearsIn g args r o := by
  obtain ⟨o, callee, k, rfl, ho, hcallee, hk⟩ := h
  refine ⟨k, rfl, hk.1, fun i j hbears => ?_⟩
  have hlt := hbears.lt_size
  have hne : some callee ≠ some i := by
    rintro ⟨⟩
    exact Nat.not_lt_of_le hcallee.1 hlt
  rw [bears_iff hk] at hbears
  rcases hbears with ⟨rfl, hi, -⟩ | ⟨a, ha, hbears⟩
  · have hi : some i ∈ args := (List.mem_cons.1 hi).resolve_left hne.symm
    have hcount : (g.childrenOf (some j)).count i = args.count (some i) := by
      rw [count_childrenOf hk.2]
      exact List.count_cons_of_ne hne
    have hpos := List.count_pos_iff.2 hi
    have hle := honce i
    exact ⟨rfl, hi, by omega⟩
  · exfalso
    rcases List.mem_cons.1 ha with rfl | ha
    · -- the callee is made of new nodes alone
      rw [bears_single hcallee rfl] at hbears
      rcases hbears with ⟨-, ⟨⟩, -⟩ | hbears
      · exact Nat.not_lt_of_le ho.1 hlt
      · exact not_bears_of_leaf ho rfl hbears
    · exact hargs a ha i j hbears

/-- The condition of a deprecation bears the test, if there is one. -/
theorem IsCondition.bears {test : Option Ref} (h : f.IsCondition g test r)
    (htest : ∀ t, test = some t → ∃ k, t = some k ∧ k < f.size) :
    ∃ p t, f.Added g p (.parenthesized t) ∧
      ∀ i j, f.Bears g r i j → j = p ∧ t = some i ∧ test = some t := by
  obtain ⟨t, ⟨p, u, rfl, hp, hu⟩, ht⟩ := h
  refine ⟨p, t, hp, fun i j hbears => ?_⟩
  rw [bears_single hu rfl, bears_single hp rfl] at hbears
  rcases hbears with ⟨-, ⟨⟩, hlt⟩ | ⟨hj, rfl, hlt⟩ | hbears
  · exact absurd hlt (Nat.not_lt_of_le hp.1)
  · rcases ht with ht | ⟨-, l, ⟨⟩, hl⟩
    · exact ⟨hj, rfl, ht⟩
    · exact absurd hlt (Nat.not_lt_of_le hl.1)
  · rcases ht with ht | ⟨-, l, rfl, hl⟩
    · obtain ⟨k, rfl, hk⟩ := htest t ht
      exact absurd hbears (not_bears_of_lt hk)
    · exact absurd hbears (not_bears_of_leaf hl rfl)

/-- A chain bears what its conditions bear. -/
theorem IsConjunction.bears {first : Ref} (h : f.IsConjunction g first conditions r)
    (hfirst : ∃ k, first = some k ∧ f.size ≤ k)
    (hconditions : ∀ c ∈ conditions, ∃ k, c = some k ∧ f.size ≤ k) :
    (∃ k, r = some k ∧ f.size ≤ k) ∧
      ∀ i j, f.Bears g r i j → f.Bears g first i j ∨ ∃ c ∈ conditions, f.Bears g c i j := by
  induction conditions generalizing first with
  | nil =>
    cases (h : r = first)
    exact ⟨hfirst, fun i j hbears => .inl hbears⟩
  | cons c cs ih =>
    obtain ⟨k, hk, hrest⟩ := h
    obtain ⟨hr, hbears⟩ := ih hrest ⟨k, rfl, hk.1⟩ fun c hc => hconditions c (.tail _ hc)
    obtain ⟨a, rfl, ha⟩ := hfirst
    obtain ⟨b, rfl, hb⟩ := hconditions c List.mem_cons_self
    refine ⟨hr, fun i j hij => ?_⟩
    rcases hbears i j hij with hij | ⟨c', hc', hij⟩
    · rw [bears_iff hk] at hij
      simp only [Node.children, List.mem_cons, List.not_mem_nil, or_false, exists_eq_or_imp,
        exists_eq_left, Option.some.injEq] at hij
      rcases hij with ⟨-, rfl | rfl, hlt⟩ | hij | hij
      · exact absurd hlt (Nat.not_lt_of_le ha)
      · exact absurd hlt (Nat.not_lt_of_le hb)
      · exact .inl hij
      · exact .inr ⟨_, List.mem_cons_self, hij⟩
    · exact .inr ⟨c', .tail _ hc', hij⟩

/-- A rendered call is the old one, or it is new and bears arguments.  A deprecation that is printed
as a warning bears none. -/
theorem Renders.bears (h : f.Renders g style helper call args r)
    (hargs : ∀ a ∈ args, ∃ k, a = some k ∧ k < f.size) (honce : ∀ i, args.count (some i) ≤ 1) :
    (r = some call ∧ style.isExternal = true ∧ style.global = none) ∨
      ((∃ k, r = some k ∧ f.size ≤ k) ∧ ¬(style.isExternal = true ∧ style.global = none) ∧
        (∃ o, f.BearsIn g args r o) ∧
        (helper = .deprecate → style.isExternal = false → ∀ i j, ¬f.Bears g r i j)) := by
  have hold : ∀ a ∈ args, ∀ i j, ¬f.Bears g a i j := by
    intro a ha i j
    obtain ⟨k, rfl, hk⟩ := hargs a ha
    exact not_bears_of_lt hk
  unfold Renders at h
  cases hext : style.isExternal with
  | true =>
    rw [if_pos hext] at h
    cases hglobal : style.global with
    | none =>
      rw [hglobal] at h
      exact .inl ⟨h, rfl, rfl⟩
    | some object =>
      rw [hglobal] at h
      obtain ⟨o, rfl, ho, hbears⟩ := IsMethodCall.bears h hold honce
      exact .inr ⟨⟨o, rfl, ho⟩, by simp, ⟨o, hbears⟩, nofun⟩
  | false =>
    rw [if_neg (by simp [hext])] at h
    cases helper with
    | «deprecate» =>
      obtain ⟨_, _, _, text, _, _, _, htext, hcall⟩ := h
      obtain ⟨o, rfl, ho, hbears⟩ := hcall.bears
        (fun a ha i j => List.mem_singleton.1 ha ▸ not_bears_of_leaf htext rfl)
        fun _ => List.count_le_length
      -- all that it could bear is the text, which is new
      have hnone : ∀ i j, ¬f.Bears g (some o) i j := by
        intro i j hij
        obtain ⟨-, hi, -⟩ := hbears i j hij
        obtain rfl : i = text := by simpa using hi
        exact Nat.not_lt_of_le htext.1 hij.lt_size
      exact .inr ⟨⟨o, rfl, ho⟩, by simp, ⟨o, fun i j hij => absurd hij (hnone i j)⟩,
        fun _ _ => hnone⟩
    | runInDebug =>
      obtain ⟨callback, grouped, k, hcallback, rfl, hgrouped, hk⟩ := h
      have hmem : callback ∈ args := List.mem_of_mem_head? hcallback
      refine .inr ⟨⟨k, rfl, hk.1⟩, by simp, ⟨grouped, fun i j hij => ?_⟩, nofun⟩
      rw [bears_single hk rfl, bears_single hgrouped rfl] at hij
      rcases hij with ⟨-, ⟨⟩, hlt⟩ | ⟨rfl, rfl, -⟩ | hij
      · exact absurd hlt (Nat.not_lt_of_le hgrouped.1)
      · refine ⟨rfl, hmem, ?_⟩
        rw [count_childrenOf hgrouped.2]
        exact List.count_singleton_self
      · exact absurd hij (hold callback hmem i j)
    | assert | warn | log =>
      obtain ⟨o, rfl, ho, hbears⟩ := IsMethodCall.bears h hold honce
      exact .inr ⟨⟨o, rfl, ho⟩, by simp, ⟨o, hbears⟩, nofun⟩

/-- The condition of a deprecation bears its test, and other helpers have no conditions. -/
theorem Conditions.bears (h : f.Conditions g helper args conditions)
    (hargs : ∀ a ∈ args, ∃ k, a = some k ∧ k < f.size) :
    (∀ c ∈ conditions, ∃ k, c = some k ∧ f.size ≤ k) ∧
      ∃ p, ∀ c ∈ conditions, ∀ i j, f.Bears g c i j → j = p ∧ helper = .deprecate ∧
        args[1]? = some (some i) ∧ (g.childrenOf (some j)).count i = 1 := by
  unfold Conditions at h
  split at h
  next hdep =>
    obtain ⟨r, rfl, hr⟩ := h
    obtain ⟨p, t, hp, hbears⟩ := hr.bears fun t ht => hargs t (List.mem_of_getElem? ht)
    refine ⟨fun c hc => ?_, p, fun c hc i j hij => ?_⟩
    · obtain rfl := List.mem_singleton.1 hc
      obtain ⟨_, ⟨_, u, rfl, _, hu⟩, _⟩ := hr
      exact ⟨u, rfl, hu.1⟩
    · obtain rfl := List.mem_singleton.1 hc
      obtain ⟨rfl, rfl, htest⟩ := hbears i j hij
      refine ⟨rfl, hdep, htest, ?_⟩
      rw [count_childrenOf hp.2]
      exact List.count_singleton_self
  next => exact ⟨by simp [h], 0, by simp [h]⟩

/-! ### Guarded expressions -/

/-- The arguments of a call that stands in a statement of the script. -/
theorem Parsed.arguments (hp : f.Parsed root) (hc : f.node? (some call) = some (.call callee args)) :
    (∀ a ∈ args, ∃ k, a = some k ∧ k < f.size ∧ f.parentOf (some k) = some call) ∧
      ∀ i, args.count (some i) ≤ 1 := by
  refine ⟨fun a ha => ?_, fun i => ?_⟩
  · rcases hp.child hc a (by simp [Node.children, ha]) with ⟨-, h⟩ | ⟨k, m, rfl, -, hk, hm, -⟩
    · cases h
    · exact ⟨k, rfl, lt_size_of_node? hm, hk⟩
  · have hnodup := List.nodup_iff_count_le_one.1 (hp.nodup hc) i
    rw [count_filterMap_id] at hnodup
    exact Nat.le_trans (List.count_le_count_cons ..) hnodup

/-- What a guarded expression bears: the old call, if calls are kept, the test of a deprecation in
its condition, and arguments in the rendered call. -/
theorem GuardsCall.bears (h : f.GuardsCall g settings flag s id e) (hp : f.Parsed root) :
    ∃ helper call callee args all p o, f.helper? settings s = some helper ∧
      f.node? (some s) = some (.expressionStatement (some call)) ∧
      f.node? (some call) = some (.call callee args) ∧
      ∀ i j, f.Bears g (some e) i j → (g.childrenOf (some j)).count i = 1 ∧
        ((j = all ∧ i = call ∧ settings.KeepsCalls) ∨
        (j = p ∧ helper = .deprecate ∧ args[1]? = some (some i)) ∨
        (j = o ∧ some i ∈ args ∧ ¬settings.KeepsCalls ∧
          (helper = .deprecate → settings.helpers.isExternal = true))) := by
  obtain ⟨helper, call, callee, args, rendered, conditions, hhelper, hs, hc, hrender, hcond, left,
    all, hid, hleft, hall, he⟩ := h
  obtain ⟨hargs, honce⟩ := hp.arguments hc
  have hold : ∀ a ∈ args, ∃ k, a = some k ∧ k < f.size := fun a ha =>
    have ⟨k, hk, hlt, _⟩ := hargs a ha
    ⟨k, hk, hlt⟩
  obtain ⟨hnew, p, hp'⟩ := hcond.bears hold
  obtain ⟨⟨l, rfl, hl⟩, hleft'⟩ := hleft.bears ⟨id, rfl, hid.1⟩ hnew
  have hrendered := hrender.bears hold honce
  obtain ⟨o, ho⟩ : ∃ o, ∀ i j, f.Bears g rendered i j → j = o ∧ some i ∈ args ∧
      (g.childrenOf (some j)).count i = 1 ∧ ¬settings.KeepsCalls ∧
      (helper = .deprecate → settings.helpers.isExternal = true) := by
    rcases hrendered with ⟨rfl, -⟩ | ⟨-, hkeeps, ⟨o, ho⟩, hdep⟩
    · exact ⟨0, fun i j hij => absurd hij (not_bears_of_lt (lt_size_of_node? hc))⟩
    · refine ⟨o, fun i j hij => ?_⟩
      obtain ⟨hj, hi, hcount⟩ := ho i j hij
      refine ⟨hj, hi, hcount, hkeeps, fun hd => ?_⟩
      by_contra hext
      exact hdep hd (by simpa using hext) i j hij
  refine ⟨helper, call, callee, args, all, p, o, hhelper, hs, hc, fun i j hij => ?_⟩
  have hlt := hij.lt_size
  rw [bears_single he rfl, bears_iff hall] at hij
  simp only [Node.children, List.mem_cons, List.not_mem_nil, or_false, exists_eq_or_imp,
    exists_eq_left] at hij
  rcases hij with ⟨-, ⟨⟩, -⟩ | ⟨rfl, hi, -⟩ | hij | hij
  · exact absurd hlt (Nat.not_lt_of_le hall.1)
  · -- only a kept call is no new node
    have hne : some i ≠ some l := by
      rintro ⟨⟩
      exact Nat.not_lt_of_le hl hlt
    obtain rfl := hi.resolve_left hne
    rcases hrendered with ⟨⟨⟩, hkeeps⟩ | ⟨⟨k, ⟨⟩, hk⟩, -⟩
    · refine ⟨?_, .inl ⟨rfl, rfl, hkeeps⟩⟩
      rw [count_childrenOf hall.2]
      simp [Node.children, hne.symm]
    · exact absurd hlt (Nat.not_lt_of_le hk)
  · rcases hleft' i j hij with hij | ⟨c, hc', hij⟩
    · exact absurd hij (not_bears_of_leaf hid rfl)
    · obtain ⟨hj, hdep, htest, hcount⟩ := hp' c hc' i j hij
      exact ⟨hcount, .inr (.inl ⟨hj, hdep, htest⟩)⟩
  · obtain ⟨hj, hi, hcount, hkeeps, hdep⟩ := ho i j hij
    exact ⟨hcount, .inr (.inr ⟨hj, hi, hkeeps, hdep⟩)⟩

/-- The test of a deprecation that is rendered as a call of the helper itself. -/
def Shared (f : Forest) (settings : Settings) (i : Nat) : Prop :=
  settings.helpers.isExternal = true ∧ ∃ s call callee args,
    f.helper? settings s = some .deprecate ∧
    f.node? (some s) = some (.expressionStatement (some call)) ∧
    f.node? (some call) = some (.call callee args) ∧ args[1]? = some (some i)

/-- What is borne twice is a shared test. -/
theorem GuardsCall.eq_or_shared (h : f.GuardsCall g settings flag s id e) (hp : f.Parsed root)
    (hij : f.Bears g (some e) i j) (hik : f.Bears g (some e) i k) :
    j = k ∨ f.Shared settings i := by
  obtain ⟨helper, call, callee, args, all, p, o, hhelper, hs, hc, hbears⟩ := h.bears hp
  have hne : some call ∉ args := fun hmem =>
    Nat.lt_irrefl _ (hp.of_mem_children hc (by simp [Node.children, hmem])).1
  have hshared (hd : helper = .deprecate) (ht : args[1]? = some (some i))
      (hext : helper = .deprecate → settings.helpers.isExternal = true) : f.Shared settings i :=
    ⟨hext hd, s, call, callee, args, hd ▸ hhelper, hs, hc, ht⟩
  obtain ⟨-, hj⟩ := hbears i j hij
  obtain ⟨-, hk⟩ := hbears i k hik
  -- The call is no argument, so of two places one is the condition and the other the new call.
  rcases hj with ⟨rfl, rfl, hkeeps⟩ | ⟨rfl, hd, ht⟩ | ⟨rfl, hi, hkeeps, hext⟩ <;>
    rcases hk with ⟨rfl, hi', hkeeps'⟩ | ⟨rfl, hd', ht'⟩ | ⟨rfl, hi', hkeeps', hext'⟩
  · exact .inl rfl
  · exact absurd (List.mem_of_getElem? ht') hne
  · exact absurd hi' hne
  · exact absurd (List.mem_of_getElem? ht) (hi' ▸ hne)
  · exact .inl rfl
  · exact .inr (hshared hd ht hext')
  · exact absurd hi (hi' ▸ hne)
  · exact .inr (hshared hd' ht' hext)
  · exact .inl rfl

/-- If calls are kept, an argument that is borne apart from its call is a shared test. -/
theorem GuardsCall.shared_of_kept (h : f.GuardsCall g settings flag s id e) (hp : f.Parsed root)
    (hij : f.Bears g (some e) i j) (hkeeps : settings.KeepsCalls)
    (hi : f.parentOf (some i) ≠ some s) : f.Shared settings i := by
  obtain ⟨helper, call, callee, args, all, p, o, hhelper, hs, hc, hbears⟩ := h.bears hp
  obtain ⟨-, ⟨-, rfl, -⟩ | ⟨-, hd, ht⟩ | ⟨-, -, hkeeps', -⟩⟩ := hbears i j hij
  · exact absurd (hp.of_mem_children hs (by simp [Node.children])).2.1 hi
  · exact ⟨hkeeps.1, s, call, callee, args, hd ▸ hhelper, hs, hc, ht⟩
  · exact absurd hkeeps hkeeps'

/-- A shared test is held by the condition and by the call. -/
theorem GuardsCall.shares (h : f.GuardsCall g settings flag s id e)
    (hext : settings.helpers.isExternal = true) (hhelper : f.helper? settings s = some .deprecate)
    (hs : f.node? (some s) = some (.expressionStatement (some call)))
    (hc : f.node? (some call) = some (.call callee args)) (htest : args[1]? = some (some i))
    (hgc : g.node? (some call) = some (.call callee args)) :
    ∃ j k, j ≠ k ∧ g.Reaches e j ∧ g.Reaches e k ∧ i ∈ g.childrenOf (some j) ∧
      i ∈ g.childrenOf (some k) := by
  obtain ⟨helper, call', callee', args', rendered, conditions, hhelper', hs', hc', hrender, hcond,
    left, all, hid, hleft, hall, he⟩ := h
  obtain rfl : helper = .deprecate := Option.some.inj (hhelper'.symm.trans hhelper)
  obtain rfl : call' = call := by simpa using hs'.symm.trans hs
  obtain ⟨rfl, rfl⟩ : callee' = callee ∧ args' = args := by simpa using hc'.symm.trans hc
  have hmem : some i ∈ args' := List.mem_of_getElem? htest
  have hreach : g.Reaches e all := Reaches.refl.tail
    (mem_childrenOf.2 ⟨_, he.2, List.mem_singleton_self _⟩)
  -- the condition
  rw [Conditions, if_pos rfl] at hcond
  obtain ⟨r, rfl, t, ⟨p, u, rfl, hp, hu⟩, ht⟩ := hcond
  obtain ⟨l, hl, rfl⟩ := hleft
  obtain rfl : t = some i := by
    rcases ht with ht | ⟨ht, -⟩
    · exact Option.some.inj (ht.symm.trans htest)
    · cases ht.symm.trans htest
  have hcondition : g.Reaches e p :=
    ((hreach.tail (mem_childrenOf.2 ⟨_, hall.2, by simp [Node.children]⟩)).tail
      (mem_childrenOf.2 ⟨_, hl.2, by simp [Node.children]⟩)).tail
      (mem_childrenOf.2 ⟨_, hu.2, List.mem_singleton_self _⟩)
  have hheld : i ∈ g.childrenOf (some p) := mem_childrenOf.2 ⟨_, hp.2, List.mem_singleton_self _⟩
  -- the call
  have hrendered : ∃ k callee, rendered = some k ∧
      g.node? (some k) = some (.call callee args') := by
    rw [Renders, if_pos hext] at hrender
    cases hglobal : settings.helpers.global with
    | none =>
      rw [hglobal] at hrender
      exact ⟨_, _, hrender, hgc⟩
    | some object =>
      rw [hglobal] at hrender
      obtain ⟨-, callee, k, rfl, -, -, hk⟩ := hrender
      exact ⟨k, _, rfl, hk.2⟩
  obtain ⟨k, callee, rfl, hk⟩ := hrendered
  refine ⟨p, k, ?_, hcondition, hreach.tail
    (mem_childrenOf.2 ⟨_, hall.2, by simp [Node.children]⟩), hheld,
    mem_childrenOf.2 ⟨_, hk, by simp [Node.children, hmem]⟩⟩
  rintro rfl
  cases hk.symm.trans hp.2

end DebugGuard.Forest
