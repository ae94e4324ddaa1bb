import DebugGuard.Proofs.Forest.Rooted
import DebugGuard.Proofs.Forest.WellFormed
import DebugGuard.Proofs.Scope.Lookup

/-!
# Where a variable is bound

A variable that is declared with `var` belongs to the body of the innermost function around it, or
to the script (`Forest.home`), however deep its declaration stands.  A list of statements binds in
addition what is declared in it.

Two searches find such a variable.  The one for declarations goes over the statements of a list; the
one for what is hoisted goes down from these statements and stops at functions and exports.  They
never find the same declarator in the same list, and what the second one finds is described from
below: `Forest.Rises f i s` says that the parent links lead from `i` up to `s` without leaving a
function.

Main statement: `var_bindings`.
-/

namespace DebugGuard

namespace Node

variable {α : Type}

/-- The body of a function. -/
def functionBody? : Node α → Option α
  | .functionDeclaration _ _ body | .functionExpression _ _ body | .arrow _ body => some body
  | _ => none

theorem functionBody?_of_isFunction {n : Node α} {a : α} (h : n.isFunction = true)
    (ha : a ∈ n.children) : n.functionBody? = some a := by
  cases n <;> first | cases h; done | skip
  all_goals
    rw [List.mem_singleton.1 ha]
    rfl

/-- What a function takes for its body is a block, unless nothing can be hoisted from it. -/
theorem isList_of_takes {n m : Node α} (h : n.takes m = true) (hn : n.isFunction = true)
    (hm : m.mayHoist = true) (hfun : m.isFunction = false) : m.isList = true := by
  cases n <;> first | cases hn; done | skip
  all_goals
    cases m <;> first | rfl | cases h; done | cases hm; done | cases hfun

end Node

namespace Forest

/-- The scope of what is declared with `var` at the node `i` of the script `root`: the body of the
innermost function above, or else the script. -/
def home (f : Forest) (root i : Nat) : Ref :=
  match (f.ancestors (some i)).find? fun p => f.nodeIs Node.isFunction (some p) with
  | some p => ((f.node? (some p)).bind Node.functionBody?).join
  | none => some root

/-- The statement list of `s` holds the statement `i`, as it is or exported. -/
def Lists (f : Forest) (s i : Nat) : Prop :=
  ∃ body, f.statements? (some s) = some body ∧ (some i ∈ body ∨
    ∃ e, some e ∈ body ∧ f.node? (some e) = some (.exportDeclaration (some i)))

/-- The statement `i` declares the variable `name` with `var`, by the declarator `d`. -/
def DeclaresVar (f : Forest) (i d : Nat) (name : String) : Prop :=
  ∃ declarators init, f.node? (some i) = some (.varDeclaration .var declarators) ∧
    some d ∈ declarators ∧ f.node? (some d) = some (.declarator name init)

/-- The parent links lead from `i` up to `s` without leaving a function. -/
def Rises (f : Forest) (i s : Nat) : Prop :=
  Relation.ReflTransGen
    (fun c p => f.nodeIs Node.isFunction (some c) = false ∧ f.parentOf (some c) = some p) i s

variable {f : Forest} {root i d s c p : Nat} {name : String} {b : Binding} {n : Node Ref}

/-! ### Lists without repetitions -/

/-- Where all items but one give nothing, the whole list gives what that one gives. -/
theorem flatMap_eq_of_unique {α β : Type} {l : List α} {a : α} {F : α → List β} (hl : l.Nodup)
    (ha : a ∈ l) (h : ∀ c ∈ l, c ≠ a → F c = []) : l.flatMap F = F a := by
  obtain ⟨front, back, rfl⟩ := List.append_of_mem ha
  obtain ⟨hmem, -⟩ := List.nodup_cons.1 (List.nodup_middle.1 hl)
  rw [List.mem_append, not_or] at hmem
  have hnil : front.flatMap F = [] := List.flatMap_eq_nil_iff.2 fun c hc =>
    h c (List.mem_append_left _ hc) fun hca => hmem.1 (hca ▸ hc)
  have hnil' : back.flatMap F = [] := List.flatMap_eq_nil_iff.2 fun c hc =>
    h c (List.mem_append_right _ (List.mem_cons_of_mem _ hc)) fun hca => hmem.2 (hca ▸ hc)
  rw [List.flatMap_append, List.flatMap_cons, hnil, hnil', List.nil_append, List.append_nil]

/-- Nothing in the list is declared at `d`. -/
theorem filter_declaration_eq_nil {l : List Binding} :
    l.filter (·.declaration == d) = [] ↔ ∀ b ∈ l, b.declaration ≠ d := by
  rw [List.filter_eq_nil_iff]
  exact forall₂_congr fun b _ => not_congr beq_iff_eq

/-! ### Rising -/

theorem Rises.leads (h : f.Rises i s) : f.Leads i s :=
  Relation.ReflTransGen.mono (fun _ _ hab => hab.2) _ _ h

theorem Rises.le (hp : f.Parsed root) (h : f.Rises i s) : i ≤ s := by
  induction h with
  | refl => exact Nat.le_refl i
  | tail _ hstep ih =>
    have := hp.lt_of_parentOf hstep.2
    omega

/-- Parent links do not branch, so of two nodes that `i` rises to one rises to the other. -/
theorem Rises.total (h : f.Rises i s) (h' : f.Rises i p) : f.Rises s p ∨ f.Rises p s :=
  Relation.ReflTransGen.total_of_right_unique
    (fun _ _ _ ha hb => Option.some.inj (ha.2.symm.trans hb.2)) h h'

/-- A list that takes what is hoisted is the last one on a way that leaves no function. -/
theorem Rises.eq_of_takesHoisted (hp : f.Parsed root) (h : f.Rises s p)
    (hs : f.takesHoisted (some s) = true) (hfun : f.nodeIs Node.isFunction (some p) = false) :
    p = s := by
  rcases Relation.ReflTransGen.cases_head h with rfl | ⟨q, ⟨-, hsq⟩, hqp⟩
  · rfl
  -- the step from `s` would lead to the function around it
  have hq : f.nodeIs Node.isFunction (some q) = true := by
    rw [takesHoisted, hsq, Bool.or_eq_true] at hs
    refine hs.resolve_left fun hprogram => ?_
    obtain ⟨m, hm, hm'⟩ : ∃ m, f.node? (some s) = some m ∧ m.isProgram = true := by
      obtain ⟨m, hm, hm'⟩ := (Option.any_eq_true _ _).1 hprogram
      exact ⟨m, hm, by cases m <;> first | rfl | cases hm'⟩
    by_cases hroot : s = root
    · rw [hroot, hp.top] at hsq
      cases hsq
    · rw [hp.isProgram_eq_false hm hroot] at hm'
      cases hm'
  rcases Relation.ReflTransGen.cases_head hqp with rfl | ⟨q', ⟨hq', -⟩, -⟩
  · rw [hq] at hfun
    cases hfun
  · rw [hq] at hq'
    cases hq'

/-- Above a declaration of variables, only nodes from which something can be hoisted are passed
before the next function. -/
theorem Rises.mayHoist (hp : f.Parsed root) (h : f.Rises i s) (hi : f.node? (some i) = some n)
    (hn : n.isVar = true) : s = i ∨ ∃ m, f.node? (some s) = some m ∧ m.mayHoist = true := by
  induction h with
  | refl => exact .inl rfl
  | @tail c p _ hstep ih =>
    obtain ⟨m, hm, hmem⟩ := hp.of_parentOf hstep.2
    obtain ⟨-, -, k, hk, htakes⟩ := hp.of_mem_children hm hmem
    refine .inr ⟨m, hm, ?_⟩
    by_contra hno
    -- such a node takes no child with a declaration of variables in it
    have hno := Bool.eq_false_of_not_eq_true hno
    have hfun : k.isFunction = false := by simpa [nodeIs, hk] using hstep.1
    obtain ⟨hvar, hhoist⟩ := Node.not_mayHoist_of_takes htakes hno hfun
    rcases ih with rfl | ⟨k', hk', hk'hoist⟩
    · obtain rfl : n = k := Option.some.inj (hi.symm.trans hk)
      rw [hvar] at hn
      cases hn
    · obtain rfl : k' = k := Option.some.inj (hk'.symm.trans hk)
      rw [hhoist] at hk'hoist
      cases hk'hoist

/-- Of the children of one node, `i` rises to one at most. -/
theorem Rises.eq_of_parentOf (hp : f.Parsed root) (h : f.Rises i c) (h' : f.Rises i p)
    (hc : f.parentOf (some c) = some s) (hps : f.parentOf (some p) = some s) : c = p := by
  have key {a b : Nat} (hab : f.Rises a b) (ha : f.parentOf (some a) = some s)
      (hb : f.parentOf (some b) = some s) : a = b := by
    rcases Relation.ReflTransGen.cases_head hab with rfl | ⟨q, ⟨-, haq⟩, hqb⟩
    · rfl
    · obtain rfl : q = s := Option.some.inj (haq.symm.trans ha)
      have := hp.lt_of_parentOf hb
      have := Rises.le hp hqb
      omega
  rcases h.total h' with hcp | hpc
  · exact key hcp hc hps
  · exact (key hpc hps hc).symm

/-! ### The home of a variable -/

theorem DeclaresVar.parentOf (hp : f.Parsed root) (h : f.DeclaresVar i d name) :
    f.parentOf (some d) = some i := by
  obtain ⟨ds, init, hi, hd, -⟩ := h
  exact (hp.of_mem_children hi hd).2.1

theorem DeclaresVar.isFunction_eq_false (h : f.DeclaresVar i d name) :
    f.nodeIs Node.isFunction (some d) = false ∧ f.nodeIs Node.isFunction (some i) = false := by
  obtain ⟨ds, init, hi, -, hd⟩ := h
  rw [nodeIs, nodeIs, hi, hd]
  exact ⟨rfl, rfl⟩

theorem rises_of_find? {l : List Nat} (h : f.Way (some i) l)
    (hp : l.find? (fun p => f.nodeIs Node.isFunction (some p)) = some p) : f.Rises i p := by
  induction l generalizing i with
  | nil => cases hp
  | cons k l ih =>
    cases h with
    | up h =>
      rw [List.find?_cons] at hp
      split at hp
      · cases hp
        exact .refl
      · next hk =>
        cases hq : f.parentOf (some k) with
        | none =>
          rw [hq] at h
          cases h
          cases hp
        | some q =>
          rw [hq] at h
          exact .head ⟨hk, hq⟩ (ih h hp)

theorem Leads.rises {l : List Nat} (h : f.Leads i s) (hl : f.Way (some i) l)
    (hno : ∀ j ∈ l, f.nodeIs Node.isFunction (some j) = false) : f.Rises i s := by
  induction h using Relation.ReflTransGen.head_induction_on generalizing l with
  | refl => exact .refl
  | @head i q hiq _ ih =>
    cases hl with
    | up hl =>
      rw [hiq] at hl
      exact .head ⟨hno i List.mem_cons_self, hiq⟩
        (ih hl fun j hj => hno j (List.mem_cons_of_mem _ hj))

/-- Where a declarator rises, its declaration does. -/
theorem DeclaresVar.rises (hp : f.Parsed root) (h : f.DeclaresVar i d name) (hs : f.Rises d s)
    (hne : s ≠ d) : f.Rises i s := by
  rcases Relation.ReflTransGen.cases_head hs with rfl | ⟨q, ⟨-, hq⟩, hqs⟩
  · exact absurd rfl hne
  · obtain rfl : q = i := Option.some.inj (hq.symm.trans (h.parentOf hp))
    exact hqs

/-- The last node on the way up to a function is its body, which is a block if a variable is declared
below. -/
theorem DeclaresVar.exists_body (hp : f.Parsed root) (h : f.DeclaresVar i d name) {g : Nat}
    (hdg : f.Rises d g) (hg : f.nodeIs Node.isFunction (some g) = true) :
    ∃ n s, f.node? (some g) = some n ∧ n.functionBody? = some (some s) ∧ f.Rises i s ∧
      f.takesHoisted (some s) = true ∧ f.nodeIs Node.isList (some s) = true := by
  obtain ⟨n, hn, hfun⟩ := (Option.any_eq_true _ _).1 hg
  have hgd : g ≠ d := by
    rintro rfl
    rw [h.isFunction_eq_false.1] at hg
    cases hg
  rcases Relation.ReflTransGen.cases_tail hdg with heq | ⟨s, hs, hsfun, hsg⟩
  · exact absurd heq hgd
  obtain ⟨n', hn', hmem⟩ := hp.of_parentOf hsg
  obtain rfl : n = n' := Option.some.inj (hn.symm.trans hn')
  obtain ⟨-, -, m, hm, htakes⟩ := hp.of_mem_children hn hmem
  have hne : s ≠ d := by
    rintro rfl
    obtain rfl : g = i := Option.some.inj (hsg.symm.trans (h.parentOf hp))
    rw [h.isFunction_eq_false.2] at hg
    cases hg
  have hs := h.rises hp hs hne
  refine ⟨n, s, hn, Node.functionBody?_of_isFunction hfun hmem, hs, ?_, ?_⟩
  · rw [takesHoisted, hsg, hg, Bool.or_true]
  · have hmfun : m.isFunction = false := by simpa [nodeIs, hm] using hsfun
    obtain ⟨ds, init, hi, -, -⟩ := h
    rw [nodeIs, hm, Option.any_some]
    refine Node.isList_of_takes htakes hfun ?_ hmfun
    rcases hs.mayHoist hp hi rfl with rfl | ⟨m', hm', hhoist⟩
    · -- the body of a function is no declaration
      obtain rfl := Option.some.inj (hm.symm.trans hi)
      cases n <;> first | cases htakes; done | cases hfun
    · obtain rfl := Option.some.inj (hm.symm.trans hm')
      exact hhoist

/-- The home of a variable is a list that takes what is hoisted, and its declaration rises to it. -/
theorem DeclaresVar.exists_home (hp : f.Parsed root) (h : f.DeclaresVar i d name) :
    ∃ s, f.home root d = some s ∧ f.Rises i s ∧ f.takesHoisted (some s) = true ∧
      f.nodeIs Node.isList (some s) = true := by
  have hparent := h.parentOf hp
  have hsize : d < f.size := lt_size_of_parentOf hparent
  obtain ⟨l, hl⟩ := (hp.leads_root hsize).exists_way hp.top
  rw [home, ancestors_of_way hl]
  cases hfind : l.find? fun p => f.nodeIs Node.isFunction (some p) with
  | none =>
    have hno : ∀ j ∈ l, f.nodeIs Node.isFunction (some j) = false := fun j hj =>
      Bool.eq_false_of_not_eq_true (List.find?_eq_none.1 hfind j hj)
    -- without a function above, the way leads up to the script
    have hne : root ≠ d := by
      rintro rfl
      rw [hp.top] at hparent
      cases hparent
    obtain ⟨body, hbody⟩ := hp.script
    refine ⟨root, rfl, h.rises hp ((hp.leads_root hsize).rises hl hno) hne, ?_, ?_⟩
    · rw [takesHoisted, nodeIs, hbody]
      rfl
    · rw [nodeIs, hbody]
      rfl
  | some g =>
    have hg : f.nodeIs Node.isFunction (some g) = true := by
      have := List.find?_some hfind
      exact this
    obtain ⟨n, s, hn, hbody, hs⟩ := h.exists_body hp (rises_of_find? hl hfind) hg
    refine ⟨s, ?_, hs⟩
    simp only [hn, Option.bind_some, hbody, Option.join_some]

/-! ### What the statements of a list declare -/

/-- Only the declaration of a variable refers to its declarator. -/
theorem DeclaresVar.owner_eq (hp : f.Parsed root) (h : f.DeclaresVar i d name) (hb : f.Declares b)
    (hbd : b.declaration = d) : b.owner = i := by
  have hparent := h.parentOf hp
  obtain ⟨ds, init, -, -, hd⟩ := h
  cases hb with
  | specifier hj hs | var hj hs =>
    obtain rfl := hbd
    exact Option.some.inj ((hp.of_mem_children hj hs).2.1.symm.trans hparent)
  | function hj | self hj =>
    obtain rfl := hbd
    cases hj.symm.trans hd
  | parameter hj hn =>
    obtain rfl := hbd
    obtain rfl := Option.some.inj (hj.symm.trans hd)
    cases hn

theorem DeclaresVar.exported_of_mem (hp : f.Parsed root) (h : f.DeclaresVar i d name)
    (hb : b ∈ f.declaredBy s) (hbd : b.declaration = d) : f.exported s = i := by
  rw [declaredBy_eq hp.kinded] at hb
  obtain ⟨hdecl, howner⟩ := mem_declaredUpTo_zero hb
  rw [← howner]
  exact h.owner_eq hp hdecl hbd

/-- A declaration of variables that declares this one is the one at `i`. -/
theorem DeclaresVar.eq_of_mem (hp : f.Parsed root) (h : f.DeclaresVar i d name)
    {keyword : VarKeyword} {ds : List Ref}
    (hs : f.node? (some s) = some (.varDeclaration keyword ds)) (hb : b ∈ f.declaredBy s)
    (hbd : b.declaration = d) : s = i := by
  have hsi := h.exported_of_mem hp hb hbd
  rwa [exported, hs] at hsi

/-- The statement of a variable declares it once. -/
theorem DeclaresVar.filter_declaredBy (hp : f.Parsed root) (h : f.DeclaresVar i d name)
    (hs : f.exported s = i) :
    (f.declaredBy s).filter (·.declaration == d) = [⟨name, .varVariable, d, i⟩] := by
  obtain ⟨ds, init, hi, hd, hname⟩ := h
  rw [declaredBy_eq hp.kinded, hs, declaredUpTo, hi]
  dsimp only
  have hnodup : (ds.filterMap id).Nodup := hp.nodup hi
  rw [List.filterMap_eq_flatMap_toList, List.filter_flatMap,
    flatMap_eq_of_unique hnodup (List.mem_filterMap.2 ⟨_, hd, rfl⟩)]
  · rw [hname]
    simp [BindingKind.ofKeyword]
  · intro k _ hk
    split
    · simp [hk]
    · rfl

/-- An exported declaration stands below its export. -/
theorem eq_or_isExport_of_exported (hp : f.Parsed root) (h : f.exported s = i) :
    s = i ∨ f.nodeIs Node.isExport (some s) = true ∧ f.parentOf (some i) = some s := by
  unfold exported at h
  split at h
  · next k hk =>
    obtain rfl := h
    exact .inr ⟨by rw [nodeIs, hk]; rfl, (hp.of_mem_children hk (by simp [Node.children])).2.1⟩
  · exact .inl h

theorem DeclaresVar.rises_exported (hp : f.Parsed root) (h : f.DeclaresVar i d name)
    (hs : f.exported s = i) : f.Rises i s := by
  rcases eq_or_isExport_of_exported hp hs with rfl | ⟨-, his⟩
  · exact .refl
  · exact .single ⟨h.isFunction_eq_false.2, his⟩

theorem DeclaresVar.lists_iff (h : f.DeclaresVar i d name) : f.Lists s i ↔
    ∃ body, f.statements? (some s) = some body ∧ ∃ j, some j ∈ body ∧ f.exported j = i := by
  obtain ⟨ds, init, hi, -, -⟩ := h
  constructor
  · rintro ⟨body, hbody, hmem | ⟨e, hmem, he⟩⟩
    · exact ⟨body, hbody, i, hmem, by rw [exported, hi]⟩
    · exact ⟨body, hbody, e, hmem, by rw [exported, he]⟩
  · rintro ⟨body, hbody, j, hmem, hj⟩
    refine ⟨body, hbody, ?_⟩
    unfold exported at hj
    split at hj
    · next k hk => exact .inr ⟨j, hmem, hj ▸ hk⟩
    · exact .inl (hj ▸ hmem)

/-- The statements of a list are its children. -/
theorem parentOf_of_statements? (hp : f.Parsed root) {body : List Ref}
    (hbody : f.statements? (some s) = some body) (hc : some c ∈ body) :
    f.parentOf (some c) = some s := by
  obtain ⟨n, hn, hst⟩ := Option.bind_eq_some_iff.1 hbody
  exact (hp.of_mem_children hn ((children_of_statements? hst).1 ▸ hc)).2.1

theorem nodup_of_statements? (hp : f.Parsed root) {body : List Ref}
    (hbody : f.statements? (some s) = some body) : (body.filterMap id).Nodup := by
  obtain ⟨n, hn, hst⟩ := Option.bind_eq_some_iff.1 hbody
  rw [← (children_of_statements? hst).1]
  exact hp.nodup hn

theorem DeclaresVar.filter_declaredIn (hp : f.Parsed root) (h : f.DeclaresVar i d name)
    (hs : f.Lists s i) :
    (f.declaredIn s).filter (·.declaration == d) = [⟨name, .varVariable, d, i⟩] := by
  obtain ⟨body, hbody, j, hmem, hj⟩ := h.lists_iff.1 hs
  rw [declaredIn, hbody]
  dsimp only
  rw [List.filter_flatMap, flatMap_eq_of_unique (nodup_of_statements? hp hbody)
    (List.mem_filterMap.2 ⟨_, hmem, rfl⟩)]
  · exact h.filter_declaredBy hp hj
  · -- another statement would be a second child of the list that the declaration rises to
    intro k hk hne
    rw [filter_declaration_eq_nil]
    intro b hb hbd
    have hkbody : some k ∈ body := by simpa using hk
    have hik := h.rises_exported hp (h.exported_of_mem hp hb hbd)
    exact hne (hik.eq_of_parentOf hp (h.rises_exported hp hj)
      (parentOf_of_statements? hp hbody hkbody) (parentOf_of_statements? hp hbody hmem))

theorem isFunction_of_mem_functionBindings (h : b ∈ f.functionBindings s) :
    b.declaration = s ∧ f.nodeIs Node.isFunction (some s) = true := by
  unfold functionBindings at h
  rw [nodeIs]
  split at h
  next hn =>
    obtain ⟨x, -, rfl⟩ := List.mem_map.1 h
    exact ⟨rfl, by rw [hn]; rfl⟩
  next hn =>
    rcases List.mem_append.1 h with h | h
    all_goals
      obtain ⟨x, -, rfl⟩ := List.mem_map.1 h
      exact ⟨rfl, by rw [hn]; rfl⟩
  next hn =>
    obtain ⟨x, -, rfl⟩ := List.mem_map.1 h
    exact ⟨rfl, by rw [hn]; rfl⟩
  next => cases h

theorem DeclaresVar.lists_of_mem (hp : f.Parsed root) (h : f.DeclaresVar i d name)
    (hb : b ∈ f.declaredIn s) (hbd : b.declaration = d) : f.Lists s i := by
  unfold declaredIn at hb
  split at hb
  · obtain ⟨hdecl, hfun⟩ := isFunction_of_mem_functionBindings hb
    rw [← hdecl, hbd, h.isFunction_eq_false.1] at hfun
    cases hfun
  · next body hbody =>
    obtain ⟨j, hj, hb⟩ := List.mem_flatMap.1 hb
    exact h.lists_iff.2 ⟨body, hbody, j, by simpa using hj, h.exported_of_mem hp hb hbd⟩

/-! ### What is hoisted -/

theorem mem_hoistedVia {fuel : Nat} : b ∈ f.hoistedVia fuel c ↔
    f.nodeIs Node.isFunction (some c) = false ∧
      ((∃ ds, f.node? (some c) = some (.varDeclaration .var ds) ∧ b ∈ f.declaredBy c) ∨
        b ∈ f.hoistedUpTo fuel c) := by
  unfold hoistedVia
  split
  · next hfun => simp [hfun]
  · next hfun =>
    rw [List.mem_append]
    simp only [Bool.eq_false_of_not_eq_true hfun, true_and]
    refine or_congr_left ?_
    split
    · next ds hc => simp [hc]
    · next hc => simpa using fun ds hds => absurd hds (hc ds)

/-- What is hoisted through a node has risen to it. -/
theorem DeclaresVar.rises_of_mem (hp : f.Parsed root) (h : f.DeclaresVar i d name) {fuel : Nat}
    (hb : b ∈ f.hoistedVia fuel c) (hbd : b.declaration = d) :
    f.nodeIs Node.isFunction (some c) = false ∧ f.Rises i c := by
  induction fuel generalizing c with
  | zero =>
    obtain ⟨hfun, ⟨ds, hvar, hb⟩ | hb⟩ := mem_hoistedVia.1 hb
    · exact ⟨hfun, h.eq_of_mem hp hvar hb hbd ▸ .refl⟩
    · cases hb
  | succ fuel ih =>
    obtain ⟨hfun, ⟨ds, hvar, hb⟩ | hb⟩ := mem_hoistedVia.1 hb
    · exact ⟨hfun, h.eq_of_mem hp hvar hb hbd ▸ .refl⟩
    · rw [hoistedUpTo_succ] at hb
      obtain ⟨k, hk, hb⟩ := List.mem_flatMap.1 hb
      obtain ⟨hkfun, hik⟩ := ih hb
      exact ⟨hfun, hik.tail ⟨hkfun, (hp.wellFormed.linked k c).2 hk⟩⟩

theorem DeclaresVar.exists_rises (hp : f.Parsed root) (h : f.DeclaresVar i d name) {fuel : Nat}
    (hb : b ∈ f.hoistedUpTo fuel s) (hbd : b.declaration = d) :
    ∃ c, f.parentOf (some c) = some s ∧ f.nodeIs Node.isFunction (some c) = false ∧
      f.Rises i c := by
  cases fuel with
  | zero => cases hb
  | succ fuel =>
    rw [hoistedUpTo_succ] at hb
    obtain ⟨c, hc, hb⟩ := List.mem_flatMap.1 hb
    exact ⟨c, (hp.wellFormed.linked c s).2 hc, h.rises_of_mem hp hb hbd⟩

/-- What has risen to a child of a node is hoisted from the node once. -/
theorem DeclaresVar.filter_hoistedUpTo (hp : f.Parsed root) (h : f.DeclaresVar i d name)
    {fuel : Nat} (hc : f.parentOf (some c) = some s)
    (hfun : f.nodeIs Node.isFunction (some c) = false) (hi : f.Rises i c) (hs : s ≤ fuel) :
    (f.hoistedUpTo fuel s).filter (·.declaration == d) = [⟨name, .varVariable, d, i⟩] := by
  -- going down, the numbers of the nodes get smaller, so the fuel lasts
  induction fuel generalizing s c with
  | zero =>
    have := hp.lt_of_parentOf hc
    omega
  | succ fuel ih =>
    have hlt := hp.lt_of_parentOf hc
    rw [hoistedUpTo_succ, List.filter_flatMap, flatMap_eq_of_unique (hp.wellFormed.nodup s)
      ((hp.wellFormed.linked c s).1 hc)]
    · rw [hoistedVia, if_neg (by simp [hfun]), List.filter_append]
      rcases Relation.ReflTransGen.cases_tail hi with rfl | ⟨q, hq, hqfun, hqc⟩
      · -- the declaration itself; nothing that is below it rises to it from above
        have hnone : (f.hoistedUpTo fuel c).filter (·.declaration == d) = [] := by
          rw [filter_declaration_eq_nil]
          intro b hb hbd
          obtain ⟨k, hk, -, hik⟩ := h.exists_rises hp hb hbd
          have := hp.lt_of_parentOf hk
          have := hik.le hp
          omega
        obtain ⟨ds, init, hvar, -⟩ := id h
        rw [hnone, List.append_nil, hvar]
        exact h.filter_declaredBy hp (by rw [exported, hvar])
      · rw [ih hqc hqfun hq (by omega)]
        have hne : c ≠ i := by
          rintro rfl
          have := hp.lt_of_parentOf hqc
          have := Rises.le hp hq
          omega
        split
        · next ds hvar =>
          have hnone : (f.declaredBy c).filter (·.declaration == d) = [] := by
            rw [filter_declaration_eq_nil]
            exact fun b hb hbd => hne (h.eq_of_mem hp hvar hb hbd)
          rw [hnone, List.nil_append]
        · rfl
    · intro k hk hne
      rw [filter_declaration_eq_nil]
      intro b hb hbd
      obtain ⟨-, hik⟩ := h.rises_of_mem hp hb hbd
      exact hne (hik.eq_of_parentOf hp hi ((hp.wellFormed.linked k s).2 hk) hc)

theorem isFunction_eq_false_of_isList (h : f.nodeIs Node.isList (some s) = true) :
    f.nodeIs Node.isFunction (some s) = false := by
  obtain ⟨n, hn, hlist⟩ := (Option.any_eq_true _ _).1 h
  rw [nodeIs, hn]
  cases n <;> first | rfl | cases hlist

theorem isList_of_statements? {body : List Ref} (h : f.statements? (some s) = some body) :
    f.nodeIs Node.isList (some s) = true := by
  obtain ⟨n, hn, hst⟩ := Option.bind_eq_some_iff.1 h
  simp [nodeIs, hn, Node.isList, hst]

/-- The home of a variable is the only list that takes what is hoisted and that its declaration
rises to; everything else that it rises to before the next function lies below. -/
theorem DeclaresVar.rises_home (hp : f.Parsed root) (h : f.DeclaresVar i d name) {home : Nat}
    (hhome : f.home root d = some home) (hs : f.Rises i s) (hlist : f.nodeIs Node.isList (some s)) :
    f.Rises s home ∧ (f.takesHoisted (some s) = true → s = home) := by
  obtain ⟨home', heq, hi, htakes, hlist'⟩ := h.exists_home hp
  obtain rfl : home' = home := Option.some.inj (heq.symm.trans hhome)
  have hfun := isFunction_eq_false_of_isList hlist
  have hfun' := isFunction_eq_false_of_isList hlist'
  rcases hs.total hi with hup | hdown
  · exact ⟨hup, fun hs => (hup.eq_of_takesHoisted hp hs hfun').symm⟩
  · obtain rfl := hdown.eq_of_takesHoisted hp htakes hfun
    exact ⟨.refl, fun _ => rfl⟩

/-- A declaration rises to the list that holds it. -/
theorem DeclaresVar.rises_of_lists (hp : f.Parsed root) (h : f.DeclaresVar i d name)
    (hs : f.Lists s i) : f.Rises i s ∧ f.nodeIs Node.isList (some s) = true := by
  obtain ⟨body, hbody, hmem | ⟨e, hmem, he⟩⟩ := hs
  · exact ⟨.single ⟨h.isFunction_eq_false.2, parentOf_of_statements? hp hbody hmem⟩,
      isList_of_statements? hbody⟩
  · have hie : f.parentOf (some i) = some e :=
      (hp.of_mem_children he (by simp [Node.children])).2.1
    have hefun : f.nodeIs Node.isFunction (some e) = false := by
      rw [nodeIs, he]
      rfl
    exact ⟨.tail (.single ⟨h.isFunction_eq_false.2, hie⟩)
      ⟨hefun, parentOf_of_statements? hp hbody hmem⟩, isList_of_statements? hbody⟩

/-- A list that holds a declaration does not hold it below another statement as well. -/
theorem DeclaresVar.not_lists (hp : f.Parsed root) {j k : Nat} {body : List Ref}
    (h : f.DeclaresVar i d name) (hbody : f.statements? (some s) = some body) (hj : some j ∈ body)
    (hexport : f.nodeIs Node.isExport (some j) = false) (hk : f.parentOf (some k) = some j)
    (hkfun : f.nodeIs Node.isFunction (some k) = false) (hi : f.Rises i k) : ¬f.Lists s i := by
  intro hlists
  obtain ⟨body', hbody', l, hl, hli⟩ := h.lists_iff.1 hlists
  obtain rfl : body = body' := Option.some.inj (hbody.symm.trans hbody')
  have hij : f.Rises i j := hi.tail ⟨hkfun, hk⟩
  obtain rfl : l = j := (h.rises_exported hp hli).eq_of_parentOf hp hij
    (parentOf_of_statements? hp hbody hl) (parentOf_of_statements? hp hbody hj)
  rcases eq_or_isExport_of_exported hp hli with rfl | ⟨hisExport, -⟩
  · have := hp.lt_of_parentOf hk
    have := hi.le hp
    omega
  · rw [hexport] at hisExport
    cases hisExport

theorem DeclaresVar.of_mem_hoistedInto (hp : f.Parsed root) (h : f.DeclaresVar i d name)
    (hb : b ∈ f.hoistedInto s) (hbd : b.declaration = d) :
    f.home root d = some s ∧ ¬f.Lists s i := by
  unfold hoistedInto at hb
  split at hb
  · cases hb
  next body hbody =>
  dsimp only at hb
  split at hb
  · next htakes =>
    obtain ⟨j, hj, hb⟩ := List.mem_flatMap.1 hb
    obtain ⟨hj, hhoists⟩ := List.mem_filter.1 hj
    have hj : some j ∈ body := by simpa using hj
    obtain ⟨hjfun, hexport⟩ : f.nodeIs Node.isFunction (some j) = false ∧
        f.nodeIs Node.isExport (some j) = false := by
      rw [nodeIs, nodeIs]
      rw [nodeIs] at hhoists
      cases hn : f.node? (some j) with
      | none => exact ⟨rfl, rfl⟩
      | some n => simpa [hn] using hhoists
    obtain ⟨k, hk, hkfun, hik⟩ := h.exists_rises hp hb hbd
    obtain ⟨home, hhome, -⟩ := h.exists_home hp
    have his : f.Rises i s :=
      (hik.tail ⟨hkfun, hk⟩).tail ⟨hjfun, parentOf_of_statements? hp hbody hj⟩
    obtain rfl := (h.rises_home hp hhome his (isList_of_statements? hbody)).2 htakes
    exact ⟨hhome, h.not_lists hp hbody hj hexport hk hkfun hik⟩
  · cases hb

/-- A declaration that its home does not hold has risen to a statement of its home from below, and
that is neither a function nor an export. -/
theorem DeclaresVar.exists_statement (hp : f.Parsed root) {body : List Ref}
    (h : f.DeclaresVar i d name) (hs : f.Rises i s) (hbody : f.statements? (some s) = some body)
    (hlists : ¬f.Lists s i) :
    ∃ j k, some j ∈ body ∧ f.nodeIs (fun n => n.isFunction || n.isExport) (some j) = false ∧
      f.parentOf (some k) = some j ∧ f.nodeIs Node.isFunction (some k) = false ∧ f.Rises i k := by
  obtain ⟨ds, init, hvar, -⟩ := id h
  obtain ⟨n, hn, hst⟩ := Option.bind_eq_some_iff.1 hbody
  rcases Relation.ReflTransGen.cases_tail hs with rfl | ⟨j, hij, hjfun, hj⟩
  · obtain rfl := Option.some.inj (hn.symm.trans hvar)
    cases hst
  obtain ⟨n', hn', hmem⟩ := hp.of_parentOf hj
  obtain rfl := Option.some.inj (hn.symm.trans hn')
  rw [(children_of_statements? hst).1] at hmem
  have hheld : f.exported j ≠ i := fun hji =>
    hlists (h.lists_iff.2 ⟨body, hbody, j, hmem, hji⟩)
  rcases Relation.ReflTransGen.cases_tail hij with rfl | ⟨k, hik, hkfun, hk⟩
  · exact absurd (by rw [exported, hvar]) hheld
  refine ⟨j, k, hmem, ?_, hk, hkfun, hik⟩
  obtain ⟨m, hm, hkmem⟩ := hp.of_parentOf hk
  obtain ⟨-, -, m', hm', htakes⟩ := hp.of_mem_children hm hkmem
  rw [nodeIs, hm, Option.any_some] at hjfun ⊢
  rw [nodeIs, hm', Option.any_some] at hkfun
  rw [hjfun, Bool.false_or]
  by_contra hexport
  -- an export holds the declaration itself, from below which nothing rises
  cases m <;> first | exact hexport rfl | skip
  next e =>
  obtain rfl : some k = e := List.mem_singleton.1 hkmem
  rcases Rises.mayHoist hp hik hvar rfl with rfl | ⟨m'', hm'', hhoist⟩
  · exact hheld (by rw [exported, hm])
  · obtain rfl := Option.some.inj (hm'.symm.trans hm'')
    cases m' <;> first | cases htakes; done | cases hkfun; done | cases hhoist

theorem DeclaresVar.filter_hoistedInto (hp : f.Parsed root) (h : f.DeclaresVar i d name)
    (hs : f.home root d = some s) (hlists : ¬f.Lists s i) :
    (f.hoistedInto s).filter (·.declaration == d) = [⟨name, .varVariable, d, i⟩] := by
  obtain ⟨home, heq, his, htakes, hlist⟩ := h.exists_home hp
  obtain rfl : home = s := Option.some.inj (heq.symm.trans hs)
  obtain ⟨n, hn, hlist⟩ := (Option.any_eq_true _ _).1 hlist
  obtain ⟨body, hst, -⟩ := Node.exists_statements hlist
  have hbody : f.statements? (some home) = some body := by
    rw [statements?, hn, Option.bind_some, hst]
  obtain ⟨j, k, hj, hjhoists, hk, hkfun, hik⟩ := h.exists_statement hp his hbody hlists
  have hjhome := parentOf_of_statements? hp hbody hj
  have hij : f.Rises i j := hik.tail ⟨hkfun, hk⟩
  have hsize : j < f.size := lt_size_of_parentOf hjhome
  unfold hoistedInto
  rw [hbody]
  dsimp only
  rw [if_pos htakes, List.filter_flatMap,
    flatMap_eq_of_unique ((nodup_of_statements? hp hbody).filter _) (List.mem_filter.2
      ⟨List.mem_filterMap.2 ⟨_, hj, rfl⟩, by rw [hjhoists]; rfl⟩)]
  · exact h.filter_hoistedUpTo hp hk hkfun hik hsize.le
  · intro l hl hne
    rw [filter_declaration_eq_nil]
    intro b hb hbd
    have hl : some l ∈ body := by simpa using (List.mem_filter.1 hl).1
    obtain ⟨m, hm, hmfun, him⟩ := h.exists_rises hp hb hbd
    have hil : f.Rises i l := him.tail ⟨hmfun, hm⟩
    exact hne (hil.eq_of_parentOf hp hij (parentOf_of_statements? hp hbody hl) hjhome)

/-! ### The bindings of a variable -/

/-- A variable is bound in its home and in the list that holds its declaration, once in each, and in
no other scope. -/
theorem DeclaresVar.bindingsOf (hp : f.Parsed root) (h : f.DeclaresVar i d name) {home : Nat}
    (hhome : f.home root d = some home) :
    (s = home ∨ f.Lists s i → (f.bindingsOf (some s)).filter (·.declaration == d) =
      [⟨name, .varVariable, d, i⟩]) ∧
    (¬(s = home ∨ f.Lists s i) → ∀ b ∈ f.bindingsOf (some s), b.declaration ≠ d) := by
  -- the search for declarations finds it where it is listed, the other one only where it is not
  have hnone (hs : ¬f.Lists s i) : (f.declaredIn s).filter (·.declaration == d) = [] := by
    rw [filter_declaration_eq_nil]
    exact fun b hb hbd => hs (h.lists_of_mem hp hb hbd)
  have hnone' (hs : ¬(s = home ∧ ¬f.Lists s i)) :
      (f.hoistedInto s).filter (·.declaration == d) = [] := by
    rw [filter_declaration_eq_nil]
    intro b hb hbd
    obtain ⟨heq, hlists⟩ := h.of_mem_hoistedInto hp hb hbd
    exact hs ⟨Option.some.inj (heq.symm.trans hhome), hlists⟩
  rw [← filter_declaration_eq_nil, Forest.bindingsOf, Option.elim_some, List.filter_append]
  refine ⟨fun hs => ?_, fun hs => ?_⟩
  · by_cases hlists : f.Lists s i
    · rw [h.filter_declaredIn hp hlists, hnone' fun hno => hno.2 hlists, List.append_nil]
    · obtain rfl := hs.resolve_right hlists
      rw [hnone hlists, h.filter_hoistedInto hp hhome hlists, List.nil_append]
  · rw [not_or] at hs
    rw [hnone hs.2, hnone' fun hno => hs.1 hno.1, List.append_nil]

/-- A variable that is declared with `var` is bound once in its home, once in the list that holds
its declaration, and in no other scope.  So it is visible from all nodes below its home, and from no
others. -/
theorem var_bindings {source : String} {t : Tree} (ht : Tree.parse source = .ok t)
    (h : (ofTree t).2.DeclaresVar i d name) :
    ∃ root home, (ofTree t).1 = some root ∧ (ofTree t).2.home root d = some home ∧
      (∀ s, s = home ∨ (ofTree t).2.Lists s i →
        ((ofTree t).2.bindingsOf (some s)).filter (·.declaration == d) =
          [⟨name, .varVariable, d, i⟩]) ∧
      (∀ s, ¬(s = home ∨ (ofTree t).2.Lists s i) →
        ∀ b ∈ (ofTree t).2.bindingsOf (some s), b.declaration ≠ d) ∧
      ∀ p, (∃ s ∈ (ofTree t).2.ancestors (some p), ∃ b ∈ (ofTree t).2.bindingsOf (some s),
          b.declaration = d) ↔ home ∈ (ofTree t).2.ancestors (some p) := by
  obtain ⟨root, hroot, hp, -⟩ := parsed_of_parse ht
  obtain ⟨home, hhome, -⟩ := h.exists_home hp
  refine ⟨root, home, hroot, hhome, fun s => (h.bindingsOf hp hhome).1,
    fun s => (h.bindingsOf hp hhome).2, fun p => ⟨?_, fun hmem => ?_⟩⟩
  · rintro ⟨s, hs, b, hb, hbd⟩
    have hbound : s = home ∨ (ofTree t).2.Lists s i := by
      by_contra hno
      exact (h.bindingsOf hp hhome).2 hno b hb hbd
    rcases hbound with rfl | hlists
    · exact hs
    obtain ⟨his, hlist⟩ := h.rises_of_lists hp hlists
    obtain ⟨l, hl⟩ := hp.wellFormed.ends p
    rw [ancestors_of_way hl] at hs ⊢
    exact hl.mem_of_leads hs (h.rises_home hp hhome his hlist).1.leads
  · refine ⟨home, hmem, ⟨name, .varVariable, d, i⟩, ?_, rfl⟩
    have hfilter := (h.bindingsOf hp hhome).1 (.inl rfl)
    exact List.mem_of_mem_filter (hfilter ▸ List.mem_singleton_self _)

/-- A variable of the inner block is bound there and in the body of the function, and not in the
script. -/
theorem nested_var_bound : ∃ t, Tree.parse "function f() { if (c) { var x; } } x;" = .ok t ∧
    (ofTree t).2.DeclaresVar 2 1 "x" ∧
    ((ofTree t).2.bindingsOf (some 3)).filter (·.declaration == 1) =
      [⟨"x", .varVariable, 1, 2⟩] ∧
    ((ofTree t).2.bindingsOf (some 5)).filter (·.declaration == 1) =
      [⟨"x", .varVariable, 1, 2⟩] ∧
    ∀ b ∈ (ofTree t).2.bindingsOf (some 9), b.declaration ≠ 1 := by
  have hrun : (Tree.parse "function f() { if (c) { var x; } } x;").toOption.any (fun t =>
      decide ((ofTree t).1 = some 9 ∧
        (ofTree t).2.node? (some 2) = some (.varDeclaration .var [some 1]) ∧
        (ofTree t).2.node? (some 1) = some (.declarator "x" none) ∧
        (ofTree t).2.statements? (some 3) = some [some 2] ∧
        (ofTree t).2.statements? (some 9) = some [some 6, some 8] ∧
        (ofTree t).2.nodeIs Node.isExport (some 6) = false ∧
        (ofTree t).2.nodeIs Node.isExport (some 8) = false ∧
        (ofTree t).2.home 9 1 = some 5)) = true := by
    decide +kernel
  cases ht : Tree.parse "function f() { if (c) { var x; } } x;" with
  | error e =>
    rw [ht] at hrun
    cases hrun
  | ok t =>
    rw [ht] at hrun
    obtain ⟨hroot, hi, hd, hblock, hscript, hsix, height, hfive⟩ := of_decide_eq_true hrun
    have h : (ofTree t).2.DeclaresVar 2 1 "x" := ⟨_, _, hi, List.mem_singleton_self _, hd⟩
    obtain ⟨root, home, hroot', hhome, hbound, hfree, -⟩ := var_bindings ht h
    obtain rfl : 9 = root := Option.some.inj (hroot.symm.trans hroot')
    obtain rfl : 5 = home := Option.some.inj (hfive.symm.trans hhome)
    refine ⟨t, rfl, h, hbound 3 (.inr ⟨_, hblock, .inl (List.mem_singleton_self _)⟩),
      hbound 5 (.inl rfl), hfree 9 ?_⟩
    rintro (h | ⟨body, hbody, hmem | ⟨e, hmem, he⟩⟩)
    · cases h
    · obtain rfl := Option.some.inj (hscript.symm.trans hbody)
      simp at hmem
    · obtain rfl := Option.some.inj (hscript.symm.trans hbody)
      have hno : (ofTree t).2.nodeIs Node.isExport (some e) = false := by
        rcases List.mem_cons.1 hmem with h | h
        · rwa [h]
        · rwa [List.mem_singleton.1 h]
      rw [nodeIs, he] at hno
      cases hno

end Forest

end DebugGuard
