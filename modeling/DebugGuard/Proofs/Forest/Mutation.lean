import DebugGuard.Expand.Error
import DebugGuard.Proofs.Forest.WellFormed

/-!
# Sequences of changes

A parsed script may be changed any number of times: nodes are added, statements replaced, removed
and put in front, expressions exchanged and wrapped.  As long as nothing is put where it hangs
already or below itself (`Mutation.Allowed`), the forest stays well formed.

Main statement: `reached_mutation`, which says of each step on the way what it leaves as it is.
-/

namespace DebugGuard.Forest

/-- A change of a forest, as it is asked for.  It may be refused. -/
inductive Mutation where
  | add (node : Node Ref) (pos : Nat)
  | splice (target : Ref) (statements : List Nat)
  | remove (target : Ref)
  | putFirst (list : Ref) (statement : Nat)
  | setExpression (statement : Ref) (expression : Nat)
  /-- Parts are added around the expression of a statement, and the statement takes what has been
  made of them. -/
  | wrap (parts : List (Node Ref × Nat)) (statement expression : Nat)

/-- Adds nodes with their positions, one after the other. -/
def addAll (f : Forest) (parts : List (Node Ref × Nat)) : Forest :=
  parts.foldl (fun f part => f.add part.1 part.2) f

/-- The parts of an expression that may be built around `old`, which the statement `s` holds: what
goes into them hangs nowhere, or is `old` as long as no other part has taken it in. -/
def Supplies (f : Forest) (s old : Nat) : List (Node Ref × Nat) → Prop
  | [] => True
  | (n, pos) :: parts => (n.children.filterMap id).Nodup ∧
    (∀ i ∈ n.children.filterMap id, f.Detached i ∨ i = old ∧ f.parentOf (some i) = some s) ∧
    Supplies (f.add n pos) s old parts

instance decidableSupplies {s old : Nat} :
    (f : Forest) → (parts : List (Node Ref × Nat)) → Decidable (f.Supplies s old parts)
  | _, [] => isTrue trivial
  | f, (n, pos) :: parts =>
    have : Decidable (Supplies (f.add n pos) s old parts) := decidableSupplies _ parts
    inferInstanceAs (Decidable (_ ∧ _ ∧ _))

namespace Mutation

/-- Carries the change out. -/
def perform : Mutation → Reshape Unit
  | .add n pos => do
    let _ ← Build.nodeAt pos n
  | .splice target statements => Reshape.edit fun f => f.splice target (statements.map some)
  | .remove target => Reshape.edit fun f => f.remove target
  | .putFirst list statement => Reshape.edit fun f => f.putFirst list (some statement)
  | .setExpression statement expression =>
    Reshape.edit fun f => f.setExpression statement (some expression)
  | .wrap parts statement expression => do
    parts.forM fun (n, pos) => do
      let _ ← Build.nodeAt pos n
    Reshape.edit fun f => f.setExpression (some statement) (some expression)

/-- What is put somewhere is there, hangs nowhere and is named once, and it is not the root above
its new place. -/
def Allowed (f : Forest) : Mutation → Prop
  | .add n _ => (n.children.filterMap id).Nodup ∧ ∀ i ∈ n.children.filterMap id, f.Detached i
  | .splice target statements => statements.Nodup ∧ (∀ s ∈ statements, f.Detached s) ∧
    ∀ p, f.parentOf target = some p → ∀ s ∈ statements, ¬f.Leads p s
  | .remove _ => True
  | .putFirst list s => f.Detached s ∧ ∀ p, list = some p → ¬f.Leads p s
  | .setExpression statement e => f.Detached e ∧ ∀ s, statement = some s → ¬f.Leads s e
  | .wrap parts s e => ∃ old, f.node? (some s) = some (.expressionStatement (some old)) ∧
    f.Supplies s old parts ∧ (f.addAll parts).Detached e ∧ ¬(f.addAll parts).Leads s e

/-- The node whose list changes. -/
def place (f : Forest) : Mutation → Ref
  | .add .. => some f.size
  | .splice target _ | .remove target => f.parentOf target
  | .putFirst list _ => list
  | .setExpression statement _ => statement
  | .wrap _ statement _ => some statement

/-- What comes into the list. -/
def inserted : Mutation → List Nat
  | .add n _ => n.children.filterMap id
  | .splice _ statements => statements
  | .remove _ => []
  | .putFirst _ s => [s]
  | .setExpression _ e | .wrap _ _ e => [e]

/-- The node that is replaced or removed. -/
def replaced (f : Forest) : Mutation → Ref
  | .splice target _ | .remove target => target
  | .setExpression statement _ => (f.statementExpression? statement).join
  | .wrap _ statement _ => (f.statementExpression? (some statement)).join
  | .add .. | .putFirst .. => none

/-- How many nodes are new. -/
def grown : Mutation → Nat
  | .add .. => 1
  | .wrap parts .. => parts.length
  | .splice .. | .remove _ | .putFirst .. | .setExpression .. => 0

/-- What a change does, and what it leaves as it is, if it is not refused. -/
structure Keeps (m : Mutation) (f g : Forest) : Prop where
  wellFormed : g.WellFormed
  size : g.size = f.size + m.grown
  placed : ∀ i ∈ m.inserted, g.parentOf (some i) = m.place f
  /-- What is replaced or removed hangs nowhere, unless it has been taken in by a new node. -/
  detached : ∀ i, m.replaced f = some i →
    g.parentOf (some i) = none ∨ ∃ j, f.size ≤ j ∧ g.parentOf (some i) = some j
  /-- All other lists are left alone, and all nodes but the one with the list keep their data. -/
  others : ∀ i < f.size, some i ≠ m.place f → g.node? (some i) = f.node? (some i)
  pos : ∀ i < f.size, g.startOf? (some i) = f.startOf? (some i)

end Mutation

variable {f g : Forest} {m : Mutation} {n : Node Ref} {pos i s e old : Nat} {r : Ref}

theorem edit_apply {change : Forest → Except EditError Forest} :
    Reshape.edit change f = match change f with
      | .ok g => (.ok (), g)
      | .error e => (.error (.edit e), f) := by
  show ((match change f with
    | .ok g => set g
    | .error e => throw (.edit e)) : Reshape Unit) f = _
  cases change f <;> rfl

theorem perform_wrap {parts : List (Node Ref × Nat)} :
    (Mutation.wrap parts s e).perform f =
      Reshape.edit (fun f => f.setExpression (some s) (some e)) (f.addAll parts) := by
  induction parts generalizing f with
  | nil => rfl
  | cons part parts ih => exact ih

/-! ### The parts of a wrap -/

theorem size_addAll {parts : List (Node Ref × Nat)} :
    (f.addAll parts).size = f.size + parts.length := by
  induction parts generalizing f with
  | nil => rfl
  | cons part parts ih =>
    rw [addAll, List.foldl_cons, ← addAll, ih, size_add, List.length_cons]
    omega

theorem node?_addAll {parts : List (Node Ref × Nat)} (hi : i < f.size) :
    (f.addAll parts).node? (some i) = f.node? (some i) := by
  induction parts generalizing f with
  | nil => rfl
  | cons part parts ih =>
    rw [addAll, List.foldl_cons, ← addAll, ih (by rw [size_add]; omega),
      node?_add_of_ne (Nat.ne_of_lt hi)]

theorem startOf?_addAll {parts : List (Node Ref × Nat)} (hi : i < f.size) :
    (f.addAll parts).startOf? (some i) = f.startOf? (some i) := by
  induction parts generalizing f with
  | nil => rfl
  | cons part parts ih =>
    rw [addAll, List.foldl_cons, ← addAll, ih (by rw [size_add]; omega),
      startOf?_add_of_ne (Nat.ne_of_lt hi)]

/-- The parts of a wrap may be added when the statement has let go of its expression, and then they
are added on top of nodes that hang nowhere. -/
theorem Supplies.released {parts : List (Node Ref × Nat)} (h : f.Supplies s old parts)
    (hs : s < f.size) (hold : old < f.size) (hf : (f.released (some s) (some old)).WellFormed) :
    (f.addAll parts).released (some s) (some old) =
        (f.released (some s) (some old)).addAll parts ∧
      ((f.addAll parts).released (some s) (some old)).WellFormed := by
  induction parts generalizing f with
  | nil => exact ⟨rfl, hf⟩
  | cons part parts ih =>
    obtain ⟨n, pos⟩ := part
    obtain ⟨hnodup, hn, hrest⟩ := h
    have hlt : ∀ i ∈ n.children.filterMap id, i < f.size := fun i hi =>
      (hn i hi).elim And.left fun h => h.1 ▸ hold
    have hadd : (f.add n pos).released (some s) (some old) =
        (f.released (some s) (some old)).add n pos := released_add hs hold hlt
    have hwell : ((f.add n pos).released (some s) (some old)).WellFormed := by
      rw [hadd]
      refine (relists_add hf hnodup fun i hi => ⟨?_, ?_⟩).wellFormed hf
      · rw [size_released]
        exact hlt i hi
      · rw [parentOf_released]
        rcases hn i hi with hd | ⟨rfl, hp⟩
        · rw [hd.2, ite_self]
        · rw [if_pos ⟨rfl, hp⟩]
    obtain ⟨heq, hwell'⟩ := ih hrest (by rw [size_add]; omega) (by rw [size_add]; omega) hwell
    rw [hadd] at heq
    exact ⟨heq, hwell'⟩

theorem Supplies.parentOf_ne_none {parts : List (Node Ref × Nat)} (h : f.Supplies s old parts)
    (hold : f.parentOf (some old) ≠ none) : (f.addAll parts).parentOf (some old) ≠ none := by
  induction parts generalizing f with
  | nil => exact hold
  | cons part parts ih =>
    obtain ⟨n, pos⟩ := part
    refine ih h.2.2 ?_
    rw [parentOf_add]
    split
    · exact Option.some_ne_none _
    · exact hold

/-! ### Single changes -/

theorem Mutation.Keeps.congr {m' : Mutation} (h : m.Keeps f g) (hplace : m'.place f = m.place f)
    (hgrown : m'.grown = m.grown) (hinserted : m'.inserted = m.inserted)
    (hreplaced : m'.replaced f = m.replaced f) : m'.Keeps f g :=
  ⟨h.wellFormed, hgrown ▸ h.size, hplace ▸ hinserted ▸ h.placed, hreplaced ▸ h.detached,
    hplace ▸ h.others, h.pos⟩

/-- What is replaced or removed is in no list but one of a new node. -/
theorem detached_of_others {p : Nat} (hf : f.WellFormed) (hg : g.WellFormed)
    (hothers : ∀ i < f.size, i ≠ p → g.node? (some i) = f.node? (some i))
    (hi : f.parentOf (some i) = some p) (hout : i ∉ g.childrenOf (some p)) :
    g.parentOf (some i) = none ∨ ∃ j, f.size ≤ j ∧ g.parentOf (some i) = some j := by
  cases hp : g.parentOf (some i) with
  | none => exact .inl rfl
  | some j =>
    refine .inr ⟨j, ?_, rfl⟩
    by_contra hj
    have hmem := (hg.linked i j).1 hp
    by_cases hjp : j = p
    · exact hout (hjp ▸ hmem)
    · rw [childrenOf_congr (hothers j (by omega) hjp), ← hf.linked, hi] at hmem
      exact hjp (Option.some.inj hmem).symm

theorem leads_of_released {r : Ref} {t : Nat} (h : (f.released (some s) r).Leads i t) :
    f.Leads i t := by
  refine Relation.ReflTransGen.mono (fun a b hab => ?_) _ _ h
  rw [parentOf_released] at hab
  split at hab
  · cases hab
  · exact hab

theorem keeps_add (hf : f.WellFormed) (hm : (Mutation.add n pos).Allowed f) :
    (Mutation.add n pos).Keeps f (f.add n pos) := by
  have hadd : Relists f f.size (f.add n pos) := relists_add hf hm.1 hm.2
  refine ⟨hadd.wellFormed hf, size_add, fun i hi => ?_, fun i hi => (by cases hi),
    fun i hi _ => node?_add_of_ne (Nat.ne_of_lt hi), fun i hi => startOf?_add_of_ne (Nat.ne_of_lt hi)⟩
  refine (hadd.linked hf i f.size).2 ?_
  rwa [childrenOf_eq node?_add_size]

theorem keeps_splice {target : Ref} {statements : List Nat} (hf : f.WellFormed)
    (hm : (Mutation.splice target statements).Allowed f)
    (h : f.splice target (statements.map some) = .ok g) :
    (Mutation.splice target statements).Keeps f g := by
  obtain ⟨t, p, n, n', rfl, hp, halters, hsplice, hout, hin⟩ :=
    relists_splice hf hm.1 hm.2.1 hm.2.2 h
  have hg := hsplice.wellFormed hf
  refine ⟨hg, halters.size, fun i hi => ?_, fun i hi => ?_, fun i _ hne => halters.others ?_,
    fun i _ => halters.pos _⟩
  · exact ((hg.linked i p).2 (hin i hi)).trans hp.symm
  · cases hi
    exact detached_of_others hf hg (fun j _ hj => halters.others hj) hp hout
  · rintro rfl
    exact hne hp.symm

theorem keeps_putFirst {list : Ref} (hf : f.WellFormed)
    (hm : (Mutation.putFirst list s).Allowed f) (h : f.putFirst list (some s) = .ok g) :
    (Mutation.putFirst list s).Keeps f g := by
  obtain ⟨p, n, n', rfl, halters, hput, hin⟩ := relists_putFirst hf hm.1 hm.2 h
  have hg := hput.wellFormed hf
  refine ⟨hg, halters.size, fun i hi => ?_, fun i hi => (by cases hi),
    fun i _ hne => halters.others ?_, fun i _ => halters.pos _⟩
  · obtain rfl := List.mem_singleton.1 hi
    exact (hg.linked i p).2 hin
  · rintro rfl
    exact hne rfl

/-- After the parts have been added, a statement lets go of its expression and takes another one. -/
theorem keeps_exchange {f' : Forest} {parts : List (Node Ref × Nat)} (hf : f.WellFormed)
    (hsize : f'.size = f.size + parts.length)
    (hnode : ∀ i < f.size, f'.node? (some i) = f.node? (some i))
    (hpos : ∀ i < f.size, f'.startOf? (some i) = f.startOf? (some i))
    (hs : f.node? (some s) = some (.expressionStatement r))
    (hwell : (f'.released (some s) r).WellFormed) (hre : r ≠ some e) (he : f'.Detached e)
    (habove : ¬f'.Leads s e) :
    (Mutation.wrap parts s e).Keeps f (f'.exchanged (some s) r (some e)) := by
  have hsf := lt_size_of_node? hs
  have hs' : (f'.released (some s) r).node? (some s) = some (.expressionStatement none) := by
    rw [node?_released (has_some.2 (by omega)), if_pos rfl]
  have he' : (f'.released (some s) r).Detached e := by
    refine ⟨by rw [size_released]; exact he.1, ?_⟩
    rw [parentOf_released, he.2, ite_self]
  rw [exchanged_eq]
  obtain ⟨hfill, hlist⟩ := relists_fill hwell hs' he' fun h => habove (leads_of_released h)
  have hg := hfill.wellFormed hwell
  have hothers : ∀ i < f.size, i ≠ s → ((f'.released (some s) r).exchanged (some s) none
      (some e)).node? (some i) = f.node? (some i) := by
    intro i hi hne
    rw [node?_exchanged, if_neg (by simp [hne]), node?_released (has_some.2 (by omega)),
      if_neg (by simp [hne]), hnode i hi]
  refine ⟨hg, size_exchanged.trans (size_released.trans hsize), fun i hi => ?_, fun i hi => ?_,
    fun i hi hne => hothers i hi fun h => hne (congrArg some h), fun i hi => ?_⟩
  · obtain rfl := List.mem_singleton.1 hi
    exact (hg.linked i s).2 (by rw [hlist]; exact List.mem_singleton_self i)
  · have hir : r = some i := by
      simpa [Mutation.replaced, statementExpression?, hs, Node.statementExpression?] using hi
    have hparent : f.parentOf (some i) = some s := by
      rw [hf.linked, childrenOf_eq hs, hir]
      exact List.mem_singleton_self i
    refine detached_of_others hf hg hothers hparent ?_
    rw [hlist, List.mem_singleton]
    rintro rfl
    exact hre hir
  · rw [startOf?_exchanged, startOf?_released, hpos i hi]

/-- A change that is allowed is refused and does nothing, or it does what it should. -/
theorem Mutation.Allowed.outcome (hm : m.Allowed f) (hf : f.WellFormed) :
    (∃ e, m.perform f = (.error e, f)) ∨ ∃ g, m.perform f = (.ok (), g) ∧ m.Keeps f g := by
  have hedit {change : Forest → Except EditError Forest}
      (hperform : m.perform f = Reshape.edit change f) (h : ∀ g, change f = .ok g → m.Keeps f g) :
      (∃ e, m.perform f = (.error e, f)) ∨ ∃ g, m.perform f = (.ok (), g) ∧ m.Keeps f g := by
    rw [hperform, edit_apply]
    cases hg : change f with
    | ok g => exact .inr ⟨g, rfl, h g hg⟩
    | error e => exact .inl ⟨_, rfl⟩
  cases m with
  | add n pos => exact .inr ⟨_, rfl, keeps_add hf hm⟩
  | splice target statements => exact hedit rfl fun g => keeps_splice hf hm
  | remove target =>
    refine hedit rfl fun g hg => ?_
    have hkeeps : (Mutation.splice target []).Keeps f g := keeps_splice hf (by simp [Allowed]) hg
    exact hkeeps.congr rfl rfl rfl rfl
  | putFirst list s => exact hedit rfl fun g => keeps_putFirst hf hm
  | setExpression statement e =>
    refine hedit rfl fun g hg => ?_
    obtain ⟨r, hs, rfl⟩ := setExpression_eq_ok.1 hg
    obtain ⟨s, rfl⟩ := exists_eq_some hs
    have hre : r ≠ some e := by
      rintro rfl
      have hparent := (hf.linked e s).2 (by rw [childrenOf_eq hs]; exact List.mem_singleton_self e)
      rw [hm.1.2] at hparent
      cases hparent
    have hkeeps : (Mutation.wrap [] s e).Keeps f (f.exchanged (some s) r (some e)) :=
      keeps_exchange hf rfl (fun _ _ => rfl) (fun _ _ => rfl) hs
        ((relists_release hf hs).1.wellFormed hf) hre hm.1 (hm.2 s rfl)
    exact hkeeps.congr rfl rfl rfl rfl
  | wrap parts s e =>
    obtain ⟨old, hs, hparts, he, habove⟩ := hm
    have hsf := lt_size_of_node? hs
    have hparent : f.parentOf (some old) = some s :=
      (hf.linked old s).2 (by rw [childrenOf_eq hs]; exact List.mem_singleton_self old)
    obtain ⟨-, hwell⟩ := hparts.released hsf (lt_size_of_parentOf hparent)
      ((relists_release hf hs).1.wellFormed hf)
    have hre : some old ≠ some e := by
      rintro ⟨⟩
      exact hparts.parentOf_ne_none (by simp [hparent]) he.2
    have hkeeps := keeps_exchange hf size_addAll (fun i hi => node?_addAll hi)
      (fun i hi => startOf?_addAll hi) hs hwell hre he habove
    rw [perform_wrap, edit_apply, setExpression_eq_ok.2 ⟨some old, (node?_addAll hsf).trans hs, rfl⟩]
    exact .inr ⟨_, rfl, hkeeps⟩

/-- A parsed script, changed any number of times. -/
inductive Reached : Forest → Prop
  | parsed {source : String} {t : Tree} (h : Tree.parse source = .ok t) : Reached (ofTree t).2
  | step {f : Forest} {m : Mutation} (h : Reached f) (hm : m.Allowed f) : Reached (m.perform f).2

theorem Reached.wellFormed (h : Reached f) : f.WellFormed := by
  induction h with
  | parsed h =>
    obtain ⟨root, -, hp, -⟩ := parsed_of_parse h
    exact hp.wellFormed
  | step h hm ih =>
    rcases hm.outcome ih with ⟨e, he⟩ | ⟨g, hg, hkeeps⟩
    · rw [he]
      exact ih
    · rw [hg]
      exact hkeeps.wellFormed

/-- On the way from a parsed script, whatever changes are made, the forest is well formed, and a
change that is allowed is refused and does nothing at all, or it does what it should and leaves all
else as it is. -/
theorem reached_mutation (h : Reached f) (hm : m.Allowed f) :
    f.WellFormed ∧
      ((∃ e, m.perform f = (.error e, f)) ∨ ∃ g, m.perform f = (.ok (), g) ∧ m.Keeps f g) :=
  ⟨h.wellFormed, hm.outcome h.wellFormed⟩

/-- The parts of `DEBUG && (old)`. -/
def guardParts (old fresh : Nat) : List (Node Ref × Nat) :=
  [(.identifier "DEBUG", 0), (.parenthesized (some old), 0),
    (.binary (some fresh) "&&" (some (fresh + 1)), 0)]

/-- In `assert(x);` the statement 3 holds the call 2, and a guard is built around the call. -/
theorem guarded_call_reached : ∃ t g, Tree.parse "assert(x);" = .ok t ∧
    (Mutation.wrap (guardParts 2 5) 3 7).perform (ofTree t).2 = (.ok (), g) ∧
    (Mutation.wrap (guardParts 2 5) 3 7).Keeps (ofTree t).2 g := by
  have hok : (Tree.parse "assert(x);").toOption.any (fun t =>
      let f := (ofTree t).2
      let f' := f.addAll (guardParts 2 5)
      decide (f.node? (some 3) = some (.expressionStatement (some 2)) ∧
        f.Supplies 3 2 (guardParts 2 5) ∧ f'.Detached 7 ∧ f'.parentOf (some 3) = some 4 ∧
        f'.parentOf (some 4) = none)) = true := by
    decide +kernel
  cases h : Tree.parse "assert(x);" with
  | error e =>
    rw [h] at hok
    cases hok
  | ok t =>
    rw [h] at hok
    obtain ⟨hs, hparts, he, hparent, htop⟩ := of_decide_eq_true hok
    have habove : ¬((ofTree t).2.addAll (guardParts 2 5)).Leads 3 7 := by
      intro hleads
      rcases Relation.ReflTransGen.cases_head hleads with h37 | ⟨p, hp, hleads⟩
      · cases h37
      · obtain rfl : p = 4 := Option.some.inj (hp.symm.trans hparent)
        rcases Relation.ReflTransGen.cases_head hleads with h47 | ⟨q, hq, -⟩
        · cases h47
        · cases hq.symm.trans htop
    have hm : (Mutation.wrap (guardParts 2 5) 3 7).Allowed (ofTree t).2 :=
      ⟨2, hs, hparts, he, habove⟩
    rcases (reached_mutation (.parsed h) hm).2 with ⟨e, hrefused⟩ | ⟨g, hg, hkeeps⟩
    · rw [perform_wrap, edit_apply, setExpression_eq_ok.2 ⟨some 2, (node?_addAll
        (lt_size_of_node? hs)).trans hs, rfl⟩] at hrefused
      cases hrefused
    · exact ⟨t, g, rfl, hg, hkeeps⟩

end DebugGuard.Forest
