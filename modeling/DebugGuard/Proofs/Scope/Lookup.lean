import DebugGuard.Proofs.Forest.Change
import DebugGuard.Proofs.Forest.Parsed
import DebugGuard.Proofs.Forest.Way
import DebugGuard.Scope.Binding

/-!
# Looking names up, step by step

A lookup goes up from node to node (`resolve?_up`), and only scripts, blocks and functions hold it
up (`bindingIn?_eq_none`).  `Forest.Declares f b` says what there is in `f` for a binding `b`; it
holds of all bindings of a scope (`declares_of_mem_bindingsOf`).
-/

namespace DebugGuard

namespace Node

variable {α : Type}

/-- A node that may hold variables declared with `var` for the scope around it. -/
def mayHoist (n : Node α) : Bool :=
  match n with
  | .ifElse .. | .exportDeclaration _ => true
  | n => n.isScope

/-- A declaration of variables of the function around it. -/
def isVar (n : Node α) : Bool :=
  match n with
  | .varDeclaration .var _ => true
  | _ => false

theorem not_mayHoist_of_takes {n m : Node α} (h : n.takes m = true) (hn : n.mayHoist = false)
    (hm : m.isFunction = false) : m.isVar = false ∧ m.mayHoist = false := by
  cases n <;> first | cases hn; done | skip
  all_goals
    cases m <;> first | exact ⟨rfl, rfl⟩ | cases h; done | cases hm

end Node

namespace Forest

variable {f : Forest} {i j p : Nat} {r : Ref} {x : String} {n : Node Ref} {b : Binding}

/-! ### Going up -/

theorem resolve?_of_way {l : List Nat} (h : f.Way r l) :
    f.resolve? r x = l.findSome? (f.bindingIn? x) := by
  rw [resolve?, ancestors_of_way h]

/-- A name is looked up in a node first, then from its parent on. -/
theorem resolve?_up {l : List Nat} (h : f.Way (some i) l) :
    f.resolve? (some i) x = (f.bindingIn? x i).or (f.resolve? (f.parentOf (some i)) x) := by
  cases h with
  | @up _ l h =>
    rw [resolve?_of_way (.up h), resolve?_of_way h, List.findSome?_cons]
    cases f.bindingIn? x i <;> rfl

/-! ### What holds a lookup up -/

theorem bindingsOf_eq_nil (hn : f.node? (some i) = some n) (h : n.isScope = false) :
    f.bindingsOf (some i) = [] := by
  have hs : f.statements? (some i) = none := by
    rw [statements?, hn, Option.bind_some]
    cases n <;> first | rfl | cases h
  have hf : f.functionBindings i = [] := by
    rw [functionBindings, hn]
    cases n <;> first | rfl | cases h
  simp [bindingsOf, declaredIn, hoistedInto, hs, hf]

theorem bindingIn?_eq_none (hn : f.node? (some i) = some n) (h : n.isScope = false) :
    f.bindingIn? x i = none := by
  rw [bindingIn?_eq_find?, bindingsOf_eq_nil hn h]
  rfl

/-! ### What a binding stands for -/

/-- There is a declaration for the binding. -/
inductive Declares (f : Forest) : Binding → Prop
  | specifier {name s i specifiers source}
      (hi : f.node? (some i) = some (.importFrom specifiers source)) (hs : some s ∈ specifiers)
      (hname : f.localName? (some s) = some name) : Declares f ⟨name, .module, s, i⟩
  | var {name d i keyword declarators init}
      (hi : f.node? (some i) = some (.varDeclaration keyword declarators))
      (hd : some d ∈ declarators) (hname : f.node? (some d) = some (.declarator name init)) :
      Declares f ⟨name, .ofKeyword keyword, d, i⟩
  | function {name i params body}
      (hi : f.node? (some i) = some (.functionDeclaration name params body)) :
      Declares f ⟨name, .function, i, i⟩
  | parameter {name i n} (hi : f.node? (some i) = some n) (hn : n.isFunction = true)
      (hname : name ∈ n.ownNames) : Declares f ⟨name, .parameter, i, i⟩
  | self {name i params body}
      (hi : f.node? (some i) = some (.functionExpression (some name) params body)) :
      Declares f ⟨name, .function, i, i⟩

theorem Declares.mem_ownNames (h : f.Declares b) :
    ∃ n, f.node? (some b.declaration) = some n ∧ b.name ∈ n.ownNames := by
  cases h with
  | specifier hi hs hname =>
    obtain ⟨n, hn, hl⟩ := Option.bind_eq_some_iff.1 hname
    refine ⟨n, hn, ?_⟩
    cases n <;> cases hl <;> simp [Node.ownNames]
  | var hi hd hname => exact ⟨_, hname, by simp [Node.ownNames]⟩
  | function hi => exact ⟨_, hi, by simp [Node.ownNames]⟩
  | parameter hi hn hname => exact ⟨_, hi, hname⟩
  | self hi => exact ⟨_, hi, by simp [Node.ownNames]⟩

/-- Only imports bind names of other modules. -/
theorem Declares.import_of_module (h : f.Declares b) (hk : b.kind = .module) :
    ∃ specifiers source, f.node? (some b.owner) = some (.importFrom specifiers source) ∧
      some b.declaration ∈ specifiers ∧ f.localName? (some b.declaration) = some b.name := by
  cases h with
  | specifier hi hs hname => exact ⟨_, _, hi, hs, hname⟩
  | @var _ _ _ keyword => cases keyword <;> cases hk
  | function | parameter | self => cases hk

/-- Imports bind nothing else. -/
theorem Declares.module_of_import (h : f.Declares b) {specifiers : List Ref} {source : String}
    (hi : f.node? (some b.owner) = some (.importFrom specifiers source)) : b.kind = .module := by
  cases h with
  | specifier => rfl
  | var hi' | function hi' | self hi' => cases hi.symm.trans hi'
  | parameter hi' hn =>
    obtain rfl := Option.some.inj (hi.symm.trans hi')
    cases hn

/-- The declaration in an export; any other statement stands for itself. -/
def exported (f : Forest) (i : Nat) : Nat :=
  match f.node? (some i) with
  | some (.exportDeclaration (some d)) => d
  | _ => i

theorem declaredUpTo_eq {fuel : Nat} (h : f.nodeIs Node.isExport (some i) = false) :
    f.declaredUpTo fuel i = f.declaredUpTo 0 i := by
  cases fuel with
  | zero => rfl
  | succ fuel =>
    rw [declaredUpTo, declaredUpTo]
    split
    case h_4 d hn => simp [nodeIs, hn, Node.isExport] at h
    all_goals rfl

/-- Exports are not nested. -/
theorem declaredBy_eq (hk : f.Kinded) : f.declaredBy i = f.declaredUpTo 0 (f.exported i) := by
  unfold exported
  split
  next d hn =>
    obtain ⟨k, hsize⟩ : ∃ k, f.size = k + 1 :=
      Nat.exists_eq_succ_of_ne_zero (Nat.ne_zero_of_lt (lt_size_of_node? hn))
    rcases hk hn (some d) (by simp [Node.children]) with ⟨h, -⟩ | ⟨m, hm, htakes⟩
    · cases h
    · have hd : f.nodeIs Node.isExport (some d) = false := by
        rw [nodeIs, hm, Option.any_some]
        cases m <;> first | rfl | cases htakes
      rw [declaredBy, hsize, declaredUpTo, hn]
      exact declaredUpTo_eq hd
  next hn =>
    cases h : f.nodeIs Node.isExport (some i) with
    | false => exact declaredUpTo_eq h
    | true =>
      obtain ⟨n, hi, hn'⟩ : ∃ n, f.node? (some i) = some n ∧ n.isExport = true := by
        simpa [nodeIs, Option.any_eq_true] using h
      cases n <;> cases hn'
      next e =>
        rcases hk hi e (by simp [Node.children]) with ⟨-, h⟩ | ⟨m, hm, -⟩
        · cases h
        · cases e with
          | none => cases hm
          | some d => exact absurd hi (hn d)

theorem mem_declaredUpTo_zero (h : b ∈ f.declaredUpTo 0 i) : f.Declares b ∧ b.owner = i := by
  rw [declaredUpTo] at h
  split at h
  next specifiers source hn =>
    obtain ⟨s, hs, hb⟩ := List.mem_filterMap.1 h
    obtain ⟨name, hname, rfl⟩ := Option.map_eq_some_iff.1 hb
    exact ⟨.specifier hn (by simpa using hs) hname, rfl⟩
  next keyword declarators hn =>
    obtain ⟨d, hd, hb⟩ := List.mem_filterMap.1 h
    split at hb
    next name init hname =>
      cases hb
      exact ⟨.var hn (by simpa using hd) hname, rfl⟩
    next => cases hb
  next name params body hn =>
    obtain rfl := List.mem_singleton.1 h
    exact ⟨.function hn, rfl⟩
  all_goals cases h

/-- An import stands itself for what it binds. -/
theorem exported_of_import (hk : f.Kinded) (h : f.nodeIs Node.isImport (some (f.exported i)) = true) :
    f.exported i = i := by
  unfold exported at h ⊢
  split
  next d hn =>
    rcases hk hn (some d) (by simp [Node.children]) with ⟨h, -⟩ | ⟨m, hm, htakes⟩
    · cases h
    · simp only [hn, nodeIs, hm, Option.any_some] at h
      cases m <;> first | cases h; done | cases htakes
  next => rfl

theorem declares_of_mem_functionBindings (h : b ∈ f.functionBindings i) :
    f.Declares b ∧ b.kind ≠ .module := by
  unfold functionBindings at h
  split at h
  next name params body hn =>
    obtain ⟨x, hx, rfl⟩ := List.mem_map.1 h
    exact ⟨.parameter hn rfl (List.mem_cons_of_mem _ hx), nofun⟩
  next name params body hn =>
    rcases List.mem_append.1 h with h | h
    · obtain ⟨x, hx, rfl⟩ := List.mem_map.1 h
      exact ⟨.parameter hn rfl (List.mem_append_right _ hx), nofun⟩
    · obtain ⟨x, hx, rfl⟩ := List.mem_map.1 h
      obtain rfl : name = some x := by simpa [eq_comm] using hx
      exact ⟨.self hn, nofun⟩
  next params body hn =>
    obtain ⟨x, hx, rfl⟩ := List.mem_map.1 h
    exact ⟨.parameter hn rfl hx, nofun⟩
  next => cases h

/-! ### Hoisting -/

/-- What one child adds to the variables that are hoisted from a node. -/
def hoistedVia (f : Forest) (fuel c : Nat) : List Binding :=
  if f.nodeIs Node.isFunction (some c) then []
  else
    (match f.node? (some c) with
    | some (.varDeclaration .var _) => f.declaredBy c
    | _ => []) ++ f.hoistedUpTo fuel c

theorem hoistedUpTo_succ {fuel : Nat} :
    f.hoistedUpTo (fuel + 1) i = (f.childrenOf (some i)).flatMap (f.hoistedVia fuel) := rfl

theorem mem_hoistedUpTo {fuel : Nat} (hk : f.Kinded) (h : b ∈ f.hoistedUpTo fuel i) :
    f.Declares b ∧ b.kind ≠ .module := by
  induction fuel generalizing i with
  | zero => cases h
  | succ fuel ih =>
    rw [hoistedUpTo_succ, List.mem_flatMap] at h
    obtain ⟨c, -, hb⟩ := h
    unfold hoistedVia at hb
    split at hb
    next => cases hb
    next =>
      rcases List.mem_append.1 hb with hb | hb
      · split at hb
        next ds hn =>
          have he : f.exported c = c := by rw [exported, hn]
          rw [declaredBy_eq hk, he] at hb
          refine ⟨(mem_declaredUpTo_zero hb).1, ?_⟩
          rw [declaredUpTo, hn] at hb
          obtain ⟨d, -, hd⟩ := List.mem_filterMap.1 hb
          split at hd
          · cases hd
            nofun
          · cases hd
        next => cases hb
      · exact ih hb

/-- Nothing is hoisted from below expressions and imports. -/
theorem hoistedUpTo_eq_nil {fuel : Nat} (hk : f.Kinded) (hn : f.node? (some i) = some n)
    (h : n.mayHoist = false) : f.hoistedUpTo fuel i = [] := by
  induction fuel generalizing i n with
  | zero => rfl
  | succ fuel ih =>
    rw [hoistedUpTo_succ, List.flatMap_eq_nil_iff]
    intro c hc
    obtain ⟨n', hn', hmem⟩ := mem_childrenOf.1 hc
    obtain rfl : n = n' := Option.some.inj (hn.symm.trans hn')
    rcases hk hn _ hmem with ⟨h, -⟩ | ⟨m, hm, htakes⟩
    · cases h
    · unfold hoistedVia
      rw [nodeIs, hm, Option.any_some]
      split
      · rfl
      next hfun =>
        obtain ⟨hvar, hm'⟩ := Node.not_mayHoist_of_takes htakes h (by simpa using hfun)
        rw [ih hm hm', List.append_nil]
        split
        next heq =>
          cases heq
          cases hvar
        next => rfl

/-! ### The bindings of a scope -/

theorem mem_declaredIn (hk : f.Kinded) (h : b ∈ f.declaredIn i) :
    f.Declares b ∧ (b.kind = .module →
      ∃ n, f.node? (some i) = some n ∧ n.isList = true ∧ some b.owner ∈ n.children) := by
  unfold declaredIn at h
  split at h
  next => exact (declares_of_mem_functionBindings h).imp_right fun h h' => absurd h' h
  next body hbody =>
    obtain ⟨s, hs, hb⟩ := List.mem_flatMap.1 h
    rw [declaredBy_eq hk] at hb
    obtain ⟨hdecl, howner⟩ := mem_declaredUpTo_zero hb
    refine ⟨hdecl, fun hmod => ?_⟩
    obtain ⟨n, hn, hst⟩ := Option.bind_eq_some_iff.1 hbody
    have hl : n.isList = true := by rw [Node.isList, hst]; rfl
    obtain ⟨body', hst', hch⟩ := Node.exists_statements hl
    obtain rfl : body = body' := Option.some.inj (hst.symm.trans hst')
    have himport : f.nodeIs Node.isImport (some (f.exported s)) = true := by
      obtain ⟨specifiers, source, hi, -⟩ := hdecl.import_of_module hmod
      rw [← howner, nodeIs, hi]
      rfl
    refine ⟨n, hn, hl, ?_⟩
    rw [howner, exported_of_import hk himport, hch]
    simpa using hs

theorem mem_hoistedInto (hk : f.Kinded) (h : b ∈ f.hoistedInto i) :
    f.Declares b ∧ b.kind ≠ .module := by
  unfold hoistedInto at h
  split at h
  next => cases h
  next body hbody =>
    dsimp only at h
    split at h
    next =>
      obtain ⟨s, -, hb⟩ := List.mem_flatMap.1 h
      exact mem_hoistedUpTo hk hb
    next => cases h

/-- What a scope binds is declared, and what an import binds is bound in the list that it stands
in. -/
theorem mem_bindingsOf (hk : f.Kinded) (h : b ∈ f.bindingsOf (some i)) :
    f.Declares b ∧ (b.kind = .module →
      ∃ n, f.node? (some i) = some n ∧ n.isList = true ∧ some b.owner ∈ n.children) := by
  rcases List.mem_append.1 h with h | h
  · exact mem_declaredIn hk h
  · exact (mem_hoistedInto hk h).imp_right fun h h' => absurd h' h

theorem mem_of_bindingIn? (hk : f.Kinded) (h : f.bindingIn? x i = some b) :
    b.name = x ∧ f.Declares b ∧ (b.kind = .module →
      ∃ n, f.node? (some i) = some n ∧ n.isList = true ∧ some b.owner ∈ n.children) := by
  rw [bindingIn?_eq_find?] at h
  exact ⟨by simpa using List.find?_some h, mem_bindingsOf hk (List.mem_of_find?_eq_some h)⟩

/-- What a name resolves to is bound by some scope above. -/
theorem exists_of_resolve? (hk : f.Kinded) (h : f.resolve? r x = some b) :
    ∃ i ∈ f.ancestors r, f.bindingIn? x i = some b ∧ b.name = x ∧ f.Declares b := by
  obtain ⟨i, hi, hb⟩ := List.exists_of_findSome?_eq_some h
  obtain ⟨hname, hdecl, -⟩ := mem_of_bindingIn? hk hb
  exact ⟨i, hi, hb, hname, hdecl⟩

theorem Declares.declaration_lt_size (h : f.Declares b) : b.declaration < f.size := by
  obtain ⟨n, hn, -⟩ := h.mem_ownNames
  exact lt_size_of_node? hn

end Forest

end DebugGuard
