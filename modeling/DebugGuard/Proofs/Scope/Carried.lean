import DebugGuard.Proofs.Forest.Rooted
import DebugGuard.Proofs.Scope.Lookup
import DebugGuard.Settings.Basic

/-!
# Lookups in an expanded script

`Forest.Inlines f g c flags` says that the changes `c` put constants in the place of some imports and
nothing in the place of others.  Then each binding of the script but those of removed imports is
carried over, as it is or as the constant for its specifier (`Binding.Carried`), and a lookup in the
expanded script follows the one in the script as it was parsed.
-/

namespace DebugGuard

namespace Forest

/-- The new declaration `const name = value;`. -/
structure IsConstant (f g : Forest) (d declarator : Nat) (name : String) (value : Literal) :
    Prop where
  declaration : f.Added g d (.varDeclaration .const [some declarator])
  init : ∃ l, f.Added g declarator (.declarator name (some l)) ∧ f.Added g l (.literal value)

/-- The constant for an import specifier. -/
def IsFlag (f g : Forest) (flags : Flags) (s d declarator : Nat) : Prop :=
  ∃ name flag value, f.localName? (some s) = some name ∧ f.importedName? (some s) = some flag ∧
    flags.find? flag = some value ∧ f.IsConstant g d declarator name value

/-- Constants for import specifiers, in their order. -/
def AreFlags (f g : Forest) (flags : Flags) (specifiers : List Ref) (ds : List Nat) : Prop :=
  List.Forall₂ (fun r d => ∃ s declarator, r = some s ∧ IsFlag f g flags s d declarator)
    specifiers ds

/-- Only imports in lists are replaced: by constants if they have flags, by nothing if they have
none.  In front of the script stand constants only. -/
structure Inlines (f g : Forest) (c : Changes) (flags : Nat → Option Flags) : Prop where
  replaced : ∀ ⦃i ds⦄, c.replaced i = some ds → ∃ specifiers source,
    f.node? (some i) = some (.importFrom specifiers source) ∧
      (flags i).elim (ds = []) fun flags => AreFlags f g flags specifiers ds
  listed : ∀ ⦃i ds⦄, c.replaced i = some ds → f.Listed i
  front : ∀ d ∈ c.front, ∃ declarator name value, f.IsConstant g d declarator name value

end Forest

/-- A binding of the import is there in some form after the changes. -/
def Changes.keeps (c : Changes) (flags : Nat → Option Flags) (i : Nat) : Bool :=
  (c.replaced i).isNone || (flags i).isSome

/-- What has become of a binding: it is still there, or it is a constant now. -/
def Binding.Carried (f g : Forest) (c : Changes) (flags : Nat → Option Flags)
    (b b' : Binding) : Prop :=
  b'.name = b.name ∧
    ((c.replaced b.owner = none ∧ b' = b) ∨
      ∃ specifiers source ds fl, f.node? (some b.owner) = some (.importFrom specifiers source) ∧
        c.replaced b.owner = some ds ∧ flags b.owner = some fl ∧
        (some b.declaration, b'.owner) ∈ specifiers.zip ds ∧ b'.kind = .constant ∧
        Forest.IsFlag f g fl b.declaration b'.owner b'.declaration)

/-- A lookup after the changes follows the one before: what was unbound still is, and what was bound
is bound to what has become of its binding, unless the import has been removed. -/
def Binding.Follows (f g : Forest) (c : Changes) (flags : Nat → Option Flags)
    (o o' : Option Binding) : Prop :=
  (o = none → o' = none) ∧
    ∀ b, o = some b → c.keeps flags b.owner = true →
      ∃ b', o' = some b' ∧ Carried f g c flags b b'

/-! ### Lists that agree -/

section

variable {α β : Type} {R : α → β → Prop} {l : List α} {l' : List β}

theorem exists_of_forall₂ {b : β} (h : List.Forall₂ R l l') (hb : b ∈ l') :
    ∃ a ∈ l, R a b := by
  induction h with
  | nil => cases hb
  | @cons a b' l l' hab _ ih =>
    rcases List.mem_cons.1 hb with rfl | hb
    · exact ⟨a, by simp, hab⟩
    · obtain ⟨a', ha', hR⟩ := ih hb
      exact ⟨a', by simp [ha'], hR⟩

theorem exists_of_mem_forall₂ {a : α} (h : List.Forall₂ R l l') (ha : a ∈ l) :
    ∃ b ∈ l', R a b :=
  exists_of_forall₂ (List.Forall₂.flip h) ha

theorem forall₂_and_mem_zip (h : List.Forall₂ R l l') :
    List.Forall₂ (fun a b => R a b ∧ (a, b) ∈ l.zip l') l l' := by
  induction h with
  | nil => exact .nil
  | cons hab _ ih => exact .cons ⟨hab, by simp⟩ (ih.imp fun a b h => ⟨h.1, by simp [h.2]⟩)

theorem flatMap_filter {p : α → Bool} {F : α → List β} :
    (l.filter p).flatMap F = l.flatMap fun a => if p a then F a else [] := by
  induction l with
  | nil => rfl
  | cons a l ih =>
    rw [List.filter_cons, List.flatMap_cons, ← ih]
    split <;> rfl

/-- Searches with tests that agree find things that agree. -/
theorem find?_forall₂ {p : α → Bool} {q : β → Bool} (hpq : ∀ a b, R a b → p a = q b)
    (h : List.Forall₂ R l l') : Option.Rel R (l.find? p) (l'.find? q) := by
  induction h with
  | nil => exact .none
  | @cons a b l l' hab _ ih =>
    rw [List.find?_cons, List.find?_cons, ← hpq a b hab]
    cases p a with
    | true => exact .some hab
    | false => exact ih

theorem find?_filter_of_pos {p q : α → Bool} {a : α} (h : l.find? p = some a) (hq : q a = true) :
    (l.filter q).find? p = some a := by
  induction l with
  | nil => cases h
  | cons b l ih =>
    rw [List.find?_cons] at h
    rw [List.filter_cons]
    cases hp : p b with
    | true =>
      rw [hp] at h
      obtain rfl : b = a := Option.some.inj h
      rw [if_pos hq, List.find?_cons, hp]
    | false =>
      rw [hp] at h
      split
      · rw [List.find?_cons, hp]
        exact ih h
      · exact ih h

end

namespace Changes

/-- Lists that agree statement by statement agree as a whole. -/
theorem forall₂_list {α β : Type} {R : α → β → Prop} {F : Nat → List α} {F' : Nat → List β}
    {c : Changes} {body : List Ref}
    (hold : ∀ i, some i ∈ body → c.replaced i = none → List.Forall₂ R (F i) (F' i))
    (hnew : ∀ i ds, some i ∈ body → c.replaced i = some ds →
      List.Forall₂ R (F i) (ds.flatMap F')) :
    List.Forall₂ R ((body.filterMap id).flatMap F) (((c.list body).filterMap id).flatMap F') := by
  induction body with
  | nil => exact .nil
  | cons r body ih =>
    have htail := ih (fun i hi => hold i (.tail _ hi)) fun i ds hi => hnew i ds (.tail _ hi)
    rw [list_cons, List.filterMap_append, List.flatMap_append]
    cases r with
    | none => simpa [place] using htail
    | some i =>
      show List.Forall₂ R (F i ++ _) _
      refine List.rel_append ?_ htail
      cases hr : c.replaced i with
      | none => simpa [place, hr] using hold i (by simp) hr
      | some ds => simpa [place, hr, List.filterMap_map] using hnew i ds (by simp) hr

end Changes

namespace Forest

/-- What takes the place of an import is constants. -/
theorem Inlines.isConstant {f g : Forest} {c : Changes} {flags : Nat → Option Flags}
    (hc : Inlines f g c flags) {i d : Nat} {ds : List Nat} (hr : c.replaced i = some ds)
    (hd : d ∈ ds) : ∃ declarator name value, f.IsConstant g d declarator name value := by
  obtain ⟨specifiers, source, -, hds⟩ := hc.replaced hr
  cases hf : flags i with
  | none =>
    rw [hf] at hds
    obtain rfl : ds = [] := hds
    cases hd
  | some fl =>
    rw [hf] at hds
    have hds : AreFlags f g fl specifiers ds := hds
    obtain ⟨r, -, s, declarator, -, name, flag, value, -, -, -, hconst⟩ := exists_of_forall₂ hds hd
    exact ⟨declarator, name, value, hconst⟩

/-- Guards do not matter. -/
theorem Inlines.congr {f g : Forest} {c c' : Changes} {flags : Nat → Option Flags}
    (hc : Inlines f g c flags) (hr : c'.replaced = c.replaced) (hf : c'.front = c.front) :
    Inlines f g c' flags where
  replaced := hr ▸ hc.replaced
  listed := hr ▸ hc.listed
  front := hf ▸ hc.front

/-- Only imports are replaced. -/
theorem Inlines.replaced_eq_none {f g : Forest} {c : Changes} {flags : Nat → Option Flags}
    (hc : Inlines f g c flags) {i : Nat} {n : Node Ref} (hn : f.node? (some i) = some n)
    (himport : n.isImport = false) : c.replaced i = none := by
  cases hr : c.replaced i with
  | none => rfl
  | some ds =>
    obtain ⟨specifiers, source, hi, -⟩ := hc.replaced hr
    obtain rfl := Option.some.inj (hi.symm.trans hn)
    cases himport

/-- What is replaced holds specifiers only. -/
theorem Inlines.replaced_parent {f g : Forest} {c : Changes} {flags : Nat → Option Flags}
    {root : Nat} (hc : Inlines f g c flags) (hp : f.Parsed root) {i p : Nat} {n : Node Ref}
    (hn : f.node? (some i) = some n) (hspec : n.isSpecifier = false)
    (hip : f.parentOf (some i) = some p) : c.replaced p = none := by
  cases hr : c.replaced p with
  | none => rfl
  | some ds =>
    obtain ⟨specifiers, source, hp', -⟩ := hc.replaced hr
    obtain ⟨m, hm, hmem⟩ := hp.of_parentOf hip
    obtain rfl := Option.some.inj (hp'.symm.trans hm)
    obtain ⟨-, -, n', hn', htakes⟩ := hp.of_mem_children hp' hmem
    obtain rfl := Option.some.inj (hn'.symm.trans hn)
    exact absurd (hspec.symm.trans htakes) Bool.false_ne_true

/-- In the parsed script, a lookup passes from what a statement lends to the statement. -/
theorem Lends.resolve?_eq {f : Forest} {keep : Prop} {root s i : Nat} {x : String}
    (h : f.Lends keep s i) (hp : f.Parsed root) :
    f.resolve? (some i) x = (f.bindingIn? x i).or (f.resolve? (some s) x) := by
  obtain ⟨l, hl⟩ := (hp.leads_root (h.lt_size hp)).exists_way hp.top
  obtain ⟨call, callee, args, hs, hc, hcs, ⟨-, hi⟩ | ⟨-, rfl⟩⟩ := h.call hp
  · obtain ⟨l', hl'⟩ := (hp.leads_root (lt_size_of_node? hc)).exists_way hp.top
    rw [resolve?_up hl, hi, resolve?_up hl', bindingIn?_eq_none hc rfl, Option.none_or, hcs]
  · rw [resolve?_up hl, hcs]

/-- One more import is replaced. -/
theorem Inlines.replace {f g : Forest} {c : Changes} {flags : Nat → Option Flags}
    (hc : Inlines f g c flags) {i : Nat} {ds : List Nat} {specifiers : List Ref} {source : String}
    (hn : f.node? (some i) = some (.importFrom specifiers source)) (hlisted : f.Listed i)
    (hds : (flags i).elim (ds = []) fun flags => AreFlags f g flags specifiers ds) :
    Inlines f g (c.replace i ds) flags where
  replaced j ds' hr := by
    rw [Changes.replaced_replace] at hr
    split at hr
    next hj =>
      cases hr
      exact ⟨specifiers, source, hj ▸ hn, hj ▸ hds⟩
    next => exact hc.replaced hr
  listed j ds' hr := by
    rw [Changes.replaced_replace] at hr
    split at hr
    next hj => exact hj ▸ hlisted
    next => exact hc.listed hr
  front := hc.front

namespace Graft

variable {f g : Forest} {keep : Prop} {c : Changes} {site : Nat → Nat} {loose : Set Nat}
  {flags : Nat → Option Flags} {root i j k p s : Nat} {n : Node Ref} {x : String}
  {b b' : Binding}

/-! ### Nodes of the script -/

theorem nodeIs_eq (h : Graft f keep c site loose g) {q : Node Ref → Bool}
    (hq : ∀ n, q (c.node i n) = q n) (hi : i < f.size) :
    g.nodeIs q (some i) = f.nodeIs q (some i) := by
  rw [nodeIs, h.old hi, nodeIs]
  cases f.node? (some i) with
  | none => rfl
  | some n => exact hq n

/-- A question that the changes do not touch has the answer that it had. -/
theorem ask_eq (h : Graft f keep c site loose g) {α : Type} {q : Node Ref → Option α}
    (hq : ∀ n, q (c.node i n) = q n) (hi : i < f.size) :
    (g.node? (some i)).bind q = (f.node? (some i)).bind q := by
  rw [h.old hi]
  cases f.node? (some i) with
  | none => rfl
  | some n => exact hq n

theorem localName?_eq (h : Graft f keep c site loose g) (hi : i < f.size) :
    g.localName? (some i) = f.localName? (some i) :=
  h.ask_eq (fun _ => Changes.localName?_node) hi

theorem importedName?_eq (h : Graft f keep c site loose g) (hi : i < f.size) :
    g.importedName? (some i) = f.importedName? (some i) :=
  h.ask_eq (fun _ => Changes.importedName?_node) hi

theorem importSource?_eq (h : Graft f keep c site loose g) (hi : i < f.size) :
    g.importSource? (some i) = f.importSource? (some i) :=
  h.ask_eq (fun _ => Changes.importSource?_node) hi

theorem stringValue?_eq (h : Graft f keep c site loose g) (hi : i < f.size) :
    g.stringValue? (some i) = f.stringValue? (some i) :=
  h.ask_eq (fun _ => Changes.stringValue?_node) hi

theorem exported_eq (h : Graft f keep c site loose g) (hi : i < f.size) :
    g.exported i = f.exported i := by
  unfold exported
  rw [h.old hi]
  cases hn : f.node? (some i) with
  | none => rfl
  | some n => cases n <;> rfl

theorem declaredUpTo_eq (h : Graft f keep c site loose g) (hp : f.Parsed root) (hi : i < f.size) :
    g.declaredUpTo 0 i = f.declaredUpTo 0 i := by
  rw [declaredUpTo, declaredUpTo, h.old hi]
  cases hn : f.node? (some i) with
  | none => rfl
  | some n =>
    have hchild {k : Nat} (hk : some k ∈ n.children) : k < f.size := by
      have := (hp.of_mem_children hn hk).1
      omega
    cases n
    case importFrom specifiers source =>
      refine List.filterMap_congr fun k hk => ?_
      rw [h.localName?_eq (hchild (by simpa [Node.children] using hk))]
    case varDeclaration keyword declarators =>
      refine List.filterMap_congr fun k hk => ?_
      rw [h.old (hchild (by simpa [Node.children] using hk))]
      cases f.node? (some k) with
      | none => rfl
      | some m => cases m <;> rfl
    case exportDeclaration e => cases e <;> rfl
    all_goals rfl

/-- A statement of the script declares what it did. -/
theorem declaredBy_eq (h : Graft f keep c site loose g) (hp : f.Parsed root) (hi : i < f.size) :
    g.declaredBy i = f.declaredBy i := by
  have he : f.exported i < f.size := by
    unfold exported
    split
    next d hn =>
      have := (hp.of_mem_children hn (i := d) (by simp [Node.children])).1
      omega
    next => exact hi
  rw [Forest.declaredBy_eq h.kinded, Forest.declaredBy_eq hp.kinded, h.exported_eq hi,
    h.declaredUpTo_eq hp he]

/-! ### Hoisting -/

theorem hoistedVia_constant {d declarator fuel : Nat} {name : String} {value : Literal}
    (hk : g.Kinded) (hd : f.IsConstant g d declarator name value) : g.hoistedVia fuel d = [] := by
  unfold hoistedVia
  rw [hoistedUpTo_eq_nil hk hd.declaration.2 rfl, hd.declaration.2]
  split <;> rfl

theorem hoistedVia_import {fuel : Nat} {specifiers : List Ref} {source : String} (hk : f.Kinded)
    (hi : f.node? (some i) = some (.importFrom specifiers source)) : f.hoistedVia fuel i = [] := by
  unfold hoistedVia
  rw [hoistedUpTo_eq_nil hk hi rfl, hi]
  split <;> rfl

theorem hoistedVia_eq (h : Graft f keep c site loose g) (hp : f.Parsed root) {fuel fuel' : Nat}
    (hi : i < f.size) (hrec : g.hoistedUpTo fuel i = f.hoistedUpTo fuel' i) :
    g.hoistedVia fuel i = f.hoistedVia fuel' i := by
  unfold hoistedVia
  rw [h.nodeIs_eq (fun _ => Changes.isFunction_node) hi, h.old hi, hrec, h.declaredBy_eq hp hi]
  cases f.node? (some i) with
  | none => rfl
  | some n => cases n <;> rfl

/-- Of the statements of a list, those that are new or that are gone hoist nothing. -/
theorem hoistedVia_list (h : Graft f keep c site loose g) (hp : f.Parsed root)
    (hc : Inlines f g c flags) {fuel fuel' : Nat} {body : List Ref}
    (hbody : ∀ i, some i ∈ body → i < f.size)
    (hrec : ∀ i, some i ∈ body → g.hoistedUpTo fuel i = f.hoistedUpTo fuel' i) :
    ((c.list body).filterMap id).flatMap (g.hoistedVia fuel) =
      (body.filterMap id).flatMap (f.hoistedVia fuel') := by
  rw [eq_comm, ← List.forall₂_eq_eq_eq]
  refine Changes.forall₂_list (fun i hi hr => ?_) fun i ds hi hr => ?_
  · rw [h.hoistedVia_eq hp (hbody i hi) (hrec i hi), List.forall₂_eq_eq_eq]
  · obtain ⟨specifiers, source, hn, -⟩ := hc.replaced hr
    rw [List.forall₂_eq_eq_eq, hoistedVia_import hp.kinded hn, eq_comm, List.flatMap_eq_nil_iff]
    intro d hd
    obtain ⟨declarator, name, value, hconst⟩ := hc.isConstant hr hd
    exact hoistedVia_constant h.kinded hconst

theorem flatMap_hoistedVia_front (h : Graft f keep c site loose g) (hc : Inlines f g c flags)
    {fuel : Nat} : (c.frontOf n).flatMap (g.hoistedVia fuel) = [] := by
  rw [List.flatMap_eq_nil_iff]
  intro d hd
  obtain ⟨declarator, name, value, hconst⟩ := hc.front d (Changes.mem_front hd)
  exact hoistedVia_constant h.kinded hconst

theorem hoistedUpTo_eq (h : Graft f keep c site loose g) (hp : f.Parsed root)
    (hc : Inlines f g c flags) {fuel fuel' : Nat} (hi : i < f.size) (hfuel : i < fuel)
    (hfuel' : i < fuel') : g.hoistedUpTo fuel i = f.hoistedUpTo fuel' i := by
  induction i using Nat.strong_induction_on generalizing fuel fuel' with
  | _ i ih =>
    obtain ⟨n, hn⟩ := exists_node? (has_some.2 hi)
    have hgn : g.node? (some i) = some (c.node i n) := by rw [h.old hi, hn, Option.map_some]
    -- Below most nodes nothing is hoisted; the others are gone through child by child.
    by_cases hm : n.mayHoist = false
    · rw [hoistedUpTo_eq_nil hp.kinded hn hm]
      refine hoistedUpTo_eq_nil h.kinded hgn ?_
      cases n <;> exact hm
    · obtain ⟨fuel, rfl⟩ : ∃ k, fuel = k + 1 := ⟨fuel - 1, by omega⟩
      obtain ⟨fuel', rfl⟩ : ∃ k, fuel' = k + 1 := ⟨fuel' - 1, by omega⟩
      have hlt {k : Nat} (hk : some k ∈ n.children) : k < i := (hp.of_mem_children hn hk).1
      have hrec (k : Nat) (hk : some k ∈ n.children) :
          g.hoistedUpTo fuel k = f.hoistedUpTo fuel' k := by
        have := hlt hk
        exact ih k this (by omega) (by omega) (by omega)
      rw [hoistedUpTo_succ, hoistedUpTo_succ, childrenOf, childrenOf, hgn, hn]
      show ((c.node i n).children.filterMap id).flatMap _ = (n.children.filterMap id).flatMap _
      cases hl : n.isList with
      | true =>
        rw [Changes.children_node hl, List.filterMap_append, List.flatMap_append,
          h.hoistedVia_list hp hc (fun k hk => Nat.lt_trans (hlt hk) hi) hrec]
        rw [Changes.filterMap_frontOf, h.flatMap_hoistedVia_front hc, List.nil_append]
      | false =>
        have he : n.isExpressionStatement = false := by
          cases n <;> first | rfl | exact absurd rfl hm
        rw [Changes.node_eq hl he]
        refine List.flatMap_congr fun k hk => ?_
        have hk : some k ∈ n.children := by simpa using hk
        exact h.hoistedVia_eq hp (Nat.lt_trans (hlt hk) hi) (hrec k hk)

/-! ### Bindings -/

theorem carried_self (h : c.replaced b.owner = none) : b.Carried f g c flags b :=
  ⟨rfl, .inl ⟨h, rfl⟩⟩

/-- Bindings of statements that stay are all kept. -/
theorem forall₂_carried_self {l : List Binding} (h : ∀ b ∈ l, c.replaced b.owner = none) :
    List.Forall₂ (Binding.Carried f g c flags) (l.filter fun b => c.keeps flags b.owner) l := by
  rw [List.filter_eq_self.2 fun b hb => by simp [Changes.keeps, h b hb]]
  exact List.forall₂_same.2 fun b hb => carried_self (h b hb)

/-- Only imports are replaced, so what no import binds is kept. -/
theorem replaced_owner (hc : Inlines f g c flags) (hb : f.Declares b) (hk : b.kind ≠ .module) :
    c.replaced b.owner = none := by
  cases hb with
  | specifier => exact absurd rfl hk
  | var hi | function hi | self hi => exact hc.replaced_eq_none hi rfl
  | @parameter _ _ n hi hfun =>
    refine hc.replaced_eq_none hi ?_
    cases n <;> first | rfl | cases hfun

theorem declaredBy_constant {d declarator : Nat} {name : String} {value : Literal}
    (hk : g.Kinded) (hd : f.IsConstant g d declarator name value) :
    g.declaredBy d = [⟨name, .constant, declarator, d⟩] := by
  obtain ⟨l, hbound, -⟩ := hd.init
  have he : g.exported d = d := by rw [exported, hd.declaration.2]
  rw [Forest.declaredBy_eq hk, he, declaredUpTo, hd.declaration.2]
  simp [hbound.2, BindingKind.ofKeyword]

/-- What an import binds is carried over by the constants for it. -/
theorem carried_import (h : Graft f keep c site loose g) (hp : f.Parsed root)
    (hc : Inlines f g c flags) {ds : List Nat} (hr : c.replaced i = some ds) :
    List.Forall₂ (Binding.Carried f g c flags)
      ((f.declaredBy i).filter fun b => c.keeps flags b.owner) (ds.flatMap g.declaredBy) := by
  obtain ⟨specifiers, source, hn, hds⟩ := hc.replaced hr
  have he : f.exported i = i := by rw [exported, hn]
  have hdecl : f.declaredBy i = (specifiers.filterMap id).filterMap fun (s : Nat) =>
      (f.localName? s).map fun name => ⟨name, .module, s, i⟩ := by
    rw [Forest.declaredBy_eq hp.kinded, he, declaredUpTo, hn]
  have howner {b : Binding} (hb : b ∈ f.declaredBy i) : b.owner = i := by
    rw [Forest.declaredBy_eq hp.kinded, he] at hb
    exact (mem_declaredUpTo_zero hb).2
  cases hf : flags i with
  | none =>
    rw [hf] at hds
    obtain rfl : ds = [] := hds
    have hnil : (f.declaredBy i).filter (fun b => c.keeps flags b.owner) = [] := by
      rw [List.filter_eq_nil_iff]
      intro b hb
      simp [howner hb, Changes.keeps, hr, hf]
    rw [hnil]
    exact .nil
  | some fl =>
    rw [hf] at hds
    replace hds : AreFlags f g fl specifiers ds := hds
    have hall : (f.declaredBy i).filter (fun b => c.keeps flags b.owner) = f.declaredBy i := by
      rw [List.filter_eq_self]
      intro b hb
      simp [howner hb, Changes.keeps, hf]
    have hcarried (name : String) (s d declarator : Nat) (hz : (some s, d) ∈ specifiers.zip ds)
        (hflag : IsFlag f g fl s d declarator) :
        Binding.Carried f g c flags ⟨name, .module, s, i⟩ ⟨name, .constant, declarator, d⟩ :=
      ⟨rfl, .inr ⟨specifiers, source, ds, fl, hn, hr, hf, hz, rfl, hflag⟩⟩
    rw [hall, hdecl]
    -- The specifiers are gone through one by one, but each keeps its place among all of them.
    have hzip := forall₂_and_mem_zip hds
    generalize specifiers.zip ds = pairs at hzip hcarried
    clear hdecl hds hn hr
    induction hzip with
    | nil => exact .nil
    | @cons r d specifiers ds hrd _ ih =>
      obtain ⟨⟨s, declarator, rfl, hflag⟩, hz⟩ := hrd
      have hflag' := id hflag
      obtain ⟨name, flag, value, hname, -, -, hconst⟩ := hflag'
      rw [List.flatMap_cons, declaredBy_constant h.kinded hconst]
      simp only [List.filterMap_cons, id, hname, Option.map_some]
      exact .cons (hcarried name s d declarator hz hflag) ih

/-- What the statements of a list declare is carried over, behind what stands in front of it. -/
theorem carried_declaredIn (h : Graft f keep c site loose g) (hp : f.Parsed root)
    (hc : Inlines f g c flags) (hn : f.node? (some i) = some n) :
    ∃ bs, g.declaredIn i = (c.frontOf n).flatMap g.declaredBy ++ bs ∧
      List.Forall₂ (Binding.Carried f g c flags)
        ((f.declaredIn i).filter fun b => c.keeps flags b.owner) bs := by
  have hi : i < f.size := lt_size_of_node? hn
  have hgn : g.node? (some i) = some (c.node i n) := by rw [h.old hi, hn, Option.map_some]
  cases hl : n.isList with
  | true =>
    obtain ⟨body, hst, hch⟩ := Node.exists_statements hl
    have hf : f.declaredIn i = (n.children.filterMap id).flatMap f.declaredBy := by
      rw [declaredIn, statements?, hn, Option.bind_some, hst, ← hch]
    have hg : g.declaredIn i = (c.frontOf n).flatMap g.declaredBy ++
        ((c.list n.children).filterMap id).flatMap g.declaredBy := by
      rw [declaredIn, statements?, hgn, Option.bind_some, Changes.statements?_node hl]
      simp only [List.filterMap_append, Changes.filterMap_frontOf, List.flatMap_append]
    refine ⟨_, hg, ?_⟩
    rw [hf, List.filter_flatMap]
    refine Changes.forall₂_list (fun s hs hr => ?_) fun s ds _ hr => h.carried_import hp hc hr
    have hsf : s < f.size := Nat.lt_trans (hp.of_mem_children hn hs).1 hi
    rw [h.declaredBy_eq hp hsf]
    have hkept {b : Binding} (hb : b ∈ f.declaredBy s) : c.replaced b.owner = none := by
      rw [Forest.declaredBy_eq hp.kinded] at hb
      obtain ⟨hdecl, howner⟩ := mem_declaredUpTo_zero hb
      cases hk : f.nodeIs Node.isImport (some (f.exported s)) with
      | true => rw [howner, exported_of_import hp.kinded hk, hr]
      | false =>
        refine replaced_owner hc hdecl fun hmod => ?_
        obtain ⟨specifiers, source, hn', -⟩ := hdecl.import_of_module hmod
        rw [← howner, nodeIs, hn'] at hk
        cases hk
    exact forall₂_carried_self fun b hb => hkept hb
  | false =>
    have hst : n.statements? = none := by
      simpa [Node.isList] using hl
    have hf : f.declaredIn i = f.functionBindings i := by
      rw [declaredIn, statements?, hn, Option.bind_some, hst]
    have hg : g.declaredIn i = f.functionBindings i := by
      have hst' : (c.node i n).statements? = none := by
        cases n <;> first | rfl | cases hst
      rw [declaredIn, statements?, hgn, Option.bind_some, hst', functionBindings,
        functionBindings, hgn, hn]
      cases n <;> rfl
    have hfront : c.frontOf n = [] := by
      cases n <;> first | rfl | cases hl
    refine ⟨f.functionBindings i, by rw [hg, hfront]; rfl, ?_⟩
    have hkept {b : Binding} (hb : b ∈ f.functionBindings i) : c.replaced b.owner = none := by
      obtain ⟨hdecl, hk⟩ := declares_of_mem_functionBindings hb
      exact replaced_owner hc hdecl hk
    rw [hf]
    exact forall₂_carried_self fun b hb => hkept hb

/-- What is hoisted into a scope stays, if the scope hangs where it was. -/
theorem hoistedInto_eq (h : Graft f keep c site loose g) (hp : f.Parsed root)
    (hc : Inlines f g c flags) (hn : f.node? (some i) = some n)
    (hparent : n.isList = true → g.parentOf (some i) = f.parentOf (some i)) :
    g.hoistedInto i = f.hoistedInto i := by
  have hi : i < f.size := lt_size_of_node? hn
  have hgn : g.node? (some i) = some (c.node i n) := by rw [h.old hi, hn, Option.map_some]
  cases hl : n.isList with
  | false =>
    have hst : n.statements? = none := by
      simpa [Node.isList] using hl
    have hst' : (c.node i n).statements? = none := by
      cases n <;> first | rfl | cases hst
    rw [hoistedInto, hoistedInto, statements?, statements?, hgn, hn, Option.bind_some,
      Option.bind_some, hst, hst']
  | true =>
    obtain ⟨body, hst, hch⟩ := Node.exists_statements hl
    have hlt {s : Nat} (hs : some s ∈ n.children) : s < f.size :=
      Nat.lt_trans (hp.of_mem_children hn hs).1 hi
    -- What it takes depends on the parent only, and neither constants nor imports hoist anything.
    have htakes : g.takesHoisted (some i) = f.takesHoisted (some i) := by
      rw [takesHoisted, takesHoisted, hparent hl, h.nodeIs_eq ?_ hi]
      · cases hfp : f.parentOf (some i) with
        | none => rfl
        | some p =>
          rw [h.nodeIs_eq (fun _ => Changes.isFunction_node) (hp.lt_size_of_parentOf hfp)]
      · intro m
        cases m <;> rfl
    have hnil {d : Nat} (hd : ∃ declarator name value, f.IsConstant g d declarator name value) :
        g.hoistedFrom d = [] := by
      obtain ⟨declarator, name, value, hconst⟩ := hd
      exact hoistedUpTo_eq_nil h.kinded hconst.declaration.2 rfl
    rw [hoistedInto, hoistedInto, statements?, statements?, hgn, hn, Option.bind_some,
      Option.bind_some, Changes.statements?_node hl, hst, ← hch]
    simp only [htakes, List.filterMap_append, Changes.filterMap_frontOf, flatMap_filter,
      List.flatMap_append]
    split
    next =>
      have hf : ((c.frontOf n).flatMap fun s =>
          if (!g.nodeIs (fun n => n.isFunction || n.isExport) (some s)) = true then g.hoistedFrom s
          else []) = [] := by
        rw [List.flatMap_eq_nil_iff]
        intro d hd
        rw [hnil (hc.front d (Changes.mem_front hd)), ite_self]
      rw [hf, List.nil_append, eq_comm, ← List.forall₂_eq_eq_eq]
      refine Changes.forall₂_list (fun s hs hr => ?_) fun s ds hs hr => ?_
      · rw [List.forall₂_eq_eq_eq, h.nodeIs_eq ?_ (hlt hs), hoistedFrom, hoistedFrom,
          h.hoistedUpTo_eq hp hc (hlt hs) (Nat.lt_of_lt_of_le (hlt hs) h.size_le) (hlt hs)]
        intro m
        rw [Changes.isFunction_node, Changes.isExport_node]
      · obtain ⟨specifiers, source, hs', -⟩ := hc.replaced hr
        rw [List.forall₂_eq_eq_eq, hoistedFrom, hoistedUpTo_eq_nil hp.kinded hs' rfl, ite_self,
          eq_comm, List.flatMap_eq_nil_iff]
        intro d hd
        rw [hnil (hc.isConstant hr hd), ite_self]
    next => rfl

theorem carried_bindingsOf (h : Graft f keep c site loose g) (hp : f.Parsed root)
    (hc : Inlines f g c flags) (hn : f.node? (some i) = some n)
    (hparent : n.isList = true → g.parentOf (some i) = f.parentOf (some i)) :
    ∃ bs, g.bindingsOf (some i) = (c.frontOf n).flatMap g.declaredBy ++ bs ∧
      List.Forall₂ (Binding.Carried f g c flags)
        ((f.bindingsOf (some i)).filter fun b => c.keeps flags b.owner) bs := by
  obtain ⟨bs, hbs, hcarried⟩ := h.carried_declaredIn hp hc hn
  refine ⟨bs ++ g.hoistedInto i, ?_, ?_⟩
  · rw [bindingsOf, Option.elim_some, hbs, List.append_assoc]
  · rw [bindingsOf, Option.elim_some, List.filter_append, h.hoistedInto_eq hp hc hn hparent]
    refine List.rel_append hcarried ?_
    have hkept {b : Binding} (hb : b ∈ f.hoistedInto i) : c.replaced b.owner = none := by
      obtain ⟨hdecl, hk⟩ := mem_hoistedInto hp.kinded hb
      exact replaced_owner hc hdecl hk
    exact forall₂_carried_self fun b hb => hkept hb

/-! ### Lookups -/

theorem follows_none : Binding.Follows f g c flags none none :=
  ⟨fun _ => rfl, nofun⟩

theorem follows_or {o₁ o₁' o₂ o₂' : Option Binding} (h₁ : Binding.Follows f g c flags o₁ o₁')
    (h₂ : Binding.Follows f g c flags o₂ o₂') :
    Binding.Follows f g c flags (o₁.or o₂) (o₁'.or o₂') := by
  cases o₁ with
  | none =>
    rw [h₁.1 rfl]
    exact h₂
  | some b =>
    refine ⟨nofun, fun b' hb hkeep => ?_⟩
    obtain ⟨b'', rfl, hcarried⟩ := h₁.2 b' hb hkeep
    exact ⟨b'', rfl, hcarried⟩

theorem follows_findSome? {l : List Nat}
    (h : ∀ i ∈ l, Binding.Follows f g c flags (f.bindingIn? x i) (g.bindingIn? x i)) :
    Binding.Follows f g c flags (l.findSome? (f.bindingIn? x)) (l.findSome? (g.bindingIn? x)) := by
  induction l with
  | nil => exact follows_none
  | cons i l ih =>
    have hor (k : Forest) : (i :: l).findSome? (k.bindingIn? x) =
        (k.bindingIn? x i).or (l.findSome? (k.bindingIn? x)) := by
      rw [List.findSome?_cons]
      cases k.bindingIn? x i <;> rfl
    rw [hor, hor]
    exact follows_or (h i (by simp)) (ih fun j hj => h j (.tail _ hj))

/-- A scope binds a name to what has become of its binding. -/
theorem follows_bindingIn? (h : Graft f keep c site loose g) (hp : f.Parsed root)
    (hc : Inlines f g c flags) (hn : f.node? (some i) = some n)
    (hparent : n.isList = true → g.parentOf (some i) = f.parentOf (some i))
    (hx : ∀ d ∈ c.frontOf n, ∀ b ∈ g.declaredBy d, b.name ≠ x) :
    Binding.Follows f g c flags (f.bindingIn? x i) (g.bindingIn? x i) := by
  obtain ⟨bs, hbs, hcarried⟩ := h.carried_bindingsOf hp hc hn hparent
  have hfront : ((c.frontOf n).flatMap g.declaredBy).find? (·.name == x) = none := by
    rw [List.find?_eq_none]
    intro b hb
    obtain ⟨d, hd, hb⟩ := List.mem_flatMap.1 hb
    simpa using hx d hd b hb
  rw [bindingIn?_eq_find?, bindingIn?_eq_find?, hbs, List.find?_append, hfront, Option.none_or]
  -- Old and new bindings agree in their names, so both searches stop at the same place.
  have hfind := find?_forall₂ (p := (·.name == x)) (q := (·.name == x))
    (fun b b' hbb => by rw [hbb.1]) hcarried
  constructor
  · intro hnone
    have : ((f.bindingsOf (some i)).filter fun b => c.keeps flags b.owner).find? (·.name == x) =
        none := by
      rw [List.find?_eq_none] at hnone ⊢
      exact fun b hb => hnone b (List.mem_of_mem_filter hb)
    rw [this] at hfind
    cases h : bs.find? (·.name == x) with
    | none => rfl
    | some b =>
      rw [h] at hfind
      cases hfind
  · intro b hb hkeep
    rw [find?_filter_of_pos (q := fun b => c.keeps flags b.owner) hb hkeep] at hfind
    cases h : bs.find? (·.name == x) with
    | none =>
      rw [h] at hfind
      cases hfind
    | some b' =>
      rw [h] at hfind
      cases hfind with
      | some hcarried => exact ⟨b', rfl, hcarried⟩

/-- A lookup on a way that has not changed follows the one before. -/
theorem follows_of_way (h : Graft f keep c site loose g) (hp : f.Parsed root)
    (hc : Inlines f g c flags) (hx : ∀ d ∈ c.front, ∀ b ∈ g.declaredBy d, b.name ≠ x) {r : Ref}
    {l : List Nat} (hl : f.Way r l)
    (hsame : ∀ i ∈ l, i < f.size ∧ g.parentOf (some i) = f.parentOf (some i)) :
    Binding.Follows f g c flags (f.resolve? r x) (g.resolve? r x) := by
  rw [resolve?_of_way hl, resolve?_of_way (hl.congr fun i hi => (hsame i hi).2)]
  refine follows_findSome? fun i hi => ?_
  obtain ⟨hlt, hparent⟩ := hsame i hi
  obtain ⟨n, hn⟩ := exists_node? (has_some.2 hlt)
  exact h.follows_bindingIn? hp hc hn (fun _ => hparent) fun d hd => hx d (Changes.mem_front hd)

/-- New nodes do not hold a lookup up. -/
theorem resolve?_site (h : Graft f keep c site ∅ g) (hp : f.Parsed root) (hj : f.size ≤ j)
    (hlt : j < g.size) (hroot : g.Leads j root) :
    g.resolve? (some j) x = g.resolve? (some (site j)) x := by
  have htop := h.parentOf_root hp
  have hrf : root < f.size := by
    have := hp.size_eq
    omega
  -- Parents of new nodes are younger, up to the site.
  induction hd : g.size - j using Nat.strong_induction_on generalizing j with
  | _ d ih =>
    obtain ⟨n, hn⟩ := exists_node? (has_some.2 hlt)
    obtain ⟨l, hl⟩ := hroot.exists_way htop
    rw [resolve?_up hl, bindingIn?_eq_none hn (h.plain hj hn), Option.none_or]
    rcases h.up hj hlt with ⟨-, hl⟩ | ⟨k, hk, hjk, hkg, hs⟩ | ⟨hs, -⟩
    · cases hl
    · rw [hk, ← hs]
      exact ih (g.size - k) (by omega) (by omega) hkg (hroot.of_parent (by omega) hk) rfl
    · rw [hs]

/-- A lookup from a node of the script follows the one before. -/
theorem follows_resolve? (h : Graft f keep c site ∅ g) (hp : f.Parsed root)
    (hc : Inlines f g c flags) (hx : ∀ d ∈ c.front, ∀ b ∈ g.declaredBy d, b.name ≠ x)
    (hi : i < f.size) (hroot : g.Leads i root) :
    Binding.Follows f g c flags (f.resolve? (some i) x) (g.resolve? (some i) x) := by
  have htop := h.parentOf_root hp
  have hsize := hp.size_eq
  -- Ways in the parsed script lead to higher numbers.
  induction hd : root - i using Nat.strong_induction_on generalizing i with
  | _ d ih =>
    obtain ⟨n, hn⟩ := exists_node? (has_some.2 hi)
    obtain ⟨lf, hlf⟩ := (hp.leads_root hi).exists_way hp.top
    obtain ⟨lg, hlg⟩ := hroot.exists_way htop
    have hbind : Binding.Follows f g c flags (f.bindingIn? x i) (g.bindingIn? x i) := by
      refine h.follows_bindingIn? hp hc hn (fun hl => h.parentOf_list hp hn hl hroot) fun d hd =>
        hx d (Changes.mem_front hd)
    by_cases hir : i = root
    · subst hir
      rw [resolve?_up hlf, resolve?_up hlg, htop, hp.top]
      exact follows_or hbind follows_none
    rcases h.stays hi with hs | hs | ⟨k, hk, hfk, hkg, hlends⟩
    · obtain ⟨p, m, hip, hm, hmem⟩ := hp.parent (i := i) (by omega)
      have hlt := (hp.of_mem_children hm hmem).1
      have hpf := lt_size_of_node? hm
      rw [resolve?_up hlf, resolve?_up hlg, hs, hip]
      refine follows_or hbind (ih (root - p) (by omega) hpf ?_ rfl)
      exact hroot.of_parent hir (hs.trans hip)
    · exact absurd hs (hroot.parentOf_ne_none hir)
    · -- A node that has been lent is looked up through new nodes first, and then from the statement.
      have hroot' := hroot.of_parent hir hk
      have hlt := hlends.lt_site hp
      have hsf := (h.leads_site hfk hkg).2
      rw [hlends.resolve?_eq hp, resolve?_up hlg, hk, h.resolve?_site hp hfk hkg hroot']
      exact follows_or hbind
        (ih (root - site k) (by omega) hsf (h.site_leads_root hp hfk hkg hroot') rfl)

end Graft

end Forest

end DebugGuard
