import DebugGuard.Proofs.Expand.Visit
import DebugGuard.Proofs.Forest.Parser
import DebugGuard.Proofs.Scope.Fresh

/-!
# Finishing a script

`Expansion f settings root gone flag c site g` says all that the pass does to a parsed script: what
has become of the imports, which calls are guarded, and what stands in front.  `exists_expansion`:
this is what the pass makes of every script on which it goes through.
-/

namespace DebugGuard

namespace Forest

/-- No node of the script declares the name or refers to it. -/
def Lacks (f : Forest) (x : String) : Prop :=
  ∀ ⦃i n⦄, f.node? (some i) = some n → x ∉ n.ownNames

/-- What stands in front of the expanded script: a constant for the flag, if calls need it. -/
def HasFront (f g : Forest) (settings : Settings) (flag : String) (front : List Nat) : Prop :=
  if f.queued settings f.size = [] then front = []
  else ∃ d declarator, front = [d] ∧ f.IsConstant g d declarator flag settings.debug

theorem HasFront.mono {f g g' : Forest} {settings : Settings} {flag : String} {front : List Nat}
    (hg : ∀ ⦃j n⦄, f.Added g j n → f.Added g' j n) (h : f.HasFront g settings flag front) :
    f.HasFront g' settings flag front := by
  unfold HasFront at h ⊢
  split at h
  next hq => rwa [if_pos hq]
  next hq =>
    obtain ⟨d, declarator, hfront, hconst⟩ := h
    rw [if_neg hq]
    exact ⟨d, declarator, hfront, hconst.mono hg⟩

end Forest

/-- The forest `g` is what an expansion makes of the parsed script `f`: imports of flags are
inlined, the import `gone` is removed, helper calls are guarded by `flag`. -/
structure Expansion (f : Forest) (settings : Settings) (root : Nat) (gone : Option Nat)
    (flag : String) (c : Changes) (site : Nat → Nat) (g : Forest) : Prop where
  graft : f.Graft settings.KeepsCalls c site ∅ g
  inlines : Forest.Inlines f g c (f.inlinedFlags? settings root)
  replaced : ∀ i, (c.replaced i).isSome = true ↔
    (f.inlinedFlags? settings root i).isSome = true ∨ gone = some i
  gone : ∀ i, gone = some i → f.inlinedFlags? settings root i = none
  guarded : ∀ s ∈ f.queued settings f.size,
    ∃ id e, c.guarded s = some e ∧ f.GuardsCall g settings flag s id e
  unguarded : ∀ s, s ∉ f.queued settings f.size → c.guarded s = none
  /-- The flag is imported. -/
  imported : ∀ b, f.flagBinding? settings root = some b → flag = debugName ∧ c.front = []
  /-- The flag is not imported. -/
  injected : f.flagBinding? settings root = none →
    f.Lacks flag ∧ f.HasFront g settings flag c.front
  /-- Every new node has been put somewhere. -/
  ledger : Forest.Ledger f.size [] g

open Forest

variable {f g g₁ : Forest} {settings : Settings} {root i s : Nat} {keep : Prop} {c : Changes}
  {site : Nat → Nat} {loose : Set Nat} {flags : Nat → Option Flags} {d d' : Draft} {e : Expander}
  {n : Node Ref} {x flag : String} {w w' : Work} {u : Unit}

/-- A lookup from the script itself follows the one before, even while nodes are loose. -/
theorem Forest.Graft.follows_root (h : f.Graft keep c site loose g) (hp : f.Parsed root)
    (hc : Inlines f g c flags) (hx : ∀ d ∈ c.front, ∀ b ∈ g.declaredBy d, b.name ≠ x) :
    Binding.Follows f g c flags (f.resolve? (some root) x) (g.resolve? (some root) x) := by
  have hway : f.Way (some root) [root] := .up (by rw [hp.top]; exact .top)
  refine h.follows_of_way hp hc hx hway fun i hi => ?_
  obtain rfl := List.mem_singleton.1 hi
  exact ⟨by rw [hp.size_eq]; omega, by rw [h.parentOf_root hp, hp.top]⟩

namespace Midway

/-! ### The flag -/

/-- The import of the debug flag is found as in the script, unless it has been inlined. -/
theorem flagImport?_eq (h : Midway f settings root f.size c d e) (hp : f.Parsed root) :
    Expand.flagImport? d.forest (some root) = f.flagBinding? settings root := by
  have hfollows := h.sound.follows_root hp h.inlines (x := debugName) (by simp [h.front])
  unfold flagBinding? Expand.flagImport?
  cases hb : f.resolve? (some root) debugName with
  | none =>
    rw [hfollows.1 hb]
    simp
  | some b =>
    obtain ⟨b', hb', hcarried⟩ := hfollows.2 b hb h.keeps
    obtain ⟨-, -, -, -, hdecl⟩ := exists_of_resolve? hp.kinded hb
    rw [hb']
    -- Features among the imports have been replaced, and nothing else.
    have hsource (source : String) (hs : b.source? f = some source) :
        b.owner < f.size ∧ f.importsFeature settings b.owner = settings.isFeatureSource source := by
      rw [Binding.source?] at hs
      split at hs
      next =>
        obtain ⟨n, hn, -⟩ := Option.bind_eq_some_iff.1 hs
        exact ⟨lt_size_of_node? hn, importsFeature_of_source hs⟩
      next => cases hs
    rcases hcarried.2 with ⟨hr, rfl⟩ | ⟨specifiers, source, ds, fl, hn, hr, -, -, hkind, -⟩
    · have hsame : b'.source? d.forest = b'.source? f := by
        unfold Binding.source?
        split
        next hk =>
          obtain ⟨specifiers, source, hn, -⟩ := hdecl.import_of_module hk
          exact h.sound.importSource?_eq (lt_size_of_node? hn)
        next => rfl
      by_cases hs : b'.source? f = some envFlagsModule
      · obtain ⟨hlt, hfeature⟩ := hsource _ hs
        have hnot : settings.isFeatureSource envFlagsModule = false := by
          rw [← hfeature, Bool.eq_false_iff]
          intro hf
          have := (h.replaced b'.owner).2 ⟨hlt, hf⟩
          rw [hr] at this
          cases this
        simp [Option.filter, hsame, hs, hnot]
      · simp [Option.filter, hsame, hs]
    · have hfeature := ((h.replaced b.owner).1 (by rw [hr]; rfl)).2
      have hnone : b'.source? d.forest = none := by
        simp [Binding.source?, hkind]
      rw [Option.filter_some, if_neg (by simp [hnone])]
      split
      next => rfl
      next hnot =>
        rw [Option.filter_some, if_neg]
        rw [decide_eq_true_iff]
        intro hs
        exact hnot ((hsource _ hs).2.symm.trans hfeature)

/-- What no import of features is or holds is still there. -/
theorem reaches (h : Midway f settings root f.size c d e) (hp : f.Parsed root)
    (hn : f.node? (some i) = some n) (hclear : c.replaced i = none)
    (hspec : n.isSpecifier = false) : d.forest.Reaches root i := by
  have hsize := hp.size_eq
  have hi := lt_size_of_node? hn
  induction hd : root - i using Nat.strong_induction_on generalizing i n with
  | _ d ih =>
    by_cases hir : i = root
    · subst hir
      exact .refl
    · obtain ⟨p, m, hip, hm, hmem⟩ := hp.parent (i := i) (by omega)
      have hlt := (hp.of_mem_children hm hmem).1
      have hpf := lt_size_of_node? hm
      have hm' : m.isSpecifier = false := by
        cases m <;> first | rfl | cases hmem
      refine (ih (root - p) (by omega) hm (h.inlines.replaced_parent hp hn hspec hip) hm' hpf
        rfl).tail ?_
      refine mem_childrenOf.2 ⟨c.node p m, by rw [h.sound.old hpf, hm, Option.map_some], ?_⟩
      exact Changes.mem_children_node.2 (.inl ⟨hmem, fun _ => hclear, fun _ => h.guarded p⟩)

/-- The names that an import of features binds are those of the constants for it. -/
theorem mem_namesBelow_of_replaced (h : Midway f settings root f.size c d e) (hp : f.Parsed root)
    {ds : List Nat} (hr : c.replaced i = some ds) (hs : f.parentOf (some s) = some i)
    (hx : f.localName? (some s) = some x) : x ∈ d.forest.namesBelow (some root) := by
  obtain ⟨specifiers, source, hi, hds⟩ := h.inlines.replaced hr
  obtain ⟨fl, hflags⟩ := exists_inlinedFlags? root
    ((h.replaced i).1 (by rw [hr]; rfl)).2
  rw [hflags] at hds
  obtain ⟨n, hn, hmem⟩ := hp.of_parentOf hs
  obtain rfl := Option.some.inj (hi.symm.trans hn)
  obtain ⟨dcl, hd, s', declarator, ⟨⟩, name, flag, value, hname, -, -, hconst⟩ :=
    exists_of_mem_forall₂ hds hmem
  obtain rfl : x = name := Option.some.inj (hx.symm.trans hname)
  obtain ⟨l, hdeclarator, -⟩ := hconst.init
  obtain ⟨q, m, hiq, hm, hlist⟩ := h.inlines.listed hr
  obtain ⟨m', hm', hmem'⟩ := hp.of_parentOf hiq
  obtain rfl := Option.some.inj (hm.symm.trans hm')
  have hclear : c.replaced q = none := h.inlines.replaced_eq_none hm <| by
    cases m <;> first | rfl | cases hlist
  have hreach : d.forest.Reaches root q := h.reaches hp hm hclear <| by
    cases m <;> first | rfl | cases hlist
  have hdcl : dcl ∈ d.forest.childrenOf (some q) := by
    refine mem_childrenOf.2 ⟨c.node q m, ?_, ?_⟩
    · rw [h.sound.old (lt_size_of_node? hm), hm, Option.map_some]
    · exact Changes.mem_children_node.2 (.inr (.inl ⟨hlist, i, ds, hmem', hr, hd⟩))
  have hdeclarator' : declarator ∈ d.forest.childrenOf (some dcl) :=
    mem_childrenOf.2 ⟨_, hconst.declaration.2, by simp [Node.children]⟩
  exact Forest.mem_namesBelow ((hreach.tail hdcl).tail hdeclarator') hdeclarator.2
    (by simp [Node.ownNames])

/-- Every name of the script is still there. -/
theorem mem_namesBelow (h : Midway f settings root f.size c d e) (hp : f.Parsed root)
    (hn : f.node? (some i) = some n) (hx : x ∈ n.ownNames) :
    x ∈ d.forest.namesBelow (some root) := by
  have hi := lt_size_of_node? hn
  have hclear : c.replaced i = none := h.inlines.replaced_eq_none hn <| by
    cases n <;> first | rfl | cases hx
  have hgn : d.forest.node? (some i) = some (c.node i n) := by
    rw [h.sound.old hi, hn, Option.map_some]
  have hgx : x ∈ (c.node i n).ownNames := by cases n <;> exact hx
  by_cases hspec : n.isSpecifier = true
  · obtain ⟨p, m, hip, hm, hmem⟩ := hp.parent (i := i) (by
      have := hp.size_eq
      have : i ≠ root := by
        rintro rfl
        obtain ⟨body, hbody⟩ := hp.script
        obtain rfl := Option.some.inj (hbody.symm.trans hn)
        cases hspec
      omega)
    obtain ⟨-, -, n', hn', htakes⟩ := hp.of_mem_children hm hmem
    obtain rfl := Option.some.inj (hn'.symm.trans hn)
    cases hr : c.replaced p with
    | some ds =>
      refine h.mem_namesBelow_of_replaced hp hr hip ?_
      rw [localName?, hn, Option.bind_some]
      cases n' <;> first | cases hspec; done | simpa [Node.localName?, Node.ownNames, eq_comm] using hx
    | none =>
      have hreach : d.forest.Reaches root p := h.reaches hp hm hr <| by
        cases m <;> first | rfl | cases hmem
      refine Forest.mem_namesBelow (hreach.tail (mem_childrenOf.2 ⟨c.node p m, ?_, ?_⟩)) hgn hgx
      · rw [h.sound.old (lt_size_of_node? hm), hm, Option.map_some]
      · exact Changes.mem_children_node.2 (.inl ⟨hmem, fun _ => hclear, fun _ => h.guarded p⟩)
  · exact Forest.mem_namesBelow (h.reaches hp hn hclear (by simpa using hspec)) hgn hgx

/-- A fresh name for the flag is none of the script. -/
theorem freshFlag (h : Midway f settings root f.size c d e) (hp : f.Parsed root) {e' : Expander}
    {name : String} (hrun : Yields (Expand.freshFlag (some root)) ⟨d.forest, e'⟩ name w') :
    f.Lacks name ∧ w'.forest = d.forest ∧ w'.expander.locals = e'.locals := by
  have hway : d.forest.Way (some root) [root] := by
    refine .up ?_
    rw [h.sound.parentOf_root hp]
    exact .top
  unfold Expand.freshFlag at hrun
  obtain ⟨t, w₁, hget, hrun⟩ := yields_bind.1 hrun
  obtain ⟨rfl, rfl⟩ := yields_get.1 hget
  dsimp only at hrun
  rw [ancestors_of_way hway] at hrun
  obtain ⟨v, w₁, hmodify, hrun⟩ := yields_bind.1 hrun
  obtain rfl := Expand.yields_modifyExpander.1 hmodify
  obtain ⟨rfl, rfl⟩ := yields_pure.1 hrun
  refine ⟨fun i n hn hx => ?_, rfl, rfl⟩
  exact Fresh.generate_notMem.1 (h.mem_namesBelow hp hn hx)

/-! ### The calls -/

/-- The imports of features have been replaced so far, and nothing else. -/
theorem isSome_replaced (h : Midway f settings root f.size c d e) :
    (c.replaced i).isSome = true ↔ f.importsFeature settings i = true := by
  rw [h.replaced, and_iff_right_iff_imp]
  intro hf
  obtain ⟨source, hsource, -⟩ := (Option.any_eq_true _ _).1 hf
  obtain ⟨n, hn, -⟩ := Option.bind_eq_some_iff.1 hsource
  exact lt_size_of_node? hn

/-- The calls are guarded by the imported flag, and its import is inlined. -/
theorem settleImported (h : Midway f settings root f.size c d e) (hp : f.Parsed root)
    {b : Binding} (hb : f.flagBinding? settings root = some b)
    (hguard : Yields (Expand.applyGuards b.name e.pending) d.forest u g₁)
    (hinline : Yields (Flag.inlineImport settings.envFlags envFlagsModule (some b.owner)) g₁ u g) :
    ∃ c' site, Expansion f settings root none debugName c' site g := by
  obtain ⟨hfeature, hresolve, hkind, hsource⟩ := exists_of_flagBinding? hb
  obtain ⟨-, -, -, hname, hdecl⟩ := exists_of_resolve? hp.kinded hresolve
  obtain ⟨specifiers, source, hn, -⟩ := hdecl.import_of_module hkind
  rw [hname] at hguard
  obtain ⟨d₁, c₁, rfl, hloose, hsound, hgrows, hreplaced, hfront, hother, hplaced⟩ :=
    Draft.applyGuards h.sound hp h.pending queued_nodup h.guarded h.loose hguard
  have hclear : c₁.replaced b.owner = none := by
    rw [hreplaced, ← Option.not_isSome_iff_eq_none, h.isSome_replaced,
      importsFeature_of_source hsource, hfeature]
    exact Bool.false_ne_true
  obtain ⟨d₂, ds, rfl, hsound₂, hgrows₂, hloose₂, hlisted, hds⟩ :=
    Draft.inlineImport hsound hp hn hclear hinline
  refine ⟨c₁.replace b.owner ds, d₂.site, ⟨?_, ?_, fun i => ?_, nofun, fun s hs => ?_,
    fun s hs => hother s hs, fun b' _ => ⟨rfl, ?_⟩, fun hnone => ?_,
    (h.ledger.applyGuards hguard).inlineImport hinline⟩⟩
  · refine Graft.mono hsound₂ fun j _ hj => ?_
    rw [← hloose]
    exact hloose₂ j hj
  · refine Inlines.replace ?_ hn hlisted ?_
    · exact ((h.inlines.mono hgrows.node).congr hreplaced hfront).mono hgrows₂.node
    · rw [inlinedFlags?_flagBinding hb]
      exact hds
  · rw [Changes.replaced_replace, isSome_inlinedFlags?, hb, hreplaced]
    split
    next hi => simp [hi]
    next hi => simp [h.isSome_replaced, Ne.symm hi]
  · obtain ⟨id, e, he, hguards⟩ := hplaced s hs
    exact ⟨id, e, he, hguards.mono hgrows₂.node⟩
  · show c₁.front = []
    rw [hfront, h.front]
  · rw [hb] at hnone
    cases hnone

/-- The calls are guarded by a flag that has been put in front of the script, if there are any. -/
theorem settleInjected (h : Midway f settings root f.size c d e) (hp : f.Parsed root)
    (hb : f.flagBinding? settings root = none) (hlacks : f.Lacks flag)
    (hinject : if e.pending.isEmpty then g₁ = d.forest
      else Yields (Expand.injectFlag settings (some root) flag) d.forest u g₁)
    (hguard : Yields (Expand.applyGuards flag e.pending) g₁ u g) :
    ∃ c' site, Expansion f settings root none flag c' site g := by
  have hempty : e.pending.isEmpty = true ↔ f.queued settings f.size = [] := by
    rw [List.isEmpty_iff, ← List.length_eq_zero_iff, ← h.pending.length_eq,
      List.length_eq_zero_iff]
  have hledger : Ledger f.size (e.pending.flatMap fun p => p.call :: p.conditions) g₁ := by
    split at hinject
    next => exact hinject ▸ h.ledger
    next => exact h.ledger.injectFlag hinject
  -- Whether or not there is something in front, everything else is as it was.
  obtain ⟨c₁, d₁, rfl, hsound, hgrows, hreplaced, hguarded, hfront, hloose⟩ : ∃ c₁ d₁,
      d₁.forest = g₁ ∧ d₁.Sound f settings.KeepsCalls c₁ ∧ Draft.Grows f f.size d d₁ ∧
      c₁.replaced = c.replaced ∧ c₁.guarded = c.guarded ∧
      f.HasFront d₁.forest settings flag c₁.front ∧ ∀ i ∈ d₁.loose, i ∈ d.loose := by
    split at hinject
    next hp' =>
      refine ⟨c, d, hinject.symm, h.sound, .refl, rfl, rfl, ?_, fun _ => id⟩
      rw [HasFront, if_pos (hempty.1 hp'), h.front]
    next hp' =>
      obtain ⟨d₁, j, declarator, rfl, hsound, hgrows, hloose, hconst⟩ :=
        Draft.injectFlag h.sound hp hinject
      refine ⟨c.put j, d₁, rfl, hsound, hgrows, rfl, rfl, ?_, hloose⟩
      rw [HasFront, if_neg fun hq => hp' (hempty.2 hq)]
      refine ⟨j, declarator, ?_, hconst⟩
      rw [Changes.put, h.front]
  obtain ⟨d₂, c₂, rfl, hloose₂, hsound₂, hgrows₂, hreplaced₂, hfront₂, hother, hplaced⟩ :=
    Draft.applyGuards hsound hp (h.pending_grows hgrows) queued_nodup (hguarded ▸ h.guarded)
      (fun i hi => h.loose i (hloose i hi)) hguard
  have hfront' : f.HasFront d₂.forest settings flag c₂.front := hfront₂ ▸ hfront.mono hgrows₂.node
  have hrep : c₂.replaced = c.replaced := hreplaced₂.trans hreplaced
  refine ⟨c₂, d₂.site, ⟨hloose₂ ▸ hsound₂, ⟨?_, hrep ▸ h.inlines.listed, fun d hd => ?_⟩,
    fun i => ?_, nofun, hplaced, hother, fun b hb' => ?_, fun _ => ⟨hlacks, hfront'⟩,
    hledger.applyGuards hguard⟩⟩
  · rw [hrep]
    exact (h.inlines.mono (hgrows.trans hgrows₂).node).replaced
  · unfold HasFront at hfront'
    split at hfront'
    next =>
      rw [hfront'] at hd
      cases hd
    next =>
      obtain ⟨j, declarator, hj, hconst⟩ := hfront'
      rw [hj, List.mem_singleton] at hd
      exact ⟨declarator, flag, settings.debug, hd ▸ hconst⟩
  · rw [hrep, h.isSome_replaced, isSome_inlinedFlags?, hb]
    simp
  · rw [hb] at hb'
    cases hb'

end Midway

namespace Expansion

variable {gone : Option Nat}

/-- Of all bindings, only those of the import that is gone are lost. -/
theorem keeps_iff (h : Expansion f settings root gone flag c site g) :
    c.keeps (f.inlinedFlags? settings root) i = true ↔ gone ≠ some i := by
  unfold Changes.keeps
  cases hr : c.replaced i with
  | none =>
    refine iff_of_true rfl fun hgone => ?_
    have := (h.replaced i).2 (.inr hgone)
    rw [hr] at this
    cases this
  | some ds =>
    show (f.inlinedFlags? settings root i).isSome = true ↔ _
    constructor
    · intro hflags hgone
      rw [h.gone i hgone] at hflags
      cases hflags
    · intro hgone
      exact ((h.replaced i).1 (by rw [hr]; rfl)).resolve_right hgone

/-- Nothing stands in the place of the import that is gone. -/
theorem replaced_gone (h : Expansion f settings root gone flag c site g) (hi : gone = some i) :
    c.replaced i = some [] ∧
      ∃ specifiers source, f.node? (some i) = some (.importFrom specifiers source) := by
  obtain ⟨ds, hr⟩ := Option.isSome_iff_exists.1 ((h.replaced i).2 (.inr hi))
  obtain ⟨specifiers, source, hn, hds⟩ := h.inlines.replaced hr
  rw [h.gone i hi] at hds
  obtain rfl : ds = [] := hds
  exact ⟨hr, specifiers, source, hn⟩

/-- What stands in front of the script binds no name of the script. -/
theorem name_front_ne (h : Expansion f settings root gone flag c site g)
    (hn : f.node? (some i) = some n) (hx : x ∈ n.ownNames) :
    ∀ d ∈ c.front, ∀ b ∈ g.declaredBy d, b.name ≠ x := by
  cases hb : f.flagBinding? settings root with
  | some b =>
    rw [(h.imported b hb).2]
    nofun
  | none =>
    obtain ⟨hlacks, hfront⟩ := h.injected hb
    unfold HasFront at hfront
    split at hfront
    next =>
      rw [hfront]
      nofun
    next =>
      obtain ⟨j, declarator, hj, hconst⟩ := hfront
      rw [hj]
      intro d hd b hb
      obtain rfl := List.mem_singleton.1 hd
      rw [Graft.declaredBy_constant h.graft.kinded hconst, List.mem_singleton] at hb
      rintro rfl
      rw [hb] at hx
      exact hlacks hn hx

/-- An import that has not been inlined is taken out. -/
theorem remove (h : Expansion f settings root none flag c site g) (hp : f.Parsed root)
    {specifiers : List Ref} {source : String}
    (hn : f.node? (some i) = some (.importFrom specifiers source))
    (hflags : f.inlinedFlags? settings root i = none) (hok : g.remove (some i) = .ok g₁) :
    ∃ c', Expansion f settings root (some i) flag c' site g₁ := by
  have hclear : c.replaced i = none := by
    rw [← Option.not_isSome_iff_eq_none, h.replaced, hflags]
    simp
  obtain ⟨hlisted, p, m, hplant⟩ := h.graft.splice hp hn rfl hclear [] nofun hok
  have hadded : ∀ ⦃j n⦄, f.Added g j n → f.Added g₁ j n := fun _ _ hj => hplant.added hj
  refine ⟨c.replace i [], ⟨(h.graft.plant hp hplant).mono fun _ _ hj => hj.1, ?_, fun k => ?_, ?_,
    fun s hs => ?_, h.unguarded, h.imported, fun hb => ?_, h.ledger.remove hok⟩⟩
  · refine (h.inlines.mono hadded).replace hn hlisted ?_
    rw [hflags]
    rfl
  · rw [Changes.replaced_replace]
    split
    next hki => simp [hki]
    next hki => simp [h.replaced, Ne.symm hki]
  · rintro _ ⟨⟩
    exact hflags
  · obtain ⟨id, e, he, hguards⟩ := h.guarded s hs
    exact ⟨id, e, he, hguards.mono hadded⟩
  · exact (h.injected hb).imp_right (HasFront.mono hadded)

/-- A name of the debug tools that some import binds at the end was bound by that import before,
which has not been inlined. -/
theorem import_of_resolve? (h : Expansion f settings root none flag c site g) (hp : f.Parsed root)
    {k : Nat} (hx : x ∈ f.toolNames settings k) {b : Binding}
    (hb : g.resolve? (some root) x = some b) (hkind : b.kind = .module) :
    f.resolve? (some root) x = some b ∧ f.inlinedFlags? settings root b.owner = none ∧
      ∃ specifiers source, f.node? (some b.owner) = some (.importFrom specifiers source) := by
  obtain ⟨i, -, -, r, -, hname⟩ := mem_toolNames.1 hx
  obtain ⟨j, m, rfl, hm, hml⟩ : ∃ j m, r = some j ∧ f.node? (some j) = some m ∧
      m.localName? = some x := by
    obtain ⟨m, hm, hml⟩ := Option.bind_eq_some_iff.1 hname
    obtain ⟨j, rfl⟩ := exists_eq_some hm
    exact ⟨j, m, rfl, hm, hml⟩
  have hown : x ∈ m.ownNames := by
    cases m <;> cases hml <;> simp [Node.ownNames]
  have hfollows := h.graft.follows_root hp h.inlines (h.name_front_ne hm hown)
  -- What was unbound still is, so the name was bound.
  obtain ⟨b₀, hb₀⟩ : ∃ b₀, f.resolve? (some root) x = some b₀ := by
    rw [← Option.ne_none_iff_exists']
    intro hnone
    rw [hfollows.1 hnone] at hb
    cases hb
  obtain ⟨b', hb', -, ⟨hr, rfl⟩ | ⟨-, -, -, -, -, -, -, -, hconst, -⟩⟩ := hfollows.2 b₀ hb₀
    (h.keeps_iff.2 (Option.some_ne_none _).symm)
  · obtain rfl := Option.some.inj (hb.symm.trans hb')
    obtain ⟨-, -, -, -, hdecl⟩ := exists_of_resolve? hp.kinded hb₀
    obtain ⟨specifiers, source, hn, -⟩ := hdecl.import_of_module hkind
    have hflags : f.inlinedFlags? settings root b.owner = none := by
      simpa [hr] using not_congr (h.replaced b.owner)
    exact ⟨hb₀, hflags, specifiers, source, hn⟩
  · obtain rfl := Option.some.inj (hb.symm.trans hb')
    rw [hconst] at hkind
    cases hkind

/-- The import of the debug tools is taken out, if it has to go. -/
theorem cleanUp (h : Expansion f settings root none flag c site w.forest) (hp : f.Parsed root)
    (hlocals : w.expander.locals = f.toolNames settings f.size)
    (hrun : Yields (Expand.cleanUp settings (some root)) w u w') :
    f.FindsDropped settings root ∧
      ∃ c', Expansion f settings root (f.droppedImport? settings root) flag c' site w'.forest := by
  unfold Expand.cleanUp at hrun
  obtain ⟨v, w₁, hmodify, hrun⟩ := yields_bind.1 hrun
  obtain rfl := Expand.yields_modifyExpander.1 hmodify
  obtain ⟨t, w₂, hget, hrun⟩ := yields_bind.1 hrun
  obtain ⟨rfl, rfl⟩ := yields_get.1 hget
  dsimp only at hrun
  rw [hlocals] at hrun
  unfold FindsDropped droppedImport?
  cases hfirst : (f.toolNames settings f.size).head? with
  | none =>
    rw [hfirst] at hrun
    obtain ⟨-, rfl⟩ := yields_pure.1 hrun
    refine ⟨fun _ hne => absurd (List.head?_eq_none_iff.1 hfirst) hne, c, ?_⟩
    rw [Option.bind_none, ite_self]
    exact h
  | some first =>
    rw [hfirst] at hrun
    dsimp only at hrun
    cases hdrops : settings.helpers.dropsImport with
    | false =>
      rw [hdrops, if_neg Bool.false_ne_true] at hrun
      obtain ⟨-, rfl⟩ := yields_pure.1 hrun
      exact ⟨nofun, c, h⟩
    | true =>
      rw [hdrops, if_pos rfl] at hrun
      split at hrun
      next => exact absurd hrun not_yields_throw
      next b' hb' =>
        obtain ⟨g', hedit, rfl⟩ := Expand.yields_reshape.1 hrun
        obtain ⟨hb', hkind⟩ := Option.filter_eq_some_iff.1 hb'
        obtain ⟨hb, hflags, specifiers, source, hn⟩ := h.import_of_resolve? hp
          (List.mem_of_mem_head? hfirst) hb' (of_decide_eq_true hkind)
        rw [if_pos rfl, Option.bind_some, hb, Option.map_some]
        exact ⟨fun _ _ => rfl, h.remove hp hn hflags (yields_edit.1 hedit)⟩

end Expansion

/-- What is left to do after the way through the script completes its expansion. -/
theorem Midway.finish (h : Midway f settings root f.size c d e) (hp : f.Parsed root)
    (hrun : Yields (Expand.finish settings (some root)) ⟨d.forest, e⟩ u w') :
    f.FindsDropped settings root ∧ ∃ flag c' site,
      Expansion f settings root (f.droppedImport? settings root) flag c' site w'.forest := by
  unfold Expand.finish at hrun
  obtain ⟨pending, w₁, htake, hrun⟩ := yields_bind.1 hrun
  unfold Expand.takePending at htake
  obtain ⟨t, w₂, hget, htake⟩ := yields_bind.1 htake
  obtain ⟨rfl, rfl⟩ := yields_get.1 hget
  obtain ⟨v, w₂, hmodify, htake⟩ := yields_bind.1 htake
  obtain rfl := Expand.yields_modifyExpander.1 hmodify
  obtain ⟨rfl, rfl⟩ := yields_pure.1 htake
  obtain ⟨g, w₂, hforest, hrun⟩ := yields_bind.1 hrun
  obtain ⟨rfl, rfl⟩ := Expand.yields_forest.1 hforest
  dsimp only at hrun
  rw [h.flagImport?_eq hp] at hrun
  split at hrun
  next b hb =>
    obtain ⟨v, w₂, hguard, hrun⟩ := yields_bind.1 hrun
    obtain ⟨g₁, hguard', rfl⟩ := Expand.yields_reshape.1 hguard
    obtain ⟨v', w₂, hinline, hrun⟩ := yields_bind.1 hrun
    obtain ⟨g₂, hinline', rfl⟩ := Expand.yields_reshape.1 hinline
    obtain ⟨c', site, hexp⟩ := h.settleImported hp hb hguard' hinline'
    obtain ⟨hfinds, c'', hexp'⟩ := hexp.cleanUp hp h.locals hrun
    exact ⟨hfinds, _, c'', site, hexp'⟩
  next hb =>
    obtain ⟨name, ⟨g, e'⟩, hfresh, hrun⟩ := yields_bind.1 hrun
    obtain ⟨hlacks, rfl, hlocals⟩ := h.freshFlag hp hfresh
    have hrest {g₁ : Forest} (hinject : if e.pending.isEmpty then g₁ = d.forest
          else Yields (Expand.injectFlag settings (some root) name) d.forest u g₁)
        (hrun : Yields (do
          Expand.reshape (Expand.applyGuards name e.pending)
          Expand.cleanUp settings (some root)) ⟨g₁, e'⟩ u w') :
        f.FindsDropped settings root ∧ ∃ flag c' site,
          Expansion f settings root (f.droppedImport? settings root) flag c' site w'.forest := by
      obtain ⟨v, w₂, hguard, hrun⟩ := yields_bind.1 hrun
      obtain ⟨g₂, hguard', rfl⟩ := Expand.yields_reshape.1 hguard
      obtain ⟨c', site, hexp⟩ := h.settleInjected hp hb hlacks hinject hguard'
      obtain ⟨hfinds, c'', hexp'⟩ := hexp.cleanUp (w := ⟨g₂, e'⟩) hp (hlocals.trans h.locals) hrun
      exact ⟨hfinds, name, c'', site, hexp'⟩
    split at hrun
    next hpending =>
      obtain ⟨v, w₂, hinject, hrun⟩ := yields_bind.1 hrun
      obtain ⟨g₁, hinject', rfl⟩ := Expand.yields_reshape.1 hinject
      refine hrest ?_ hrun
      rw [if_neg (by simpa using hpending)]
      exact hinject'
    next hpending =>
      refine hrest ?_ hrun
      rw [if_pos (by simpa using hpending)]

/-- The pass goes through on the script in the source, which is parsed to `f`, and makes `g` of
it. -/
def Expands (settings : Settings) (source : String) (root : Nat) (f g : Forest) : Prop :=
  Forest.parse source = .ok (some root, f) ∧ f.expand settings (some root) = (.ok (), g)

theorem Expands.parsed {source : String} (h : Expands settings source root f g) :
    f.Parsed root := by
  obtain ⟨t, ht, hf⟩ := Forest.parse_eq_ok.1 h.1
  obtain ⟨root', hroot, hp, -⟩ := parsed_of_parse ht
  rw [hf] at hroot hp
  obtain rfl := Option.some.inj hroot
  exact hp

/-- Settings with a debug flag that is on and helpers that become calls of the console. -/
def Settings.standard : Settings where
  envSource := envFlagsModule
  envFlags := ⟨[(debugName, .boolean true)]⟩
  toolsSource := "@ember/debug-tools"
  features := []
  helpers := .console
  debug := .boolean true

/-- Whether the pass goes through on the script in the source, and what it makes of it is as `p`
says. -/
def expandsTo (settings : Settings) (source : String) (p : Nat → Forest → Forest → Bool) : Bool :=
  match Forest.parse source with
  | .ok (some root, f) =>
    match f.expand settings (some root) with
    | (.error _, _) => false
    | (.ok (), g) => p root f g
  | _ => false

theorem exists_of_expandsTo {source : String} {p : Nat → Forest → Forest → Bool}
    (h : expandsTo settings source p = true) :
    ∃ root f g, Expands settings source root f g ∧ p root f g = true := by
  unfold expandsTo at h
  split at h
  next root f hf =>
    split at h
    next => cases h
    next g hg => exact ⟨root, f, g, ⟨hf, hg⟩, h⟩
  next => cases h

/-- What the pass makes of a script on which it goes through. -/
theorem exists_expansion {source : String} (h : Expands settings source root f g) :
    f.FindsDropped settings root ∧ ∃ flag c site,
      Expansion f settings root (f.droppedImport? settings root) flag c site g := by
  have hp := h.parsed
  obtain ⟨hparse, hrun⟩ := h
  obtain ⟨t, ht, hf⟩ := Forest.parse_eq_ok.1 hparse
  obtain ⟨root', hroot, -, hlaid, -⟩ := parsed_of_parse ht
  rw [hf] at hroot hlaid
  obtain rfl := Option.some.inj hroot
  obtain ⟨w', hpass, rfl⟩ : ∃ w', Yields (Expand.pass settings (some root)) ⟨f, .start⟩ () w' ∧
      w'.forest = g := by
    unfold Forest.expand at hrun
    cases hpass : (Expand.pass settings (some root)).run ⟨f, .start⟩ with
    | mk result w' =>
      rw [hpass] at hrun
      cases hrun
      exact ⟨w', hpass, rfl⟩
  obtain ⟨v, w₁, hvisit, hfinish⟩ := yields_bind.1 hpass
  obtain ⟨g', w₂, hforest, hvisit⟩ := yields_bind.1 hvisit
  obtain ⟨rfl, rfl⟩ := Expand.yields_forest.1 hforest
  have hstart : MidwayAt f settings root 0 ⟨f, .start⟩ := ⟨.nothing, ⟨f, id, ∅⟩, rfl, .start hp⟩
  rw [← hp.size_eq] at hlaid
  obtain ⟨c, d, hw, hmid⟩ := midway_visit hp hlaid (by simp) hstart hvisit
  obtain ⟨g', e⟩ := w₁
  subst hw
  exact hmid.finish hp hfinish

end DebugGuard
