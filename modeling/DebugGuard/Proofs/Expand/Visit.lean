import DebugGuard.Proofs.Expand.Account
import DebugGuard.Proofs.Expand.Guard
import DebugGuard.Proofs.Expand.Inline

/-!
# Going through a script

The pass comes to the nodes of a script in the order of their numbers, because a script is laid out
children first.  `Midway f settings root k c d e` says what is done when it is about to come to the
node `k`; `midway_visit` that this holds all the way.
-/

namespace DebugGuard

open Forest

/-- The pass is done with the nodes in front of `k`: imports of features among them are inlined,
names of debug tools are noted, and helper calls are prepared. -/
structure Midway (f : Forest) (settings : Settings) (root k : Nat) (c : Changes) (d : Draft)
    (e : Expander) : Prop where
  sound : d.Sound f settings.KeepsCalls c
  inlines : Inlines f d.forest c (f.inlinedFlags? settings root)
  replaced : ∀ i, (c.replaced i).isSome = true ↔ i < k ∧ f.importsFeature settings i = true
  guarded : ∀ i, c.guarded i = none
  front : c.front = []
  /-- The way up from what is still to come is the old one. -/
  parent : ∀ i, k ≤ i → i < f.size → d.forest.parentOf (some i) = f.parentOf (some i)
  locals : e.locals = f.toolNames settings k
  pending : List.Forall₂ (d.Awaits f settings) (f.queued settings k) e.pending
  loose : ∀ i ∈ d.loose, ∃ p ∈ e.pending, some i ∈ p.call :: p.conditions
  fresh : e.fresh.given = []
  /-- What waits is all that is still to be put somewhere. -/
  ledger : Ledger f.size (e.pending.flatMap fun p => p.call :: p.conditions) d.forest

variable {f : Forest} {settings : Settings} {root k i s : Nat} {c : Changes} {d d' : Draft}
  {e : Expander} {n : Node Ref} {x : String} {w w' : Work}

/-- What the pass takes a statement to call. -/
theorem yields_calledHelper? {o : Option (String × Binding)}
    (hrun : Yields (Expand.calledHelper? (some k)) w o w') :
    w' = w ∧ o = (w.forest.calledName? k).bind fun name =>
      if w.expander.locals.contains name then
        ((w.forest.resolve? (some k) name).filter (·.kind = .module)).map (name, ·)
      else none := by
  unfold Expand.calledHelper? at hrun
  obtain ⟨t, u, hget, hrun⟩ := yields_bind.1 hrun
  obtain ⟨rfl, rfl⟩ := yields_get.1 hget
  rw [calledName?]
  dsimp only at hrun
  cases hparts : (w.forest.statementExpression? (some k)).bind w.forest.callParts? with
  | none =>
    rw [hparts] at hrun
    obtain ⟨rfl, rfl⟩ := yields_pure.1 hrun
    exact ⟨rfl, rfl⟩
  | some parts =>
    rw [hparts] at hrun
    obtain ⟨callee, args⟩ := parts
    dsimp only [Option.bind_some] at hrun ⊢
    cases hname : w.forest.identifierName? callee with
    | none =>
      rw [hname] at hrun
      obtain ⟨rfl, rfl⟩ := yields_pure.1 hrun
      exact ⟨rfl, rfl⟩
    | some name =>
      rw [hname] at hrun
      dsimp only [Option.bind_some] at hrun ⊢
      split at hrun
      next hmem =>
        obtain ⟨rfl, rfl⟩ := yields_pure.1 hrun
        exact ⟨rfl, by rw [if_pos hmem]⟩
      next hmem =>
        obtain ⟨rfl, rfl⟩ := yields_pure.1 hrun
        exact ⟨rfl, by rw [if_neg hmem]⟩

namespace Midway

theorem start (hp : f.Parsed root) :
    Midway f settings root 0 .nothing ⟨f, id, ∅⟩ .start where
  sound := hp.graft
  inlines := ⟨nofun, nofun, nofun⟩
  replaced i := by simp [Changes.nothing]
  guarded _ := rfl
  front := rfl
  parent _ _ _ := rfl
  locals := rfl
  pending := .nil
  loose := nofun
  fresh := rfl
  ledger := hp.ledger

/-- What is still to come has not changed. -/
theorem node?_eq (h : Midway f settings root k c d e)
    (hn : f.node? (some i) = some n) (hk : ∀ j, some j ∈ n.children → k ≤ j) :
    d.forest.node? (some i) = some n := by
  rw [h.sound.old (lt_size_of_node? hn), hn, Option.map_some, Changes.node_self]
  · intro j hj
    cases hr : c.replaced j with
    | none => rfl
    | some ds =>
      have := (h.replaced j).1 (by rw [hr]; rfl)
      have := hk j hj
      omega
  · exact h.guarded i
  · exact h.front

/-- From what is still to come, names are looked up as they were. -/
theorem follows (h : Midway f settings root k c d e) (hp : f.Parsed root) (hi : k ≤ i)
    (hlt : i < f.size) :
    Binding.Follows f d.forest c (f.inlinedFlags? settings root) (f.resolve? (some i) x)
      (d.forest.resolve? (some i) x) := by
  obtain ⟨l, hl⟩ := (hp.leads_root hlt).exists_way hp.top
  have hfront : ∀ d' ∈ c.front, ∀ b ∈ d.forest.declaredBy d', b.name ≠ x := by
    rw [h.front]
    nofun
  refine h.sound.follows_of_way hp h.inlines hfront hl fun j hj => ?_
  obtain ⟨hkj, hjf⟩ := hp.le_of_mem_way hl (k := k) (by rintro _ ⟨⟩; exact ⟨hi, hlt⟩) j hj
  exact ⟨hjf, h.parent j hkj hjf⟩

theorem replaced_succ (h : Midway f settings root k c d e)
    (hfeature : f.importsFeature settings k = false) :
    (c.replaced i).isSome = true ↔ i < k + 1 ∧ f.importsFeature settings i = true := by
  rw [h.replaced]
  refine ⟨fun ⟨hi, hf⟩ => ⟨by omega, hf⟩, fun ⟨hi, hf⟩ => ⟨?_, hf⟩⟩
  have : i ≠ k := by
    rintro rfl
    rw [hfeature] at hf
    cases hf
  omega

/-- A node that is no import to look at and no helper call is passed by. -/
theorem skip (h : Midway f settings root k c d e) (hfeature : f.importsFeature settings k = false)
    (htools : f.importsTools settings k = false) (hcall : f.helperCall? settings k = none) :
    Midway f settings root (k + 1) c d e where
  __ := h
  replaced _ := h.replaced_succ hfeature
  parent i hi := h.parent i (by omega)
  locals := by
    rw [h.locals, toolNames_succ, toolNamesOf, htools]
    simp
  pending := by
    rw [queued_succ, hcall]
    simpa using h.pending

/-- Prepared calls stay prepared while other things grow. -/
theorem pending_grows (h : Midway f settings root k c d e) {t : Nat} (hg : Draft.Grows f t d d') :
    List.Forall₂ (d'.Awaits f settings) (f.queued settings k) e.pending :=
  List.Forall₂.imp (fun _ _ hsp => Draft.Awaits.grows hsp hg) h.pending

/-- An import of features is replaced by constants. -/
theorem inlineFeatures (h : Midway f settings root k c d w.expander) (hp : f.Parsed root)
    (hw : d.forest = w.forest) {specifiers : List Ref} {source : String}
    (hn : f.node? (some k) = some (.importFrom specifiers source))
    (hfeature : settings.isFeatureSource source = true) {b : Bool}
    (hrun : Yields (Expand.inlineFeatures settings (some k)) w b w') :
    ∃ c' d', d'.forest = w'.forest ∧ Midway f settings root (k + 1) c' d' w'.expander := by
  have hk : k < f.size := lt_size_of_node? hn
  have hsource := importSource?_import hn
  have hfeature' : f.importsFeature settings k = true :=
    (importsFeature_of_source hsource).trans hfeature
  obtain ⟨spec, hspec⟩ := isFeatureSource_iff.1 hfeature
  have hflags := inlinedFlags?_feature root hsource hspec
  unfold Expand.inlineFeatures at hrun
  obtain ⟨g, t, hforest, hrun⟩ := yields_bind.1 hrun
  obtain ⟨rfl, rfl⟩ := Expand.yields_forest.1 hforest
  rw [← hw, h.sound.importSource?_eq hk, hsource] at hrun
  dsimp only at hrun
  rw [hspec] at hrun
  obtain ⟨u, t, hreshape, hrun⟩ := yields_bind.1 hrun
  obtain ⟨-, rfl⟩ := yields_pure.1 hrun
  obtain ⟨g, hinline, rfl⟩ := Expand.yields_reshape.1 hreshape
  rw [← hw] at hinline
  have hclear : c.replaced k = none := by
    cases hr : c.replaced k with
    | none => rfl
    | some ds => exact absurd ((h.replaced k).1 (by rw [hr]; rfl)).1 (Nat.lt_irrefl k)
  obtain ⟨d', ds, rfl, hsound, hgrows, hloose, hlisted, hds⟩ :=
    Draft.inlineImport h.sound hp hn hclear hinline
  refine ⟨c.replace k ds, d', rfl, hsound, ?_, fun i => ?_, h.guarded, h.front, fun i hi hlt => ?_,
    ?_, ?_, fun i hi => h.loose i (hloose i hi), h.fresh, h.ledger.inlineImport hinline⟩
  · exact (h.inlines.mono hgrows.node).replace hn hlisted (by rw [hflags]; exact hds)
  · rw [Changes.replaced_replace]
    split
    next hik => simp [hik, hfeature']
    next hik =>
      rw [h.replaced]
      exact ⟨fun ⟨hi, hf⟩ => ⟨by omega, hf⟩, fun ⟨hi, hf⟩ => ⟨by omega, hf⟩⟩
  · rw [hgrows.parent hi hlt, h.parent i (by omega) hlt]
  · have htools : f.importsTools settings k = false := by
      rw [importsTools_import hn, hfeature]
      rfl
    show w.expander.locals = _
    rw [h.locals, toolNames_succ, toolNamesOf, htools]
    simp
  · rw [queued_succ, helperCall?_eq_none hn rfl]
    simpa using h.pending_grows hgrows

/-- The names that an import of the debug tools binds are noted. -/
theorem noteTools (h : Midway f settings root k c d w.expander) (hp : f.Parsed root)
    (hw : d.forest = w.forest) {specifiers : List Ref} {source : String}
    (hn : f.node? (some k) = some (.importFrom specifiers source))
    (hfeature : settings.isFeatureSource source = false) (htools : source = settings.toolsSource)
    {u : Unit} (hrun : Yields (Expand.noteTools specifiers) w u w') :
    d.forest = w'.forest ∧ Midway f settings root (k + 1) c d w'.expander := by
  have hfeature' : f.importsFeature settings k = false :=
    (importsFeature_of_source (importSource?_import hn)).trans hfeature
  have htools' : f.importsTools settings k = true := by
    rw [importsTools_import hn, hfeature, htools]
    simp
  unfold Expand.noteTools at hrun
  obtain ⟨g, t, hforest, hrun⟩ := yields_bind.1 hrun
  obtain ⟨rfl, rfl⟩ := Expand.yields_forest.1 hforest
  rw [← hw] at hrun
  obtain rfl := Expand.yields_modifyExpander.1 hrun
  refine ⟨hw, h.sound, h.inlines, fun _ => h.replaced_succ hfeature', h.guarded, h.front,
    fun i hi => ?_, ?_, ?_, h.loose, h.fresh, h.ledger⟩
  · exact h.parent i (by omega)
  · have hnames : specifiers.filterMap d.forest.localName? = specifiers.filterMap f.localName? := by
      refine List.filterMap_congr fun r hr => ?_
      cases r with
      | none => rfl
      | some s =>
        have hs := (hp.of_mem_children hn (i := s) (by simpa [Node.children] using hr)).1
        exact h.sound.localName?_eq (Nat.lt_trans hs (lt_size_of_node? hn))
    have hspecifiers : f.importSpecifiers (some k) = specifiers := by
      rw [importSpecifiers, hn]
      rfl
    show w.expander.locals ++ _ = _
    rw [h.locals, toolNames_succ, toolNamesOf, if_pos htools', hnames, hspecifiers]
  · rw [queued_succ, helperCall?_eq_none hn rfl]
    simpa using h.pending

/-- An import is replaced, noted or passed by. -/
theorem visitImport (h : Midway f settings root k c d w.expander) (hp : f.Parsed root)
    (hw : d.forest = w.forest) {specifiers : List Ref} {source : String}
    (hn : f.node? (some k) = some (.importFrom specifiers source)) {u : Unit}
    (hrun : Yields (if settings.isFeatureSource source then
        discard (Expand.inlineFeatures settings (some k))
      else if source == settings.toolsSource then Expand.noteTools specifiers
      else pure ()) w u w') :
    ∃ c' d', d'.forest = w'.forest ∧ Midway f settings root (k + 1) c' d' w'.expander := by
  split at hrun
  next hfeature =>
    obtain ⟨b, hinline⟩ := yields_discard.1 hrun
    exact h.inlineFeatures hp hw hn hfeature hinline
  next hfeature =>
    rw [Bool.not_eq_true] at hfeature
    split at hrun
    next htools =>
      obtain ⟨hw', h'⟩ := h.noteTools hp hw hn hfeature (beq_iff_eq.1 htools) hrun
      exact ⟨c, d, hw', h'⟩
    next htools =>
      rw [Bool.not_eq_true] at htools
      obtain ⟨-, rfl⟩ := yields_pure.1 hrun
      refine ⟨c, d, hw, h.skip ?_ ?_ (helperCall?_eq_none hn rfl)⟩
      · exact (importsFeature_of_source (importSource?_import hn)).trans hfeature
      · rw [importsTools_import hn, htools, Bool.and_false]

/-! ### Calls -/

theorem calledName?_eq (h : Midway f settings root k c d e) (hp : f.Parsed root)
    (hi : i < f.size) : d.forest.calledName? i = f.calledName? i := by
  obtain ⟨n, hn⟩ := exists_node? (has_some.2 hi)
  have hstatement : d.forest.statementExpression? (some i) = n.statementExpression? := by
    rw [statementExpression?, h.sound.old hi, hn]
    exact Changes.statementExpression?_node (h.guarded i)
  have hstatement' : f.statementExpression? (some i) = n.statementExpression? := by
    rw [statementExpression?, hn, Option.bind_some]
  rw [calledName?, calledName?, hstatement, hstatement']
  cases n
  case expressionStatement call =>
    cases call with
    | none => rfl
    | some call =>
      have hcall : call < f.size :=
        Nat.lt_trans (hp.of_mem_children hn (i := call) (by simp [Node.children])).1 hi
      have hparts : d.forest.callParts? (some call) = f.callParts? (some call) :=
        h.sound.ask_eq (fun _ => Changes.callParts?_node) hcall
      show ((d.forest.callParts? (some call)).bind _) = (f.callParts? (some call)).bind _
      rw [hparts]
      refine Option.bind_congr fun parts hcallee => ?_
      obtain ⟨callee, args⟩ := parts
      cases callee with
      | none => rfl
      | some callee =>
        obtain ⟨m, hm, hm'⟩ := Option.bind_eq_some_iff.1 hcallee
        have hlt : callee < call := by
          cases m <;> cases hm'
          exact (hp.of_mem_children hm (i := callee) (by simp [Node.children])).1
        exact h.sound.ask_eq (fun _ => Changes.identifierName?_node) (Nat.lt_trans hlt hcall)
  all_goals rfl

/-- Imports that have been replaced so far are inlined, so that nothing is lost. -/
theorem keeps (h : Midway f settings root k c d e) :
    c.keeps (f.inlinedFlags? settings root) i = true := by
  rw [Changes.keeps]
  cases hr : c.replaced i with
  | none => rfl
  | some ds =>
    obtain ⟨flags, hflags⟩ := exists_inlinedFlags? root
      ((h.replaced i).1 (by rw [hr]; rfl)).2
    rw [hflags]
    rfl

/-- What a name is bound to by an import: what it was, unless the import has been replaced. -/
theorem filter_resolve? (h : Midway f settings root k c d e) {o o' : Option Binding}
    (hfollows : Binding.Follows f d.forest c (f.inlinedFlags? settings root) o o') :
    (o'.filter fun b => b.kind = .module) = o.filter fun b =>
      b.kind = .module && !(decide (b.owner < k) && f.importsFeature settings b.owner) := by
  cases o with
  | none =>
    rw [hfollows.1 rfl]
    rfl
  | some b =>
    obtain ⟨b', rfl, -, ⟨hr, rfl⟩ | ⟨-, -, ds, -, -, hr, -, -, hkind, -⟩⟩ := hfollows.2 b rfl h.keeps
    · have hrep : (decide (b'.owner < k) && f.importsFeature settings b'.owner) = false := by
        rw [Bool.eq_false_iff]
        intro hb
        rw [Bool.and_eq_true, decide_eq_true_iff, ← h.replaced, hr] at hb
        cases hb
      simp [Option.filter, hrep]
    · have hrep : (decide (b.owner < k) && f.importsFeature settings b.owner) = true := by
        rw [Bool.and_eq_true, decide_eq_true_iff, ← h.replaced, hr]
        rfl
      simp [Option.filter, hrep, hkind]

/-- The statement that the pass comes to calls what it called. -/
theorem calledHelper? (h : Midway f settings root k c d w.expander) (hp : f.Parsed root)
    (hw : d.forest = w.forest) (hk : k < f.size) {o : Option (String × Binding)}
    (hrun : Yields (Expand.calledHelper? (some k)) w o w') :
    w' = w ∧ o.map Prod.snd = f.helperCall? settings k := by
  obtain ⟨rfl, rfl⟩ := yields_calledHelper? hrun
  refine ⟨rfl, ?_⟩
  rw [← hw, h.calledName?_eq hp hk, helperCall?, h.locals]
  cases f.calledName? k with
  | none => rfl
  | some name =>
    rw [Option.bind_some, Option.bind_some]
    split
    · rw [Option.map_map, h.filter_resolve? (h.follows hp (Nat.le_refl k) hk)]
      exact Option.map_id_fun' ▸ rfl
    · rfl

/-- A helper call is prepared. -/
theorem queue (h : Midway f settings root k c d w.expander) (hp : f.Parsed root)
    (hw : d.forest = w.forest) (hn : f.node? (some k) = some n) (himport : n.isImport = false)
    {b : Bool} (hrun : Yields (Expand.queue settings (some k)) w b w') :
    ∃ d', d'.forest = w'.forest ∧ Midway f settings root (k + 1) c d' w'.expander := by
  have hk : k < f.size := lt_size_of_node? hn
  obtain ⟨hfeature, htools⟩ : f.importsFeature settings k = false ∧ f.importsTools settings k = false :=
    imports_eq_false hn himport
  unfold Expand.queue at hrun
  obtain ⟨o, t, hcalled, hrun⟩ := yields_bind.1 hrun
  obtain ⟨rfl, ho⟩ := h.calledHelper? hp hw hk hcalled
  cases o with
  | none =>
    obtain ⟨-, rfl⟩ := yields_pure.1 hrun
    exact ⟨d, hw, h.skip hfeature htools ho.symm⟩
  | some found =>
    obtain ⟨name, binding⟩ := found
    have hcall : f.helperCall? settings k = some binding := ho.symm
    obtain ⟨name', hname, -, hresolve, hmod, -⟩ := exists_of_helperCall? hcall
    obtain ⟨r, callee, args, hs, hc, -⟩ := calledName?_eq_some.1 hname
    obtain ⟨-, -, -, -, hdecl⟩ := exists_of_resolve? hp.kinded hresolve
    obtain ⟨g, t, hforest, hrun⟩ := yields_bind.1 hrun
    obtain ⟨rfl, rfl⟩ := Expand.yields_forest.1 hforest
    have himported : binding.imported? d.forest = binding.imported? f := by
      rw [Binding.imported?, Binding.imported?, h.sound.importedName?_eq hdecl.declaration_lt_size]
    rw [← hw, himported] at hrun
    split at hrun
    next => exact absurd hrun not_yields_throw
    next imported hi =>
      split at hrun
      next => exact absurd hrun not_yields_throw
      next helper hhelper =>
        obtain ⟨p, t, hreshape, hrun⟩ := yields_bind.1 hrun
        obtain ⟨g, hbuild, rfl⟩ := Expand.yields_reshape.1 hreshape
        obtain ⟨u, t, hmodify, hrun⟩ := yields_bind.1 hrun
        obtain rfl := Expand.yields_modifyExpander.1 hmodify
        obtain ⟨-, rfl⟩ := yields_pure.1 hrun
        cases r with
        | none => cases hc
        | some call =>
          rw [← hw] at hbuild
          obtain ⟨d', rfl, hsound, hgrows, hready, hloose⟩ := Draft.build h.sound hp hs hc
            (h.guarded k) (fun hext hglobal => ⟨hext, hglobal⟩) hbuild
          have hhelper' : f.helper? settings k = some helper := by
            rw [helper?, hcall, Option.bind_some, hi, Option.bind_some, hhelper]
          refine ⟨d', rfl, hsound, h.inlines.mono hgrows.node, fun _ => h.replaced_succ hfeature,
            h.guarded, h.front, fun i hi hlt => ?_, ?_, ?_, fun i hi => ?_, h.fresh, ?_⟩
          · rw [hgrows.parent (by omega) hlt, h.parent i (by omega) hlt]
          · rw [toolNames_succ, toolNamesOf, htools]
            simpa using h.locals
          · rw [queued_succ, hcall]
            refine List.rel_append (h.pending_grows hgrows) ?_
            exact .cons ⟨helper, call, callee, args, hhelper', hs, hc, hready⟩ .nil
          · rcases hloose i hi with hi | hi
            · obtain ⟨q, hq, hiq⟩ := h.loose i hi
              exact ⟨q, by simp [hq], hiq⟩
            · exact ⟨p, by simp, hi⟩
          · have hledger := h.ledger.build h.sound hp hs hc (h.guarded k) hbuild
            simpa using hledger.perm List.perm_append_comm

end Midway

/-- The work is done up to the node `k`. -/
def MidwayAt (f : Forest) (settings : Settings) (root k : Nat) (w : Work) : Prop :=
  ∃ c d, d.forest = w.forest ∧ Midway f settings root k c d w.expander

theorem MidwayAt.skip (h : MidwayAt f settings root k w) (hn : f.node? (some k) = some n)
    (hspec : n.isSpecifier = true) : MidwayAt f settings root (k + 1) w := by
  obtain ⟨c, d, hw, h⟩ := h
  have himport : n.isImport = false := by
    cases n <;> first | rfl | cases hspec
  have hexpr : n.isExpressionStatement = false := by
    cases n <;> first | rfl | cases hspec
  obtain ⟨hfeature, htools⟩ := imports_eq_false hn himport
  exact ⟨c, d, hw, h.skip hfeature htools (helperCall?_eq_none hn hexpr)⟩

variable {lo hi fuel : Nat} {t : Tree} {ts : List Tree} {r : Ref} {rs : List Ref} {u : Unit}

/-- The pass does not look below an import. -/
theorem MidwayAt.skip_specifiers (h : MidwayAt f settings root lo w)
    (hlaid : LaidAll f lo hi rs ts)
    (hspec : ∀ r ∈ rs, ∃ s n, r = some s ∧ f.node? (some s) = some n ∧ n.isSpecifier = true) :
    MidwayAt f settings root hi w := by
  induction ts generalizing lo rs with
  | nil =>
    cases hlaid
    exact h
  | cons t ts ih =>
    cases hlaid with
    | @cons _ mid _ r _ rs _ hhead htail =>
      obtain ⟨s, n, rfl, hn, hs⟩ := hspec r (by simp)
      have hchildren : n.children = [] := by
        cases n <;> first | rfl | cases hs
      -- A specifier takes up one number.
      cases hhead with
      | @node _ _ pos top cell hslots hcell =>
        have hcell' : cell.node = n := by simpa [node?, hcell] using hn
        rw [hcell', hchildren] at hslots
        obtain rfl : lo = s := by
          generalize top.children = us at hslots
          cases hslots
          rfl
        exact ih (h.skip hn hs) htail fun r hr => hspec r (.tail _ hr)

/-- What the pass does with each part of a list, it does with the list. -/
theorem MidwayAt.forM (h : MidwayAt f settings root lo w) (hlaid : LaidAll f lo hi rs ts)
    (hpart : ∀ t ∈ ts, ∀ ⦃lo' hi' : Nat⦄ ⦃r' : Ref⦄ ⦃v v' : Work⦄, Laid f lo' hi' r' t →
      lo ≤ lo' → hi' ≤ hi → MidwayAt f settings root lo' v →
      Yields (Expand.visitUpTo settings fuel r') v () v' → MidwayAt f settings root hi' v')
    (hrun : Yields ((rs.filterMap id).forM fun (c : Nat) => Expand.visitUpTo settings fuel c)
      w u w') : MidwayAt f settings root hi w' := by
  induction ts generalizing lo rs w with
  | nil =>
    cases hlaid
    obtain rfl := yields_forM_nil.1 hrun
    exact h
  | cons t ts ih =>
    cases hlaid with
    | @cons _ mid _ r _ rs _ hhead htail =>
      have hmid := htail.le
      have hlo := hhead.le
      have hrest : ∀ t ∈ ts, ∀ ⦃lo' hi' : Nat⦄ ⦃r' : Ref⦄ ⦃v v' : Work⦄, Laid f lo' hi' r' t →
          mid ≤ lo' → hi' ≤ hi → MidwayAt f settings root lo' v →
          Yields (Expand.visitUpTo settings fuel r') v () v' →
          MidwayAt f settings root hi' v' := by
        intro t ht lo' hi' r' v v' hl hle
        exact hpart t (List.mem_cons_of_mem _ ht) hl (Nat.le_trans hlo hle)
      cases r with
      | none =>
        cases hhead
        exact ih h htail hrest hrun
      | some c =>
        obtain ⟨v, hfirst, hrun⟩ := yields_forM_cons.1 hrun
        exact ih (hpart t (by simp) hhead (Nat.le_refl _) hmid h hfirst) htail hrest hrun

/-- The pass works through the range of numbers that a part of the script takes up. -/
theorem midway_visit (hp : f.Parsed root) (hlaid : Laid f lo hi r t) (hhi : hi - lo ≤ fuel)
    (h : MidwayAt f settings root lo w)
    (hrun : Yields (Expand.visitUpTo settings fuel r) w u w') :
    MidwayAt f settings root hi w' := by
  induction t using Tree.induct generalizing lo hi r fuel w w' with
  | absent =>
    cases hlaid
    cases fuel with
    | zero =>
      obtain ⟨-, rfl⟩ := yields_pure.1 hrun
      exact h
    | succ fuel =>
      obtain ⟨g, v, hforest, hrun⟩ := yields_bind.1 hrun
      obtain ⟨rfl, rfl⟩ := Expand.yields_forest.1 hforest
      obtain ⟨-, rfl⟩ := yields_pure.1 hrun
      exact h
  | dangling => cases hlaid
  | node pos top ih =>
    cases hlaid with
    | @node _ last _ _ cell hslots hcell hpos hshape hparent =>
      have hle := hslots.le
      have hn : f.node? (some last) = some cell.node := by simp [node?, hcell]
      obtain ⟨fuel, rfl⟩ : ∃ k, fuel = k + 1 := ⟨fuel - 1, by omega⟩
      have hgn : w.forest.node? (some last) = some cell.node := by
        obtain ⟨c, d, hw, h⟩ := id h
        rw [← hw]
        refine h.node?_eq hn fun j hj => ?_
        obtain ⟨t, -, lo', hi', hlo, -, hlaid⟩ := hslots.exists_tree hj
        exact Nat.le_trans hlo hlaid.root_mem.1
      unfold Expand.visitUpTo at hrun
      obtain ⟨g, v, hforest, hrun⟩ := yields_bind.1 hrun
      obtain ⟨rfl, rfl⟩ := Expand.yields_forest.1 hforest
      rw [hgn] at hrun
      split at hrun
      next => rename_i heq; cases heq
      next specifiers source heq =>
        rw [Option.some.inj heq] at hn hslots
        obtain ⟨c, d, hw, h⟩ := h.skip_specifiers hslots fun r hr => by
          rcases hp.child hn r hr with ⟨-, h⟩ | ⟨s, m, rfl, -, -, hm, ht⟩
          · cases h
          · exact ⟨s, m, rfl, hm, ht⟩
        exact h.visitImport hp hw hn hrun
      next himport heq =>
        obtain ⟨v, w₁, hforM, hqueue⟩ := yields_bind.1 hrun
        have hchildren : w.forest.childrenOf (some last) = cell.node.children.filterMap id := by
          rw [childrenOf, hgn]
          rfl
        rw [hchildren] at hforM
        obtain ⟨c, d, hw, h⟩ := h.forM hslots (fun t ht lo' hi' r' v v' hl hlo hhi' hv hrun' =>
          ih t ht hl (by omega) hv hrun') hforM
        have himport' : cell.node.isImport = false := by
          cases hnode : cell.node <;>
            first | rfl | exact absurd ((Option.some.inj heq).symm.trans hnode) (himport _ _)
        obtain ⟨b, hqueue⟩ := yields_discard.1 hqueue
        obtain ⟨d', hw', h'⟩ := h.queue hp hw hn himport' hqueue
        exact ⟨c, d', hw', h'⟩

end DebugGuard
