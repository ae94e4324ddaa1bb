import DebugGuard.Proofs.Script.Productions
import DebugGuard.Proofs.Script.Scan
import DebugGuard.Proofs.Script.Tree
import DebugGuard.Proofs.Text.Offset

/-!
# The extent of a phrase

The tokens of a text stand one behind the other (`Cursor.Rising`), and a tree that is read from them
stands like this too (`Tree.Spans`): a node starts where its phrase starts, its parts follow each
other inside of it, and none of them is empty.

Main statement: `spans_of_parse`, by one induction over the grammar.
-/

namespace DebugGuard

namespace Tree

mutual

/-- The tree stands between `lo` and `hi`: it starts at `lo`, and its parts follow each other. -/
inductive Spans : Nat → Nat → Tree → Prop
  | absent {lo hi} (h : lo ≤ hi) : Spans lo hi .absent
  | node {lo hi top} (h : lo < hi) (hparts : SpansAll lo hi top.children) :
      Spans lo hi (.node lo top)

/-- The trees stand between `lo` and `hi`, one behind the other. -/
inductive SpansAll : Nat → Nat → List Tree → Prop
  | nil {lo hi} (h : lo ≤ hi) : SpansAll lo hi []
  | cons {lo start mid hi t ts} (hlo : lo ≤ start) (hhead : Spans start mid t)
      (htail : SpansAll mid hi ts) : SpansAll lo hi (t :: ts)

end

variable {lo hi lo' hi' : Nat} {t : Tree} {ts us : List Tree}

theorem Spans.le (h : Spans lo hi t) : lo ≤ hi := by
  cases h with
  | absent h => exact h
  | node h _ => exact Nat.le_of_lt h

theorem SpansAll.le (h : SpansAll lo hi ts) : lo ≤ hi := by
  induction ts generalizing lo with
  | nil =>
    cases h with
    | nil h => exact h
  | cons t ts ih =>
    cases h with
    | cons hlo hhead htail => exact Nat.le_trans hlo (Nat.le_trans hhead.le (ih htail))

theorem SpansAll.weaken (h : SpansAll lo hi ts) (hlo : lo' ≤ lo) (hhi : hi ≤ hi') :
    SpansAll lo' hi' ts := by
  induction ts generalizing lo lo' with
  | nil => exact .nil (Nat.le_trans hlo (Nat.le_trans h.le hhi))
  | cons t ts ih =>
    cases h with
    | cons h hhead htail => exact .cons (Nat.le_trans hlo h) hhead (ih htail (Nat.le_refl _))

theorem Spans.weaken (h : Spans lo hi t) (hhi : hi ≤ hi') : Spans lo hi' t := by
  cases h with
  | absent h => exact .absent (Nat.le_trans h hhi)
  | node h hparts =>
    exact .node (Nat.lt_of_lt_of_le h hhi) (hparts.weaken (Nat.le_refl _) hhi)

theorem SpansAll.append {mid : Nat} (h : SpansAll lo mid ts) (h' : SpansAll mid hi us) :
    SpansAll lo hi (ts ++ us) := by
  induction ts generalizing lo with
  | nil => exact h'.weaken h.le (Nat.le_refl _)
  | cons t ts ih =>
    cases h with
    | cons hlo hhead htail => exact .cons hlo hhead (ih htail)

theorem SpansAll.single (h : Spans lo' hi' t) (hlo : lo ≤ lo') (hhi : hi' ≤ hi) :
    SpansAll lo hi [t] :=
  .cons hlo h (.nil hhi)

theorem SpansAll.of_mem (h : SpansAll lo hi ts) (ht : t ∈ ts) :
    ∃ lo' hi', lo ≤ lo' ∧ hi' ≤ hi ∧ Spans lo' hi' t := by
  induction ts generalizing lo with
  | nil => cases ht
  | cons u ts ih =>
    cases h with
    | cons hlo hhead htail =>
      rcases List.mem_cons.1 ht with rfl | ht
      · exact ⟨_, _, hlo, htail.le, hhead⟩
      · obtain ⟨lo', hi', h, hle, hspans⟩ := ih htail ht
        exact ⟨lo', hi', Nat.le_trans hlo (Nat.le_trans hhead.le h), hle, hspans⟩

end Tree

/-! ### Tokens -/

namespace Cursor

open DebugGuard.Tree

variable {stop : Nat} {ts s r : List Token} {t : Token} {p : Token → Bool}

/-- Where the tokens start; the text stops at `stop`. -/
def offset (stop : Nat) : List Token → Nat
  | [] => stop
  | t :: _ => t.start

/-- The tokens stand one behind the other, and all of them before `stop`. -/
def Rising (stop : Nat) : List Token → Prop
  | [] => True
  | t :: ts => t.start < offset stop ts ∧ Rising stop ts

theorem Rising.offset_le (h : Rising stop ts) : offset stop ts ≤ stop := by
  induction ts with
  | nil => exact Nat.le_refl _
  | cons t ts ih => exact Nat.le_trans (Nat.le_of_lt h.1) (ih h.2)

theorem start_eq_offset (h : r.length < ts.length) : start ts = offset stop ts := by
  cases ts with
  | nil => cases h
  | cons t ts => rfl

/-- Something has been read from `ts`, and `r` is left. -/
structure Past (stop : Nat) (ts r : List Token) : Prop where
  shorter : r.length < ts.length
  rising : Rising stop r
  lt : offset stop ts < offset stop r

theorem Front.past (h : Front p ts t r) (hts : Rising stop ts) : Past stop ts r := by
  obtain ⟨rfl, -⟩ := h
  exact ⟨Nat.lt_succ_self _, hts.2, hts.1⟩

theorem Past.trans (h : Past stop ts s) (h' : Past stop s r) : Past stop ts r :=
  ⟨Nat.lt_trans h'.shorter h.shorter, h'.rising, Nat.lt_trans h.lt h'.lt⟩

theorem Past.front (h : Past stop ts s) (ht : Front p s t r) : Past stop ts r :=
  h.trans (ht.past h.rising)

theorem Past.semicolon (h : Past stop ts s) (hs : Takes (Cursor.semicolon s) () r) :
    Past stop ts r ∧ offset stop s ≤ offset stop r := by
  rcases takes_semicolon.1 hs with ⟨t, ht⟩ | ⟨-, -, rfl⟩
  · exact ⟨h.front ht, Nat.le_of_lt (ht.past h.rising).lt⟩
  · exact ⟨h, Nat.le_refl _⟩

/-- A phrase has been read from `ts`, and its tree stands in front of `r`. -/
structure Covers (stop : Nat) (ts : List Token) (e : Tree) (r : List Token) : Prop
    extends Past stop ts r where
  spans : Spans (offset stop ts) (offset stop r) e

/-- The parts of a node have been read, one behind the other. -/
theorem Past.covers {top : Node Tree} (h : Past stop ts r)
    (hparts : SpansAll (offset stop ts) (offset stop r) top.children) :
    Covers stop ts (.node (start ts) top) r := by
  refine ⟨h, ?_⟩
  rw [start_eq_offset h.shorter]
  exact .node h.lt hparts

theorem Past.leaf {top : Node Tree} (h : Past stop ts r) (htop : top.children = []) :
    Covers stop ts (.node (start ts) top) r :=
  h.covers (htop ▸ .nil (Nat.le_of_lt h.lt))

/-- A word, an expression and the end of the statement. -/
theorem Past.ended {s' : List Token} {x : Tree} {top : Node Tree} (hs : Past stop ts s)
    (hx : Covers stop s x s') (hr : Takes (Cursor.semicolon s') () r) (htop : top.children = [x]) :
    Covers stop ts (.node (start ts) top) r := by
  obtain ⟨hr, hle⟩ := (hs.trans hx.toPast).semicolon hr
  refine hr.covers ?_
  rw [htop]
  exact .single hx.spans (Nat.le_of_lt hs.lt) hle

end Cursor

namespace Token

open Text

/-- The tokens of a text stand one behind the other, the last of them at its end. -/
theorem Scans.rising {pos : Nat} {cs : List Char} {ts : List Token} (h : Scans pos cs ts) :
    Cursor.Rising (pos + byteSize cs + 1) ts ∧
      pos ≤ Cursor.offset (pos + byteSize cs + 1) ts := by
  induction h with
  | @last pos cs n _ _ hcs =>
    have hall : cs.take n = cs := by simpa [hcs] using List.take_append_drop n cs
    rw [hall]
    exact ⟨⟨Nat.lt_succ_self _, trivial⟩, Nat.le_add_right ..⟩
  | @token pos cs n _ c r l ts _ hcs _ _ ih =>
    have hsize : byteSize cs =
        byteSize (cs.take n) + byteSize (c :: r.take l.more) + byteSize (r.drop l.more) := by
      rw [← byteSize_append, ← byteSize_append, List.append_assoc, List.cons_append,
        List.take_append_drop, ← hcs, List.take_append_drop]
    -- a lexeme has a first character, and every character takes a byte
    have hpos : 0 < byteSize (c :: r.take l.more) := by
      have := c.utf8Size_pos
      rw [byteSize_cons]
      omega
    rw [hsize, ← Nat.add_assoc, ← Nat.add_assoc]
    exact ⟨⟨by dsimp only; omega, ih.1⟩, Nat.le_add_right ..⟩

theorem rising_scan {source : String} {ts : List Token} (h : scan source = .ok ts) :
    Cursor.Rising (source.utf8ByteSize + 1) ts := by
  rw [utf8ByteSize_eq]
  simpa using (scans_of_scanFrom h).rising.1

end Token

namespace Grammar

open Cursor DebugGuard.Tree

variable {stop : Nat} {ts s r : List Token} {e : Tree} {α : Type}

/-- What holds of each item holds of a list of them; `parts` are the trees of an item. -/
theorem Items.spans {close : String} {item : List Token → α → List Token → Prop} {xs : List α}
    (parts : α → List Tree) (n : Nat)
    (hitem : ∀ us x s, us.length ≤ n → Rising stop us → item us x s →
      Past stop us s ∧ SpansAll (offset stop us) (offset stop s) (parts x))
    (h : Items close item ts xs r) (hn : ts.length ≤ n) (hts : Rising stop ts) :
    Past stop ts r ∧ SpansAll (offset stop ts) (offset stop r) (xs.flatMap parts) := by
  induction h with
  | nil ht =>
    have hr := ht.past hts
    exact ⟨hr, .nil (Nat.le_of_lt hr.lt)⟩
  | last _ hx _ ht =>
    obtain ⟨hs, hparts⟩ := hitem _ _ _ hn hts hx
    have hr := ht.past hs.rising
    refine ⟨hs.trans hr, ?_⟩
    rw [List.flatMap_singleton]
    exact hparts.weaken (Nat.le_refl _) (Nat.le_of_lt hr.lt)
  | more _ hx ht _ ih =>
    obtain ⟨hs, hparts⟩ := hitem _ _ _ hn hts hx
    have hs' := ht.past hs.rising
    have hshort := (hs.trans hs').shorter
    obtain ⟨hr, hrest⟩ := ih (by omega) hs'.rising
    refine ⟨(hs.trans hs').trans hr, ?_⟩
    rw [List.flatMap_cons]
    exact hparts.append (hrest.weaken (Nat.le_of_lt hs'.lt) (Nat.le_refl _))

/-- A list of phrases behind the mark that opens it. -/
theorem Items.covers {close : String} {item : List Token → Tree → List Token → Prop}
    {xs : List Tree}
    (hitem : ∀ us x s', us.length ≤ s.length → Rising stop us → item us x s' →
      Covers stop us x s')
    (h : Items close item s xs r) (hs : Past stop ts s) :
    Past stop ts r ∧ SpansAll (offset stop ts) (offset stop r) xs := by
  obtain ⟨hr, hall⟩ := h.spans (fun x => [x]) s.length (fun us x s' hus hrising hx =>
    have hx := hitem us x s' hus hrising hx
    ⟨hx.toPast, .single hx.spans (Nat.le_refl _) (Nat.le_refl _)⟩) (Nat.le_refl _) hs.rising
  rw [List.flatMap_singleton'] at hall
  exact ⟨hs.trans hr, hall.weaken (Nat.le_of_lt hs.lt) (Nat.le_refl _)⟩

/-! ### Phrases without expressions -/

theorem importName_covers (hts : Rising stop ts) (h : Takes (importName ts) e r) :
    Covers stop ts e r := by
  obtain ⟨n, s, hn, ⟨-, rfl, rfl⟩ | ⟨t, s', ht, b, s'', hb, rfl, rfl⟩⟩ := takes_importName.1 h
  · exact (hn.past hts).leaf rfl
  · exact (((hn.past hts).front ht).front hb).leaf rfl

theorem importNames_spans {xs : List Tree} (hts : Rising stop ts)
    (h : Takes (importNames ts) xs r) :
    Past stop ts r ∧ SpansAll (offset stop ts) (offset stop r) xs := by
  rcases takes_importNames.1 h with ⟨t, s, ht, w, s', hw, b, s'', hb, rfl, rfl⟩ |
    ⟨-, t, s, ht, xs, s', hxs, rfl, rfl⟩
  · have hr := ((ht.past hts).front hw).front hb
    have hall : Covers stop ts (.node (start ts) (.importAll b.text)) r := hr.leaf rfl
    exact ⟨hr, .single hall.spans (Nat.le_refl _) (Nat.le_refl _)⟩
  · exact hxs.covers (fun _ _ _ _ hus hx => importName_covers hus hx) (ht.past hts)

/-- The end of an import covers what its specifiers do. -/
theorem importSource_covers {specifiers : List Tree} (hs : Past stop ts s)
    (hall : SpansAll (offset stop ts) (offset stop s) specifiers)
    (h : Takes (importSource (start ts) specifiers s) e r) : Covers stop ts e r := by
  obtain ⟨w, s', hw, t, s'', ht, s₃, hs', rfl, rfl⟩ := takes_importSource.1 h
  have hw := hw.past hs.rising
  have ht := ht.past hw.rising
  obtain ⟨hr, hle⟩ := ((hs.trans hw).trans ht).semicolon hs'
  refine hr.covers (hall.weaken (Nat.le_refl _) ?_)
  exact Nat.le_trans (Nat.le_of_lt (Nat.lt_trans hw.lt ht.lt)) hle

theorem importStatement_covers (hts : Rising stop ts) (h : Takes (importStatement ts) e r) :
    Covers stop ts e r := by
  obtain ⟨w, s, hw, h⟩ := takes_importStatement.1 h
  have hs := hw.past hts
  rcases h with ⟨-, t, s', ht, s'', hs', rfl, rfl⟩ | ⟨-, b, s', hb, h⟩ |
    ⟨-, xs, s', hxs, e, s'', he, rfl, rfl⟩
  · exact ((hs.front ht).semicolon hs').1.leaf rfl
  · have hs' := hb.past hs.rising
    have hb : Covers stop s (.node (start s) (.importDefault b.text)) s' := hs'.leaf rfl
    rcases h with ⟨-, e, s'', he, rfl, rfl⟩ | ⟨c, s₂, hc, xs, s₃, hxs, e, s₄, he, rfl, rfl⟩
    · exact importSource_covers (hs.trans hs')
        (.single hb.spans (Nat.le_of_lt hs.lt) (Nat.le_refl _)) he
    · have hc := hc.past hs'.rising
      obtain ⟨hs₃, hxs⟩ := importNames_spans hc.rising hxs
      exact importSource_covers (((hs.trans hs').trans hc).trans hs₃)
        (.cons (Nat.le_of_lt hs.lt) hb.spans
          (hxs.weaken (Nat.le_of_lt hc.lt) (Nat.le_refl _))) he
  · obtain ⟨hs', hxs⟩ := importNames_spans hs.rising hxs
    exact importSource_covers (hs.trans hs') (hxs.weaken (Nat.le_of_lt hs.lt) (Nat.le_refl _)) he

theorem parameters_past {xs : List String} (hts : Rising stop ts)
    (h : Takes (parameters ts) xs r) : Past stop ts r := by
  obtain ⟨t, s, ht, ns, s', hns, rfl, rfl⟩ := takes_parameters.1 h
  have hs := ht.past hts
  exact hs.trans (hns.spans (fun _ => []) s.length (fun us x s' _ hus hx =>
    ⟨hx.past hus, .nil (Nat.le_of_lt (hx.past hus).lt)⟩) (Nat.le_refl _) hs.rising).1

theorem arrowParameters_past {xs : List String} (hts : Rising stop ts)
    (h : Takes (arrowParameters ts) xs r) : Past stop ts r := by
  rcases takes_arrowParameters.1 h with ⟨-, h⟩ | ⟨-, n, s, hn, rfl, rfl⟩
  · exact parameters_past hts h
  · exact hn.past hts

theorem propertyKey_past {k : String × Bool} (hts : Rising stop ts)
    (h : Takes (propertyKey ts) k r) : Past stop ts r := by
  rcases takes_propertyKey.1 h with ⟨t, s, ht, rfl, rfl⟩ | ⟨-, t, s, ht, rfl, rfl⟩
  · exact ht.past hts
  · exact ht.past hts

theorem children_of_atom? {t : Token} {top : Node Tree} (h : atom? t = some top) :
    top.children = [] := by
  unfold atom? at h
  repeat' split at h
  all_goals cases h <;> rfl

/-! ### Statements and expressions -/

/-- Statements and expressions of fewer than `n` tokens cover what they are read from. -/
structure CoversBelow (stop n : Nat) : Prop where
  statement {ts r : List Token} {e : Tree} (hlen : ts.length < n) (hts : Rising stop ts)
    (h : Takes (statement ts) e r) : Covers stop ts e r
  expression {ts r : List Token} {e : Tree} (hlen : ts.length < n) (hts : Rising stop ts)
    (h : Takes (expression ts) e r) : Covers stop ts e r

section

variable {n : Nat} (ih : CoversBelow stop n)
include ih

theorem statements_spans {ts r : List Token} {body : List Tree} (hlen : ts.length < n)
    (hts : Rising stop ts) (h : Takes (statements ts) body r) :
    Past stop ts r ∧ SpansAll (offset stop ts) (offset stop r) body := by
  rcases takes_statements.1 h with ⟨t, s, ht, rfl, rfl⟩ |
    ⟨-, -, e, s, he, more, s', hmore, rfl, rfl⟩
  · have hr := ht.past hts
    exact ⟨hr, .nil (Nat.le_of_lt hr.lt)⟩
  · have he := ih.statement hlen hts he
    have := he.shorter
    obtain ⟨hr, hall⟩ := statements_spans (by omega) he.rising hmore
    exact ⟨he.toPast.trans hr, .cons (Nat.le_refl _) he.spans hall⟩
termination_by ts.length

theorem block_covers {ts r : List Token} {e : Tree} (hlen : ts.length ≤ n)
    (hts : Rising stop ts) (h : Takes (block ts) e r) : Covers stop ts e r := by
  obtain ⟨t, s, ht, body, s', hbody, rfl, rfl⟩ := takes_block.1 h
  have hs := ht.past hts
  have := hs.shorter
  obtain ⟨hr, hall⟩ := statements_spans ih (by omega) hs.rising hbody
  exact (hs.trans hr).covers (hall.weaken (Nat.le_of_lt hs.lt) (Nat.le_refl _))

theorem arguments_spans {ts r : List Token} {args : List Tree} (hlen : ts.length ≤ n)
    (hts : Rising stop ts) (h : Takes (arguments ts) args r) :
    Past stop ts r ∧ SpansAll (offset stop ts) (offset stop r) args := by
  obtain ⟨t, s, ht, xs, s', hxs, rfl, rfl⟩ := takes_arguments.1 h
  have hs := ht.past hts
  have := hs.shorter
  exact hxs.covers (fun _ _ _ _ hus hx => ih.expression (by omega) hus hx) hs

theorem property_covers {ts r : List Token} {e : Tree} (hlen : ts.length ≤ n)
    (hts : Rising stop ts) (h : Takes (property ts) e r) : Covers stop ts e r := by
  obtain ⟨k, s, hk, h⟩ := takes_property.1 h
  have hs := propertyKey_past hts hk
  rcases h with ⟨c, s', hc, v, s'', hv, rfl, rfl⟩ | ⟨-, hq, rfl, rfl⟩
  · have hs' := hs.front hc
    have := hs'.shorter
    have hv := ih.expression (by omega) hs'.rising hv
    exact (hs'.trans hv.toPast).covers
      (.single hv.spans (Nat.le_of_lt hs'.lt) (Nat.le_refl _))
  · -- the name stands for itself, so the property and its value start at the same token
    have hv : Covers stop ts (.node (start ts) (.identifier k.1)) r := hs.leaf rfl
    exact hs.covers (.single hv.spans (Nat.le_refl _) (Nat.le_refl _))

theorem functionExpression_covers {ts r : List Token} {e : Tree} (hlen : ts.length ≤ n)
    (hts : Rising stop ts) (h : Takes (functionExpression ts) e r) : Covers stop ts e r := by
  obtain ⟨w, s, hw, h⟩ := takes_functionExpression.1 h
  have hs := hw.past hts
  -- the body is all that a function has below it
  have build {name : Option String} {params : List String} {s' r : List Token} {body : Tree}
      (hs' : Past stop ts s') (hb : Takes (block s') body r) :
      Covers stop ts (.node (start ts) (.functionExpression name params body)) r := by
    have := hs'.shorter
    have hb := block_covers ih (by omega) hs'.rising hb
    exact (hs'.trans hb.toPast).covers (.single hb.spans (Nat.le_of_lt hs'.lt) (Nat.le_refl _))
  rcases h with ⟨-, n, s', hn, params, s'', hp, body, s₃, hb, rfl, rfl⟩ |
    ⟨-, params, s', hp, body, s'', hb, rfl, rfl⟩
  · have hs' := hs.front hn
    exact build (hs'.trans (parameters_past hs'.rising hp)) hb
  · exact build (hs.trans (parameters_past hs.rising hp)) hb

theorem primary_covers {ts r : List Token} {e : Tree} (hlen : ts.length ≤ n)
    (hts : Rising stop ts) (h : Takes (primary ts) e r) : Covers stop ts e r := by
  rcases takes_primary.1 h with ⟨t, s, ht, rfl, rfl⟩ | ⟨-, ⟨-, h⟩ |
    ⟨t, s, ht, x, s', hx, c, s'', hc, rfl, rfl⟩ | ⟨t, s, ht, ps, s', hps, rfl, rfl⟩ |
    ⟨t, s, ht, es, s', hes, rfl, rfl⟩⟩
  · obtain ⟨top, htop⟩ := Option.isSome_iff_exists.1 ht.2
    rw [htop]
    exact (ht.past hts).leaf (children_of_atom? htop)
  · exact functionExpression_covers ih hlen hts h
  all_goals
    have hs := ht.past hts
    have := hs.shorter
  · have hx := ih.expression (by omega) hs.rising hx
    have hc := hc.past hx.rising
    exact ((hs.trans hx.toPast).trans hc).covers
      (.single hx.spans (Nat.le_of_lt hs.lt) (Nat.le_of_lt hc.lt))
  · obtain ⟨hr, hall⟩ := hps.covers
      (fun _ _ _ _ hus hx => property_covers ih (by omega) hus hx) hs
    exact hr.covers hall
  · obtain ⟨hr, hall⟩ := hes.covers
      (fun _ _ _ _ hus hx => ih.expression (by omega) hus hx) hs
    exact hr.covers hall

theorem access_covers {ts₀ ts r : List Token} {object e : Tree} (hlen : ts.length ≤ n)
    (hp : Past stop ts₀ ts) (ho : SpansAll (offset stop ts₀) (offset stop ts) [object])
    (h : Finds (access? (start ts₀) object ts) e r) : Covers stop ts₀ e r := by
  rcases finds_access?.1 h with ⟨d, s, hd, n, s', hn, rfl, rfl⟩ |
    ⟨-, b, s, hb, i, s', hi, c, s'', hc, rfl, rfl⟩
  · have hr := (hd.past hp.rising).front hn
    exact (hp.trans hr).covers (ho.weaken (Nat.le_refl _) (Nat.le_of_lt hr.lt))
  · have hb := hb.past hp.rising
    have := hb.shorter
    have hi := ih.expression (by omega) hb.rising hi
    have hc := hc.past hi.rising
    exact (((hp.trans hb).trans hi.toPast).trans hc).covers
      (ho.append (.single hi.spans (Nat.le_of_lt hb.lt) (Nat.le_of_lt hc.lt)))

/-- The object need not start where its accesses do: behind `new` they start at that word. -/
theorem accessTail_spans {ts₀ ts r : List Token} {object e : Tree} (hlen : ts.length ≤ n)
    (hp : Past stop ts₀ ts) (ho : SpansAll (offset stop ts₀) (offset stop ts) [object])
    (h : Takes (accessTail (start ts₀) object ts) e r) :
    Past stop ts₀ r ∧ SpansAll (offset stop ts₀) (offset stop r) [e] := by
  rcases takes_accessTail.1 h with ⟨-, rfl, rfl⟩ | ⟨o, s, hs, x, s', hx, rfl, rfl⟩
  · exact ⟨hp, ho⟩
  · have := hs.shorter
    have hs := access_covers ih hlen hp ho hs
    exact accessTail_spans (by omega) hs.toPast
      (.single hs.spans (Nat.le_refl _) (Nat.le_refl _)) hx
termination_by ts.length

theorem construct_covers {ts r : List Token} {e : Tree} (hlen : ts.length ≤ n)
    (hts : Rising stop ts) (h : Takes (construct ts) e r) : Covers stop ts e r := by
  obtain ⟨w, s, hw, o, s', ho, c, s'', hc, h⟩ := takes_construct.1 h
  have hs := hw.past hts
  have := hs.shorter
  have ho := primary_covers ih (by omega) hs.rising ho
  have := ho.shorter
  obtain ⟨hp, hc⟩ := accessTail_spans ih (by omega) (hs.trans ho.toPast)
    (.single ho.spans (Nat.le_of_lt hs.lt) (Nat.le_refl _)) hc
  rcases h with ⟨-, args, s₃, hargs, rfl, rfl⟩ | ⟨-, rfl, rfl⟩
  · have := hp.shorter
    obtain ⟨hr, hargs⟩ := arguments_spans ih (by omega) hp.rising hargs
    exact (hp.trans hr).covers (hc.append hargs)
  · exact hp.covers hc

theorem callTail_covers {ts₀ ts r : List Token} {callee e : Tree} (hlen : ts.length ≤ n)
    (hc : Covers stop ts₀ callee ts) (h : Takes (callTail (start ts₀) callee ts) e r) :
    Covers stop ts₀ e r := by
  rcases takes_callTail.1 h with ⟨-, args, s, hargs, x, s', hx, rfl, rfl⟩ |
    ⟨-, ⟨-, rfl, rfl⟩ | ⟨o, s, hs, x, s', hx, rfl, rfl⟩⟩
  · obtain ⟨hs, hargs⟩ := arguments_spans ih hlen hc.rising hargs
    have := hs.shorter
    have hcall : Covers stop ts₀ (.node (start ts₀) (.call callee args)) s :=
      (hc.toPast.trans hs).covers (.cons (Nat.le_refl _) hc.spans hargs)
    exact callTail_covers (by omega) hcall hx
  · exact hc
  · have := hs.shorter
    have hs := access_covers ih hlen hc.toPast
      (.single hc.spans (Nat.le_refl _) (Nat.le_refl _)) hs
    exact callTail_covers (by omega) hs hx
termination_by ts.length

theorem unary_covers {ts r : List Token} {e : Tree} (hlen : ts.length ≤ n)
    (hts : Rising stop ts) (h : Takes (unary ts) e r) : Covers stop ts e r := by
  rcases takes_unary.1 h with ⟨op, s, hop, x, s', hx, rfl, rfl⟩ |
    ⟨-, c, s, hc, x, s', hx, rfl, rfl⟩
  · have hs := hop.past hts
    have := hs.shorter
    have hx := unary_covers (by omega) hs.rising hx
    exact (hs.trans hx.toPast).covers (.single hx.spans (Nat.le_of_lt hs.lt) (Nat.le_refl _))
  · have hc : Covers stop ts c s := by
      split at hc
      · exact construct_covers ih hlen hts hc
      · exact primary_covers ih hlen hts hc
    have := hc.shorter
    exact callTail_covers ih (by omega) hc hx
termination_by ts.length

set_option linter.unusedSectionVars false in
mutual

theorem binary_covers {ts r : List Token} {e : Tree} {least : Nat} (hlen : ts.length ≤ n)
    (hts : Rising stop ts) (h : Takes (binary least ts) e r) : Covers stop ts e r := by
  obtain ⟨l, s, hl, x, s', hx, rfl, rfl⟩ := takes_binary.1 h
  have hl := unary_covers ih hlen hts hl
  have := hl.shorter
  exact binaryTail_covers (by omega) hl hx
termination_by (ts.length, 1)

theorem binaryTail_covers {ts₀ ts r : List Token} {left e : Tree} {least : Nat}
    (hlen : ts.length ≤ n) (hl : Covers stop ts₀ left ts)
    (h : Takes (binaryTail (start ts₀) least left ts) e r) : Covers stop ts₀ e r := by
  rcases takes_binaryTail.1 h with ⟨-, rfl, rfl⟩ |
    ⟨op, p, s, hop, x, s', hx, y, s'', hy, rfl, rfl⟩
  · exact hl
  · obtain ⟨t, ht, -⟩ := operates_iff.1 hop
    have hs := ht.past hl.rising
    have := hs.shorter
    have hx := binary_covers (by omega) hs.rising hx
    have := hx.shorter
    have hjoined : Covers stop ts₀ (.node (start ts₀) (.binary left op x)) s' :=
      ((hl.toPast.trans hs).trans hx.toPast).covers (.cons (Nat.le_refl _) hl.spans
        (.single hx.spans (Nat.le_of_lt hs.lt) (Nat.le_refl _)))
    exact binaryTail_covers (by omega) hjoined hy
termination_by (ts.length, 0)

end

theorem conditional_covers {ts r : List Token} {e : Tree} (hlen : ts.length ≤ n)
    (hts : Rising stop ts) (h : Takes (conditional ts) e r) : Covers stop ts e r := by
  obtain ⟨c, s, hc, h⟩ := takes_conditional.1 h
  have hc := binary_covers ih hlen hts hc
  rcases h with ⟨-, rfl, rfl⟩ | ⟨q, s', hq, y, s₂, hy, k, s₃, hk, n, s₄, hn, rfl, rfl⟩
  · exact hc
  · have hq := hq.past hc.rising
    have := (hc.toPast.trans hq).shorter
    have hy := ih.expression (by omega) hq.rising hy
    have hk := hk.past hy.rising
    have := (hy.toPast.trans hk).shorter
    have hn := ih.expression (by omega) hk.rising hn
    exact ((((hc.toPast.trans hq).trans hy.toPast).trans hk).trans hn.toPast).covers
      (.cons (Nat.le_refl _) hc.spans (.cons (Nat.le_of_lt hq.lt) hy.spans
        (.single hn.spans (Nat.le_of_lt hk.lt) (Nat.le_refl _))))

theorem arrow_covers {ts r : List Token} {e : Tree} (hlen : ts.length ≤ n)
    (hts : Rising stop ts) (h : Takes (arrow ts) e r) : Covers stop ts e r := by
  obtain ⟨params, s, hp, t, s', ht, body, s'', hb, rfl, rfl⟩ := takes_arrow.1 h
  have hs := (arrowParameters_past hts hp).front ht
  have := hs.shorter
  have hb : Covers stop s' body r := by
    split at hb
    · exact block_covers ih (by omega) hs.rising hb
    · exact ih.expression (by omega) hs.rising hb
  exact (hs.trans hb.toPast).covers (.single hb.spans (Nat.le_of_lt hs.lt) (Nat.le_refl _))

theorem expression_covers {ts r : List Token} {e : Tree} (hlen : ts.length ≤ n)
    (hts : Rising stop ts) (h : Takes (expression ts) e r) : Covers stop ts e r := by
  rcases takes_expression.1 h with ⟨-, h⟩ | ⟨-, t, s, ht, h⟩
  · exact arrow_covers ih hlen hts h
  · have ht := conditional_covers ih hlen hts ht
    rcases h with ⟨-, rfl, rfl⟩ | ⟨op, s', hop, -, v, s'', hv, rfl, rfl⟩
    · exact ht
    · have hs := hop.past ht.rising
      have := (ht.toPast.trans hs).shorter
      have hv := ih.expression (by omega) hs.rising hv
      exact ((ht.toPast.trans hs).trans hv.toPast).covers (.cons (Nat.le_refl _) ht.spans
        (.single hv.spans (Nat.le_of_lt hs.lt) (Nat.le_refl _)))

theorem declarators_spans {ts r : List Token} {keyword : VarKeyword} {ds : List Tree}
    (hlen : ts.length ≤ n) (hts : Rising stop ts) (h : Takes (declarators keyword ts) ds r) :
    Past stop ts r ∧ SpansAll (offset stop ts) (offset stop r) ds := by
  obtain ⟨n, s, hn, init, s', hinit, h⟩ := takes_declarators.1 h
  have hs := hn.past hts
  have := hs.shorter
  have hd : Covers stop ts (.node (start ts) (.declarator n.text init)) s' := by
    rcases takes_initializer.1 hinit with ⟨t, s₂, ht, x, s₃, hx, rfl, rfl⟩ | ⟨-, -, rfl, rfl⟩
    · have hs₂ := hs.front ht
      have := hs₂.shorter
      have hx := ih.expression (by omega) hs₂.rising hx
      exact (hs₂.trans hx.toPast).covers
        (.single hx.spans (Nat.le_of_lt hs₂.lt) (Nat.le_refl _))
    · exact hs.covers (.single (.absent (Nat.le_of_lt hs.lt)) (Nat.le_refl _) (Nat.le_refl _))
  rcases h with ⟨-, rfl, rfl⟩ | ⟨c, s₂, hc, more, s₃, hmore, rfl, rfl⟩
  · exact ⟨hd.toPast, .single hd.spans (Nat.le_refl _) (Nat.le_refl _)⟩
  · have hc := hc.past hd.rising
    have := (hd.toPast.trans hc).shorter
    obtain ⟨hr, hall⟩ := declarators_spans (by omega) hc.rising hmore
    exact ⟨(hd.toPast.trans hc).trans hr, .cons (Nat.le_refl _) hd.spans
      (hall.weaken (Nat.le_of_lt hc.lt) (Nat.le_refl _))⟩
termination_by ts.length

theorem varDeclaration_covers {ts r : List Token} {e : Tree} (hlen : ts.length ≤ n)
    (hts : Rising stop ts) (h : Takes (varDeclaration ts) e r) : Covers stop ts e r := by
  obtain ⟨t, s, ht, ds, s', hds, s'', hs'', rfl, rfl⟩ := takes_varDeclaration.1 h
  have hs := ht.past hts
  have := hs.shorter
  obtain ⟨hs', hall⟩ := declarators_spans ih (by omega) hs.rising hds
  obtain ⟨hr, hle⟩ := (hs.trans hs').semicolon hs''
  exact hr.covers (hall.weaken (Nat.le_of_lt hs.lt) hle)

theorem functionDeclaration_covers {ts r : List Token} {e : Tree} (hlen : ts.length ≤ n)
    (hts : Rising stop ts) (h : Takes (functionDeclaration ts) e r) : Covers stop ts e r := by
  obtain ⟨w, s, hw, n, s', hn, params, s'', hp, body, s₃, hb, rfl, rfl⟩ :=
    takes_functionDeclaration.1 h
  have hs := (hw.past hts).front hn
  have hs := hs.trans (parameters_past hs.rising hp)
  have := hs.shorter
  have hb := block_covers ih (by omega) hs.rising hb
  exact (hs.trans hb.toPast).covers (.single hb.spans (Nat.le_of_lt hs.lt) (Nat.le_refl _))

theorem ifStatement_covers {ts r : List Token} {e : Tree} (hlen : ts.length ≤ n)
    (hts : Rising stop ts) (h : Takes (ifStatement ts) e r) : Covers stop ts e r := by
  obtain ⟨w, s, hw, a, s', ha, c, s₂, hc, b, s₃, hb, y, s₄, hy, h⟩ := takes_ifStatement.1 h
  have hs := (hw.past hts).front ha
  have := hs.shorter
  have hc := ih.expression (by omega) hs.rising hc
  have hb := hb.past hc.rising
  have := (hc.toPast.trans hb).shorter
  have hy := ih.statement (by omega) hb.rising hy
  have hs₄ := ((hs.trans hc.toPast).trans hb).trans hy.toPast
  rcases h with ⟨-, rfl, rfl⟩ | ⟨t, s₅, ht, n, s₆, hn, rfl, rfl⟩
  · exact hs₄.covers (.cons (Nat.le_of_lt hs.lt) hc.spans (.cons (Nat.le_of_lt hb.lt) hy.spans
      (.single (.absent (Nat.le_refl _)) (Nat.le_refl _) (Nat.le_refl _))))
  · have ht := ht.past hy.rising
    have := (hs₄.trans ht).shorter
    have hn := ih.statement (by omega) ht.rising hn
    exact ((hs₄.trans ht).trans hn.toPast).covers (.cons (Nat.le_of_lt hs.lt) hc.spans
      (.cons (Nat.le_of_lt hb.lt) hy.spans
        (.single hn.spans (Nat.le_of_lt ht.lt) (Nat.le_refl _))))

theorem returnStatement_covers {ts r : List Token} {e : Tree} (hlen : ts.length ≤ n)
    (hts : Rising stop ts) (h : Takes (returnStatement ts) e r) : Covers stop ts e r := by
  obtain ⟨w, s, hw, h⟩ := takes_returnStatement.1 h
  have hs := hw.past hts
  have := hs.shorter
  rcases h with ⟨-, s', hs', rfl, rfl⟩ | ⟨-, x, s', hx, s'', hs'', rfl, rfl⟩
  · have hr := (hs.semicolon hs').1
    exact hr.covers (.single (.absent (Nat.le_of_lt hr.lt)) (Nat.le_refl _) (Nat.le_refl _))
  · exact hs.ended (ih.expression (by omega) hs.rising hx) hs'' rfl

theorem throwStatement_covers {ts r : List Token} {e : Tree} (hlen : ts.length ≤ n)
    (hts : Rising stop ts) (h : Takes (throwStatement ts) e r) : Covers stop ts e r := by
  obtain ⟨w, s, hw, -, x, s', hx, s'', hs'', rfl, rfl⟩ := takes_throwStatement.1 h
  have hs := hw.past hts
  have := hs.shorter
  exact hs.ended (ih.expression (by omega) hs.rising hx) hs'' rfl

theorem expressionStatement_covers {ts r : List Token} {e : Tree} (hlen : ts.length ≤ n)
    (hts : Rising stop ts) (h : Takes (expressionStatement ts) e r) : Covers stop ts e r := by
  obtain ⟨x, s, hx, s', hs, rfl, rfl⟩ := takes_expressionStatement.1 h
  have hx := expression_covers ih hlen hts hx
  obtain ⟨hr, hle⟩ := hx.toPast.semicolon hs
  exact hr.covers (.single hx.spans (Nat.le_refl _) hle)

theorem exportStatement_covers {ts r : List Token} {e : Tree} (hlen : ts.length ≤ n)
    (hts : Rising stop ts) (h : Takes (exportStatement ts) e r) : Covers stop ts e r := by
  obtain ⟨w, s, hw, h⟩ := takes_exportStatement.1 h
  have hs := hw.past hts
  rcases h with ⟨t, s', ht, x, s₂, hx, s₃, hs₃, rfl, rfl⟩ | ⟨-, d, s', hd, rfl, rfl⟩
  · have hs' := hs.front ht
    have := hs'.shorter
    refine hs'.ended ?_ hs₃ rfl
    split at hx
    · exact functionExpression_covers ih (by omega) hs'.rising hx
    · exact ih.expression (by omega) hs'.rising hx
  · have := hs.shorter
    have hd : Covers stop s d r := by
      split at hd
      · exact varDeclaration_covers ih (by omega) hs.rising hd
      · exact functionDeclaration_covers ih (by omega) hs.rising hd.2
    exact (hs.trans hd.toPast).covers (.single hd.spans (Nat.le_of_lt hs.lt) (Nat.le_refl _))

theorem statement_covers {ts r : List Token} {e : Tree} (hlen : ts.length ≤ n)
    (hts : Rising stop ts) (h : Takes (statement ts) e r) : Covers stop ts e r := by
  replace h := takes_statement.1 h
  dsimp only at h
  split at h
  · exact block_covers ih hlen hts h
  split at h
  · obtain ⟨t, s, ht, rfl, rfl⟩ := h
    exact (ht.past hts).leaf rfl
  split at h
  · exact importStatement_covers hts h
  split at h
  · exact exportStatement_covers ih hlen hts h
  split at h
  · exact varDeclaration_covers ih hlen hts h
  split at h
  · exact varDeclaration_covers ih hlen hts h
  split at h
  · exact functionDeclaration_covers ih hlen hts h
  split at h
  · exact ifStatement_covers ih hlen hts h
  split at h
  · exact returnStatement_covers ih hlen hts h
  split at h
  · exact throwStatement_covers ih hlen hts h
  · exact expressionStatement_covers ih hlen hts h

end

theorem coversBelow (stop n : Nat) : CoversBelow stop n := by
  induction n with
  | zero => exact ⟨fun h => absurd h (Nat.not_lt_zero _), fun h => absurd h (Nat.not_lt_zero _)⟩
  | succ n ih =>
    exact ⟨fun hn => statement_covers ih (Nat.le_of_lt_succ hn),
      fun hn => expression_covers ih (Nat.le_of_lt_succ hn)⟩

theorem script_spans {ts : List Token} {body : List Tree} (hts : Rising stop ts)
    (h : script ts = .ok body) : SpansAll (offset stop ts) stop body := by
  rcases script_eq_ok.1 h with ⟨-, rfl⟩ | ⟨-, e, s, he, more, hmore, rfl⟩
  · exact .nil hts.offset_le
  · have := he.shorter
    have he := (coversBelow stop (ts.length + 1)).statement (Nat.lt_succ_self _) hts he
    exact .cons (Nat.le_refl _) he.spans (script_spans he.rising hmore)
termination_by ts.length

end Grammar

/-- What is parsed stands in the order of the text, and nothing starts behind its end. -/
theorem Tree.spans_of_parse {source : String} {t : Tree} (h : Tree.parse source = .ok t) :
    Tree.Spans 0 (source.utf8ByteSize + 1) t := by
  unfold Tree.parse at h
  cases hscan : Token.scan source with
  | error e => rw [hscan] at h; cases h
  | ok ts =>
    cases hscript : Grammar.script ts with
    | error e => rw [hscan] at h; simp [bind, Except.bind, hscript] at h
    | ok body =>
      rw [hscan] at h
      obtain rfl : Tree.node 0 (.program body) = t := by
        simpa [bind, Except.bind, hscript, pure, Except.pure] using h
      have hall := Grammar.script_spans (Token.rising_scan hscan) hscript
      exact .node (Nat.succ_pos _) (hall.weaken (Nat.zero_le _) (Nat.le_refl _))

end DebugGuard
