import DebugGuard.Proofs.Script.Parenthesize
import DebugGuard.Proofs.Script.Part
import DebugGuard.Proofs.Script.Scanned

/-!
# Which `if` an `else` belongs to

The printer writes the branches of an `if` as they are, with an `else` between them.  The grammar
gives an `else` to the nearest `if` that has none.  The two agree unless the first branch ends with
an `if` without an `else`, which no braces close (`Tree.endsOpen`): it takes the `else` behind it.

Main statement: `Tree.parseStatement_render_iff`.
-/

namespace DebugGuard

namespace Tree

open Cursor Grammar

variable {t e : Tree}

/-- A statement of expression statements, empty statements, blocks and `if` statements in any
nesting, with expressions that come back from their texts as they are. -/
inductive Branching : Tree → Prop
  | expressionStatement {pos e} (hf : Fits .statement (.node pos (.expressionStatement e)))
      (hj : e.joins = false) : Branching (.node pos (.expressionStatement e))
  | emptyStatement {pos} : Branching (.node pos .emptyStatement)
  | block {pos body} (hs : ∀ s ∈ body, Branching s) : Branching (.node pos (.block body))
  | ifOnly {pos c y} (hc : Fits .expression c) (hj : c.joins = false) (hy : Branching y) :
      Branching (.node pos (.ifElse c y .absent))
  | ifElse {pos c y n} (hc : Fits .expression c) (hj : c.joins = false) (hy : Branching y)
      (hn : Branching n) : Branching (.node pos (.ifElse c y n))

/-- No first branch takes the `else` that stands behind it. -/
def KeepsElse (t : Tree) : Prop :=
  ∀ c y n, .ifElse c y n ∈ t.nodes → n ≠ .absent → y.endsOpen = false

theorem KeepsElse.child {pos : Nat} {top : Node Tree} {d : Tree} (h : KeepsElse (.node pos top))
    (hd : d ∈ top.children) : d.KeepsElse :=
  fun _ _ _ hn => h _ _ _ (nodes_subset hd hn)

theorem Fits.keepsElse {phrase : Phrase} (h : Fits phrase t) : t.KeepsElse := by
  intro c y n hn hne
  obtain ⟨pos, hpart, -⟩ := (Part.phrase h).exists_of_mem hn
  obtain ⟨_, hf⟩ := hpart.fits rfl rfl nofun
  cases hf with
  | ifOnly => exact absurd rfl hne
  | ifElse _ _ _ ho => exact ho

theorem endsOpen_bare (t : Tree) : t.bare.endsOpen = t.endsOpen := by
  induction t using Tree.induct with
  | absent => rfl
  | dangling => rfl
  | node pos top ih =>
    rw [bare_node]
    cases top with
    | ifElse c y n =>
      have ih := ih n (by simp [Node.children])
      cases n with
      | absent => rfl
      | dangling => rfl
      | node => simpa [Node.map, endsOpen] using ih
    | _ => rfl

theorem keepsElse_of_bare (h : e.KeepsElse) (hbare : e.bare = t.bare) : t.KeepsElse := by
  intro c y n hn hne
  have hmem : .ifElse c.bare y.bare n.bare ∈ e.nodes.map fun n => n.map bare := by
    rw [← nodes_bare, hbare, nodes_bare]
    exact List.mem_map.2 ⟨_, hn, rfl⟩
  obtain ⟨m, hm, heq⟩ := List.mem_map.1 hmem
  cases m <;> simp only [Node.map, reduceCtorEq, Node.ifElse.injEq] at heq
  obtain ⟨-, hy, hn'⟩ := heq
  rw [← endsOpen_bare, ← hy, endsOpen_bare]
  refine h _ _ _ hm ?_
  rintro rfl
  cases n with
  | absent => exact hne rfl
  | dangling => cases hn'
  | node pos top =>
    rw [bare_node] at hn'
    cases hn'

theorem Branching.joins_eq_false (h : Branching t) : t.joins = false := by
  induction h <;> simp_all [joins_node, Node.joins, Node.children]

/-- Where no branch takes the `else` behind it, the statement fits the grammar. -/
theorem Branching.fits (h : Branching t) (hkeeps : t.KeepsElse) : Fits .statement t := by
  induction h with
  | expressionStatement hf => exact hf
  | emptyStatement => exact .emptyStatement
  | block hs ih => exact .block fun s hmem => ih s hmem (hkeeps.child hmem)
  | ifOnly hc _ _ ih => exact .ifOnly hc (ih (hkeeps.child (by simp [Node.children])))
  | @ifElse _ c y n hc _ _ hn ihy ihn =>
    refine .ifElse hc (ihy (hkeeps.child (by simp [Node.children])))
      (ihn (hkeeps.child (by simp [Node.children]))) (hkeeps c y n mem_nodes ?_)
    rintro rfl
    cases hn

theorem parseStatement_eq_ok {source : String} : parseStatement source = .ok e ↔
    ∃ ts r, Token.scan source = .ok ts ∧ Takes (Grammar.statement ts) e r := by
  rw [parseStatement]
  cases hscan : Token.scan source with
  | error => simp [bind, Except.bind]
  | ok ts =>
    cases hread : Grammar.statement ts with
    | error => simp [bind, Except.bind, hread]
    | ok x =>
      obtain ⟨e', r, hr⟩ := x
      suffices e' = e → r.length < ts.length by
        simpa [bind, Except.bind, hread, pure, Except.pure, Takes]
      exact fun _ => hr

/-- **An `else` stays with its `if`, unless the branch in front takes it.**  A statement of `if`
statements comes back from its text if and only if no `else` stands behind a branch that ends with
an `if` without one. -/
theorem parseStatement_render_iff (h : Branching t) :
    (∃ e, parseStatement t.render = .ok e ∧ e.bare = t.bare) ↔
      ∀ c y n, .ifElse c y n ∈ t.nodes → n ≠ .absent → y.endsOpen = false := by
  constructor
  · rintro ⟨e, he, hbare⟩
    obtain ⟨ts, r, hscan, hread⟩ := parseStatement_eq_ok.1 he
    -- what has been read fits the grammar, where no branch takes the `else` behind it
    have hfits := ((soundBelow (ts.length + 1)).statement (Nat.lt_succ_self _)
      (scanned_of_scan hscan) hread).fits
    exact keepsElse_of_bare hfits.keepsElse hbare
  · intro hkeeps
    obtain ⟨e, ⟨ts, eof, hscan, -, hread⟩, hbare⟩ :=
      readsAll_of_fits_statement (h.fits hkeeps) h.joins_eq_false
    exact ⟨e, parseStatement_eq_ok.2 ⟨ts, _, hscan, hread⟩, hbare⟩

theorem Branching.name {pos pos' : Nat} {x : String} (hx : IsBindable x) :
    Branching (.node pos (.expressionStatement (.node pos' (.identifier x)))) := by
  refine .expressionStatement (.expressionStatement (.identifier hx.1 (.inr hx.2)) ?_ ?_ ?_) rfl
  · simp [Opens, opening]
  · intro h
    have hfunction : x = "function" := by simpa [Opens, opening] using h
    exact absurd hx.2 (by rw [hfunction]; decide)
  · simp [opensLet, opening]

/-- The `else` of an outer `if` behind an inner one, as a tree that does not come back. -/
theorem else_behind_inner : ∃ t, Branching t ∧ t.render = "if (a) if (b) x;\nelse y;" ∧
    ¬∃ e, parseStatement t.render = .ok e ∧ e.bare = t.bare := by
  have condition {x : String} (hx : IsBindable x) : Fits .expression (.node 0 (.identifier x)) :=
    .identifier hx.1 (.inr hx.2)
  have hinner : Branching (.node 0 (.ifElse (.node 0 (.identifier "b"))
      (.node 0 (.expressionStatement (.node 0 (.identifier "x")))) .absent)) :=
    .ifOnly (condition (isBindable_of_isKnown (by decide) (by decide))) rfl
      (.name (isBindable_of_isKnown (by decide) (by decide)))
  have h : Branching (.node 0 (.ifElse (.node 0 (.identifier "a")) _
      (.node 0 (.expressionStatement (.node 0 (.identifier "y")))))) :=
    .ifElse (condition (isBindable_of_isKnown (by decide) (by decide))) rfl hinner
      (.name (isBindable_of_isKnown (by decide) (by decide)))
  refine ⟨_, h, by decide +kernel, fun hback => ?_⟩
  have hclosed := (parseStatement_render_iff h).1 hback _ _ _ mem_nodes nofun
  cases hclosed

end Tree

end DebugGuard
