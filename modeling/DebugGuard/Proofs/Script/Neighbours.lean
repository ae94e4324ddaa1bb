import DebugGuard.Proofs.Script.Parenthesize
import DebugGuard.Proofs.Script.Scanned
import DebugGuard.Proofs.Script.Seams

/-!
# Words that are printed side by side

The text of an expression stands in the texts of all expressions around it (`Tree.infix_child`), and
with it the words that stand side by side there.  A text with two words side by side that the
grammar keeps apart is not read at all (`Grammar.ReadsAll.meets`).
-/

namespace DebugGuard

open Piece

/-! ### Texts within texts -/

namespace Piece

theorem infix_commas {ps : List Piece} {pss : List (List Piece)} (h : ps ∈ pss) :
    ps <:+: commas pss := by
  induction pss with
  | nil => cases h
  | cons qs pss ih =>
    cases pss with
    | nil =>
      obtain rfl := List.mem_singleton.1 h
      exact List.infix_rfl
    | cons qs' pss =>
      have heq : commas (qs :: qs' :: pss) = qs ++ mark "," :: space :: commas (qs' :: pss) := rfl
      rw [heq]
      rcases List.mem_cons.1 h with rfl | h
      · exact (List.prefix_append ..).isInfix
      · exact (ih h).trans ⟨qs ++ [mark ",", space], [], by simp⟩

end Piece

namespace Node

variable {α : Type}

/-- An expression whose text is made of the texts of all its parts. -/
def isCompound : Node α → Bool
  | .identifier _ | .literal _ | .call .. | .construct .. | .member .. | .element .. | .unary ..
  | .binary .. | .assignment .. | .conditional .. | .array _ | .parenthesized _ => true
  | _ => false

end Node

namespace Tree

variable {depth : Nat} {c t : Tree} {top : Node Tree} {es : List Tree}

theorem infix_within (least : Nat) :
    Render.expression depth 0 t <:+: Render.expression depth least t := by
  match t with
  | .absent | .dangling => exact List.nil_infix
  | .node pos top =>
    rw [render_node, Render.expression, Render.inParens]
    split
    · exact ⟨[mark "("], [mark ")"], rfl⟩
    · exact List.infix_rfl

theorem infix_expressions (h : c ∈ es) :
    Render.expression depth 0 c <:+: commas (Render.expressions depth es) := by
  refine infix_commas ?_
  rw [render_expressions]
  exact List.mem_map_of_mem h

/-- The text of an expression stands in the text of what it is a part of. -/
theorem infix_child (htop : top.isCompound = true) (hc : c ∈ top.children) :
    Render.expression depth 0 c <:+: Render.bare depth top := by
  cases top <;> cases htop <;>
    simp only [Node.children, List.mem_cons, List.not_mem_nil, or_false] at hc
  case call callee args =>
    rcases hc with rfl | hc
    · exact (infix_within Strength.call).trans ⟨[], mark "(" ::
        commas (Render.expressions depth args) ++ [mark ")"], by simp [Render.bare]⟩
    · exact (infix_expressions hc).trans ⟨Render.expression depth Strength.call callee ++
        [mark "("], [mark ")"], by simp [Render.bare]⟩
  case construct callee args =>
    rcases hc with rfl | hc
    · exact (infix_within Strength.call).trans ⟨[name "new", space], mark "(" ::
        commas (Render.expressions depth args) ++ [mark ")"], by simp [Render.bare]⟩
    · exact (infix_expressions hc).trans ⟨name "new" :: space ::
        Render.expression depth Strength.call callee ++ [mark "("], [mark ")"],
        by simp [Render.bare]⟩
  case member o x =>
    subst hc
    exact (infix_within Strength.call).trans ⟨[], [mark ".", name x], by simp [Render.bare]⟩
  case element o i =>
    rcases hc with rfl | rfl
    · exact (infix_within Strength.call).trans ⟨[], mark "[" :: Render.expression depth 0 i ++
        [mark "]"], by simp [Render.bare]⟩
    · exact ⟨Render.expression depth Strength.call o ++ [mark "["], [mark "]"],
        by simp [Render.bare]⟩
  case unary op e =>
    subst hc
    exact (infix_within Strength.unary).trans ⟨Render.unaryOperator op c, [], by simp [Render.bare]⟩
  case binary l op r =>
    rcases hc with rfl | rfl
    · exact (infix_within _).trans ⟨[], _, by rw [Render.bare]; rfl⟩
    · exact (infix_within _).trans ⟨_ ++ [space, .word (.operator op), space], [], by
        simp [Render.bare]; rfl⟩
  case assignment target op v =>
    rcases hc with rfl | rfl
    · exact (infix_within Strength.call).trans ⟨[], space :: .word (.operator op) :: space ::
        Render.expression depth Strength.assignment v, by simp [Render.bare]⟩
    · exact (infix_within Strength.assignment).trans ⟨Render.expression depth Strength.call target ++
        [space, .word (.operator op), space], [], by simp [Render.bare]⟩
  case conditional condition y n =>
    rcases hc with rfl | rfl | rfl
    · exact (infix_within (Strength.conditional + 1)).trans ⟨[], space :: mark "?" :: space ::
        Render.expression depth Strength.assignment y ++ space :: mark ":" :: space ::
        Render.expression depth Strength.assignment n, by simp [Render.bare]⟩
    · exact (infix_within Strength.assignment).trans
        ⟨Render.expression depth (Strength.conditional + 1) condition ++ [space, mark "?", space],
        space :: mark ":" :: space :: Render.expression depth Strength.assignment n,
        by simp [Render.bare]⟩
    · exact (infix_within Strength.assignment).trans
        ⟨Render.expression depth (Strength.conditional + 1) condition ++ space :: mark "?" ::
        space :: Render.expression depth Strength.assignment y ++ [space, mark ":", space], [],
        by simp [Render.bare]⟩
  case array es =>
    exact (infix_expressions hc).trans ⟨[mark "["], [mark "]"], by simp [Render.bare]⟩
  case parenthesized e =>
    subst hc
    exact ⟨[mark "("], [mark ")"], by simp [Render.bare]⟩

/-- If the text of each part stands in the text of what it is a part of, the text of each node stands
in the text of the whole. -/
theorem infix_of_nested {p : Tree → Prop} {n : Node Tree}
    (hp : ∀ {pos top c}, p (.node pos top) → c ∈ top.children →
      p c ∧ Render.expression depth 0 c <:+: Render.bare depth top)
    (h : p t) (hn : n ∈ t.nodes) :
    (∃ pos, p (.node pos n)) ∧ Render.bare depth n <:+: Render.expression depth 0 t := by
  induction t using Tree.induct with
  | absent => cases hn
  | dangling => cases hn
  | node pos top ih =>
    rcases mem_nodes_node.1 hn with rfl | ⟨c, hc, hn⟩
    · exact ⟨⟨pos, h⟩, by rw [render_node]⟩
    · obtain ⟨hpart, hstands⟩ := hp h hc
      obtain ⟨htop, htext⟩ := ih c hc hpart hn
      exact ⟨htop, htext.trans (render_node ▸ hstands)⟩

end Tree

/-! ### Words that the grammar keeps apart -/

namespace Piece

variable {b : Bool} {ps : List Piece} {ts r : List Token}

theorem suffix_of_spells (h : Spells b ps ts r) : r <:+ ts := by
  induction ps generalizing b ts with
  | nil =>
    obtain rfl := h
    exact List.suffix_rfl
  | cons p ps ih =>
    cases p with
    | word w =>
      obtain ⟨t, s, rfl, -, -, h⟩ := h
      exact (ih h).trans (List.suffix_cons ..)
    | blanks n => exact ih h
    | lineFeed => exact ih h

end Piece

/-- What is read fits the grammar. -/
theorem Grammar.ReadsAll.fits {source : String} {e : Tree}
    (h : ReadsAll Grammar.expression source e) : Tree.Fits .expression e := by
  obtain ⟨ts, _, hscan, -, he⟩ := h
  exact ((soundBelow (ts.length + 1)).expression (Nat.lt_succ_self _)
    (Cursor.scanned_of_scan hscan) he).fits

/-- Words side by side in a text that is read may stand there. -/
theorem Grammar.ReadsAll.meets {ps : List Piece} {ns : List String} {e : Tree} {v w : Word}
    (h : ReadsAll Grammar.expression (text ps) e) (hp : Printed ps ns false)
    (hstands : [.word v, space, .word w] <:+: ps) :
    ∃ t u, t.word = v ∧ u.word = w ∧ u.afterBreak = false ∧ Token.Meets t u := by
  obtain ⟨ts, eof, hscan, -, he⟩ := h
  obtain ⟨eof', hscan', -⟩ := Tree.scan_printed hp
  obtain ⟨ws, hws, hchain⟩ := Grammar.meets_of_expression he
  obtain rfl : tokens 0 false ps = ws := by
    rw [hscan'] at hscan
    exact (List.append_inj' ((Except.ok.inj hscan).trans hws) rfl).1
  have hs := spells_tokens ps 0 false []
  obtain ⟨front, back, rfl⟩ := hstands
  rw [List.append_nil, List.append_assoc] at hs
  obtain ⟨s, hfront, t, s', rfl, ht, -, u, s'', rfl, hu, hbreak, -⟩ := spells_append.1 hs
  rw [List.append_assoc] at hchain
  have hchain := hchain.suffix (suffix_of_spells hfront)
  exact ⟨t, u, ht, hu, hbreak, (List.isChain_cons_cons.1 hchain).1⟩

end DebugGuard
