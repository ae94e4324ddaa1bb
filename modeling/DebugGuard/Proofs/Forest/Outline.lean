import DebugGuard.Proofs.Forest.Layout
import DebugGuard.Proofs.Script.Muted
import DebugGuard.Proofs.Script.Partition

/-!
# The outline of a script

The outline of a parsed script is its forest without the contents of strings, positions counted in
tokens.  Two sources whose tokens are alike are both refused, or have the same outline: what stands
between quotes never acts as code.

There is one exception.  Behind `export` a string that is spelled like `const`, `let` or `var` opens
a declaration, so there the strings of the two sources have to agree on that (`ExportAlike`).

Main statement: `Forest.outline_parse`.
-/

namespace DebugGuard

namespace Token

/-- The number of the token at a position: how many tokens start in front of it. -/
def number (ts : List Token) (pos : Nat) : Nat :=
  ts.countP fun t => t.start < pos

theorem number_zero (ts : List Token) : number ts 0 = 0 := by
  simp [number]

theorem number_middle {as ts : List Token} {t : Token}
    (h : (as ++ t :: ts).Pairwise (·.start < ·.start)) :
    number (as ++ t :: ts) t.start = as.length := by
  obtain ⟨-, hts, has⟩ := List.pairwise_append.1 h
  have hbefore : as.countP (fun u => u.start < t.start) = as.length :=
    List.countP_eq_length.2 fun u hu => decide_eq_true (has u hu t List.mem_cons_self)
  have hafter : (t :: ts).countP (fun u => u.start < t.start) = 0 := by
    refine List.countP_eq_zero.2 fun u hu => ?_
    rcases List.mem_cons.1 hu with rfl | hu
    · simp
    · have := (List.pairwise_cons.1 hts).1 u hu
      simp
      omega
  rw [number, List.countP_append, hbefore, hafter, Nat.add_zero]

/-- Two strings that stand behind `export` at the same place open the same declaration, if any. -/
def ExportAlike (ts us : List Token) : Prop :=
  ∀ p ∈ (ts.zip us).zip (ts.zip us).tail, p.1.1.isWord "export" = true → p.2.1.kind = .string →
    Grammar.keyword? p.2.2 = Grammar.keyword? p.2.1

instance (ts us : List Token) : Decidable (ExportAlike ts us) :=
  inferInstanceAs (Decidable (∀ p ∈ (ts.zip us).zip (ts.zip us).tail, _ → _ → _))

theorem ExportAlike.tail {t u : Token} {ts us : List Token} (h : ExportAlike (t :: ts) (u :: us)) :
    ExportAlike ts us := by
  cases ts with
  | nil => exact fun p hp => by simp at hp
  | cons t' ts =>
    cases us with
    | nil => exact fun p hp => by simp at hp
    | cons u' us => exact fun p hp => h p (List.mem_cons_of_mem _ hp)

theorem ExportAlike.current {t u : Token} {ts us : List Token} (h : ExportAlike (t :: ts) (u :: us))
    (halike : List.Forall₂ Alike ts us) (ht : t.isWord "export" = true) :
    Grammar.keyword? (Cursor.current us) = Grammar.keyword? (Cursor.current ts) := by
  cases halike with
  | nil => rfl
  | @cons t' u' ts us halike _ =>
    by_cases hk : t'.kind = .string
    · exact h ((t, u), (t', u')) List.mem_cons_self ht hk
    · exact halike.keyword?_eq hk

end Token

open Token

/-- Two lists of rising tokens that are alike are twins, places being counted in tokens. -/
theorem Cursor.twins_of_alike {as bs ts us : List Token} (hlen : as.length = bs.length)
    (hts : (as ++ ts).Pairwise (·.start < ·.start)) (hus : (bs ++ us).Pairwise (·.start < ·.start))
    (h : List.Forall₂ Alike ts us) (hexport : ExportAlike ts us) :
    Cursor.Twins ⟨number (as ++ ts), number (bs ++ us)⟩ ts us := by
  induction h generalizing as bs with
  | nil => exact .nil ((number_zero _).trans (number_zero _).symm)
  | @cons t u ts us halike hrest ih =>
    refine .cons halike ?_ (hexport.current hrest) ?_
    · exact (number_middle hts).trans (hlen.trans (number_middle hus).symm)
    · have hts' : as ++ t :: ts = as ++ [t] ++ ts := by simp
      have hus' : bs ++ u :: us = bs ++ [u] ++ us := by simp
      rw [hts'] at hts ⊢
      rw [hus'] at hus ⊢
      exact ih (by simp [hlen]) hts hus hexport.tail

namespace Forest

/-- The root of a script and its forest without the contents of strings, positions counted in
tokens. -/
def outline (ts : List Token) (t : Tree) : Ref × Forest :=
  ((ofTree t).1, (ofTree t).2.relabel Node.muting (number ts))

theorem outline_eq {ts us : List Token} {t u : Tree} (h : t.Same ⟨number ts, number us⟩ u) :
    outline ts t = outline us u := by
  rw [outline, outline, ← ofTree_relabel, ← ofTree_relabel]
  exact congrArg ofTree h

/-- String contents are no code. -/
theorem outline_parse {source source' : String} {ts us : List Token}
    (hts : Token.scan source = .ok ts) (hus : Token.scan source' = .ok us)
    (h : List.Forall₂ Alike ts us) (hexport : ExportAlike ts us) :
    (Tree.parse source).toOption.map (outline ts) =
      (Tree.parse source').toOption.map (outline us) := by
  have htwins : Cursor.Twins ⟨number ts, number us⟩ ts us :=
    Cursor.twins_of_alike (rfl : ([] : List Token).length = ([] : List Token).length)
      (pairwise_of_scan hts) (pairwise_of_scan hus) h hexport
  have hagree := Grammar.script_agree htwins
  rw [Tree.parse, Tree.parse, hts, hus]
  simp only [bind, Except.bind]
  cases hx : Grammar.script ts with
  | error e =>
    cases hy : Grammar.script us with
    | error e' => rfl
    | ok ys =>
      rw [hx, hy] at hagree
      exact hagree.elim
  | ok xs =>
    cases hy : Grammar.script us with
    | error e' =>
      rw [hx, hy] at hagree
      exact hagree.elim
    | ok ys =>
      rw [hx, hy] at hagree
      have hsame : Tree.Same ⟨number ts, number us⟩ (.node 0 (.program xs))
          (.node 0 (.program ys)) :=
        .node ((number_zero ts).trans (number_zero us).symm)
          (by rw [Node.map, Node.map, Tree.map_muted_of_same hagree])
      exact congrArg some (outline_eq hsame)

/-- A string that is spelled like a word is a string. -/
theorem keyword_string_outline :
    ∃ ts us, Token.scan "export let a = f(\"const\");" = .ok ts ∧
      Token.scan "export let a = f( '' );" = .ok us ∧ List.Forall₂ Alike ts us ∧ ExportAlike ts us ∧
      (Tree.parse "export let a = f(\"const\");").toOption.map (outline ts) =
        (Tree.parse "export let a = f( '' );").toOption.map (outline us) := by
  have hts : Token.scan "export let a = f(\"const\");" =
      .ok ((Token.scan "export let a = f(\"const\");").toOption.getD []) := by decide +kernel
  have hus : Token.scan "export let a = f( '' );" =
      .ok ((Token.scan "export let a = f( '' );").toOption.getD []) := by decide +kernel
  have h : List.Forall₂ Alike ((Token.scan "export let a = f(\"const\");").toOption.getD [])
      ((Token.scan "export let a = f( '' );").toOption.getD []) := by decide +kernel
  have hexport : ExportAlike ((Token.scan "export let a = f(\"const\");").toOption.getD [])
      ((Token.scan "export let a = f( '' );").toOption.getD []) := by decide +kernel
  exact ⟨_, _, hts, hus, h, hexport, outline_parse hts hus h hexport⟩

/-- Behind `export` it acts as a word: sources with tokens that are alike, one of them refused. -/
theorem exported_string_acts :
    ∃ ts us, Token.scan "export \"const\" x = 1;" = .ok ts ∧
      Token.scan "export \"other\" x = 1;" = .ok us ∧ List.Forall₂ Alike ts us ∧
      (Tree.parse "export \"const\" x = 1;").isOk = true ∧
      (Tree.parse "export \"other\" x = 1;").isOk = false := by
  have hts : Token.scan "export \"const\" x = 1;" =
      .ok ((Token.scan "export \"const\" x = 1;").toOption.getD []) := by decide +kernel
  have hus : Token.scan "export \"other\" x = 1;" =
      .ok ((Token.scan "export \"other\" x = 1;").toOption.getD []) := by decide +kernel
  exact ⟨_, _, hts, hus, by decide +kernel, by decide +kernel, by decide +kernel⟩

end Forest

end DebugGuard
