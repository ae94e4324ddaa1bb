import DebugGuard.Proofs.Script.Confined
import DebugGuard.Proofs.Script.Productions

/-!
# The grammar makes progress

At every place of a script, which is a token or the end of file, each phrase of the grammar leaves
a place further on or refuses a token that stands from there on.  It never leaves the script, and
what stands behind the end of file plays no part (`Grammar.Stays`, `Grammar.Advances`).  A script is
read one statement after the other until the end of file stands in front (`Grammar.Statements`).

Main statement: `Tree.orderly_of_scan`.
-/

namespace DebugGuard

namespace Grammar

open Cursor

variable {α : Type} {ts us r : List Token}

/-! ### Readers -/

/-- A reader, as a function to what it gives and what it leaves. -/
abbrev Reader (α : Type) := List Token → Except SourceError (α × List Token)

/-- A phrase as a reader, with or without a bound on what it takes. -/
def taking {least : Nat} (phrase : (ts : List Token) → Reading (Read least ts α)) : Reader α :=
  fun ts => (phrase ts).map fun a => (a.value, a.rest)

/-- A phrase that may be absent as a reader. -/
def finding (phrase : (ts : List Token) → Reading (Option (Taken ts α))) : Reader (Option α) :=
  fun ts => (phrase ts).map fun a => (a.map Read.value, (a.map Read.rest).getD ts)

/-- A place of a script: a token, or the end of file, stands in front. -/
structure Place (ts us : List Token) : Prop where
  suffix : us <:+ ts
  ne_nil : us ≠ []

theorem Place.refl (h : Closed ts) : Place ts ts :=
  ⟨List.suffix_rfl, h.ne_nil⟩

theorem Place.closed (h : Place ts us) (hts : Closed ts) : Closed us :=
  hts.suffix h.suffix h.ne_nil

/-- From every place of a script, the reader stays within the script. -/
structure Stays (ts : List Token) (read : Reader α) : Prop where
  /-- It leaves the same place or one further on. -/
  leaves : ∀ {us v r}, Place ts us → read us = .ok (v, r) → Place us r
  /-- It refuses one of the tokens that are left. -/
  refuses : ∀ {us e}, Place ts us → read us = .error e →
    ∃ wanted, ∃ t ∈ us, e = ⟨.unexpected wanted t, t.start⟩
  /-- It gives the same, whatever stands behind the end of file. -/
  blind : ∀ {us}, Place ts us → ∀ extra,
    read (us ++ extra) = (read us).map fun x => (x.1, x.2 ++ extra)

/-- From every place of a script, the reader takes at least one token if it succeeds. -/
def Advances (ts : List Token) (read : Reader α) : Prop :=
  ∀ us v r, Place ts us → read us = .ok (v, r) → r.length < us.length

/-- A reader that is confined stays within the script. -/
theorem stays_of_confined {σ : List Token → Type} {phrase : (ts : List Token) → Reading (σ ts)}
    {out : (ts : List Token) → σ ts → α × List Token}
    (h : ∀ all extra ts us, Fenced all extra ts us → Confined all
      (fun a b => (out us b).1 = (out ts a).1 ∧ Fenced all extra (out ts a).2 (out us b).2)
      (phrase ts) (phrase us))
    (hts : Closed ts) : Stays ts fun us => (phrase us).map (out us) := by
  have hrefl {us : List Token} (hus : Place ts us) (extra : List Token) :=
    h us extra us (us ++ extra) (.refl (hus.closed hts) extra)
  constructor
  -- for the first two, what stands behind the end of file does not matter, so nothing is put there
  · intro us v r hus hok
    obtain ⟨a, b, hx, -, -, hfenced⟩ | ⟨_, _, _, hx, -⟩ := (hrefl hus []).cases
    · rw [hx] at hok
      have hout : out us a = (v, r) := Except.ok.inj hok
      rw [hout] at hfenced
      exact ⟨hfenced.suffix, hfenced.closed.ne_nil⟩
    · rw [hx] at hok
      cases hok
  · intro us e hus herror
    obtain ⟨a, b, hx, -⟩ | ⟨wanted, t, ht, hx, -⟩ := (hrefl hus []).cases
    · rw [hx] at herror
      cases herror
    · rw [hx] at herror
      cases herror
      exact ⟨wanted, t, ht, rfl⟩
  · intro us hus extra
    obtain ⟨a, b, hx, hy, hvalue, hfenced⟩ | ⟨_, _, _, hx, hy⟩ := (hrefl hus extra).cases
    · rw [hx, hy]
      exact congrArg Except.ok (Prod.ext hvalue hfenced.eq)
    · rw [hx, hy]
      rfl

theorem taking_eq_ok {phrase : (ts : List Token) → Reading (Taken ts α)} {v : α} :
    taking phrase ts = .ok (v, r) ↔ Takes (phrase ts) v r := by
  rw [taking]
  cases phrase ts with
  | error e => simp [Except.map]
  | ok a => simp [Except.map, eq_comm]

theorem advances_taking (phrase : (ts : List Token) → Reading (Taken ts α)) :
    Advances ts (taking phrase) :=
  fun _ _ _ _ h => (taking_eq_ok.1 h).shorter

theorem stays_taking {least : Nat} {P : List Token → α → Prop}
    {phrase : (ts : List Token) → Reading (Read least ts α)}
    (h : ∀ all extra ts us, Fenced all extra ts us →
      Confined all (Read.Fenced all extra (P all)) (phrase ts) (phrase us))
    (hts : Closed ts) : Stays ts (taking phrase) :=
  stays_of_confined (fun all extra ts us hus => (h all extra ts us hus).mono
    fun _ _ hab => ⟨hab.1.1, hab.2⟩) hts

theorem stays_finding {P : List Token → α → Prop}
    {phrase : (ts : List Token) → Reading (Option (Taken ts α))}
    (h : ∀ all extra ts us, Fenced all extra ts us →
      Confined all (Option.Rel (Read.Fenced all extra (P all))) (phrase ts) (phrase us))
    (hts : Closed ts) : Stays ts (finding phrase) := by
  refine stays_of_confined (fun all extra ts us hus => (h all extra ts us hus).mono
    fun _ _ hab => ?_) hts
  cases hab with
  | none => exact ⟨rfl, hus⟩
  | some hab => exact ⟨congrArg some hab.1.1, hab.2⟩

theorem advances_finding {phrase : (ts : List Token) → Reading (Option (Taken ts α))}
    {v : α} (h : finding phrase us = .ok (some v, r)) : r.length < us.length := by
  rw [finding] at h
  cases hx : phrase us with
  | error e => rw [hx] at h; cases h
  | ok a =>
    rw [hx] at h
    cases a with
    | none => cases h
    | some a =>
      cases h
      exact a.shorter

/-! ### Phrases -/

/-- The phrases of the grammar, each of which takes at least one token. -/
inductive IsPhrase : {α : Type} → Reader α → Prop
  | statement : IsPhrase (taking statement)
  | statements : IsPhrase (taking statements)
  | block : IsPhrase (taking block)
  | expressionStatement : IsPhrase (taking expressionStatement)
  | importStatement : IsPhrase (taking importStatement)
  | importNames : IsPhrase (taking importNames)
  | importName : IsPhrase (taking importName)
  | importSource {start specifiers} : IsPhrase (taking (importSource start specifiers))
  | exportStatement : IsPhrase (taking exportStatement)
  | varDeclaration : IsPhrase (taking varDeclaration)
  | declarators {keyword} : IsPhrase (taking (declarators keyword))
  | functionDeclaration : IsPhrase (taking functionDeclaration)
  | ifStatement : IsPhrase (taking ifStatement)
  | returnStatement : IsPhrase (taking returnStatement)
  | throwStatement : IsPhrase (taking throwStatement)
  | expression : IsPhrase (taking expression)
  | conditional : IsPhrase (taking conditional)
  | binary {least} : IsPhrase (taking (binary least))
  | unary : IsPhrase (taking unary)
  | construct : IsPhrase (taking construct)
  | arguments : IsPhrase (taking arguments)
  | primary : IsPhrase (taking primary)
  | property : IsPhrase (taking property)
  | propertyKey : IsPhrase (taking propertyKey)
  | functionExpression : IsPhrase (taking functionExpression)
  | arrow : IsPhrase (taking arrow)
  | arrowParameters : IsPhrase (taking arrowParameters)
  | parameters : IsPhrase (taking parameters)

/-- The phrases of the grammar that may take nothing: what may follow another phrase. -/
inductive IsTail : {α : Type} → Reader α → Prop
  | semicolon : IsTail (taking semicolon)
  | initializer {keyword} : IsTail (taking (initializer keyword))
  | binaryTail {start least left} : IsTail (taking (binaryTail start least left))
  | callTail {start callee} : IsTail (taking (callTail start callee))
  | accessTail {start object} : IsTail (taking (accessTail start object))
  | access? {start object} : IsTail (finding (access? start object))

theorem IsPhrase.advances {read : Reader α} (h : IsPhrase read) (ts : List Token) :
    Advances ts read := by
  cases h <;> exact advances_taking _

theorem stays_below {P : List Token → α → Prop}
    {phrase : (ts : List Token) → Reading (Taken ts α)}
    (h : ∀ {all extra : List Token} {n : Nat}, ConfinedBelow all extra n →
      ∀ {ts us : List Token}, ts.length ≤ n → Fenced all extra ts us →
        Confined all (Read.Fenced all extra (P all)) (phrase ts) (phrase us))
    (hts : Closed ts) : Stays ts (taking phrase) :=
  stays_taking (fun all extra ts _ hus =>
    h (confinedBelow all extra ts.length) (Nat.le_refl _) hus) hts

theorem IsPhrase.stays {read : Reader α} (h : IsPhrase read) (hts : Closed ts) :
    Stays ts read := by
  cases h with
  | statement => exact stays_below statement_confined hts
  | statements =>
    exact stays_taking (fun _ _ _ _ hus =>
      statements_confined (confinedBelow ..) (Nat.lt_succ_self _) hus) hts
  | block => exact stays_below block_confined hts
  | expressionStatement => exact stays_below expressionStatement_confined hts
  | importStatement => exact stays_taking (fun _ _ _ _ hus => importStatement_confined hus) hts
  | importNames => exact stays_taking (fun _ _ _ _ hus => importNames_confined hus) hts
  | importName => exact stays_taking (fun _ _ _ _ hus => importName_confined hus) hts
  | importSource => exact stays_taking (fun _ _ _ _ hus => importSource_confined hus) hts
  | exportStatement => exact stays_below exportStatement_confined hts
  | varDeclaration => exact stays_below varDeclaration_confined hts
  | declarators => exact stays_below (fun ih => declarators_confined ih) hts
  | functionDeclaration => exact stays_below functionDeclaration_confined hts
  | ifStatement => exact stays_below ifStatement_confined hts
  | returnStatement => exact stays_below returnStatement_confined hts
  | throwStatement => exact stays_below throwStatement_confined hts
  | expression => exact stays_below expression_confined hts
  | conditional => exact stays_below conditional_confined hts
  | binary => exact stays_below (fun ih => binary_confined ih) hts
  | unary => exact stays_below unary_confined hts
  | construct => exact stays_below construct_confined hts
  | arguments => exact stays_below arguments_confined hts
  | primary => exact stays_below primary_confined hts
  | property => exact stays_below property_confined hts
  | propertyKey => exact stays_taking (fun _ _ _ _ hus => propertyKey_confined hus) hts
  | functionExpression => exact stays_below functionExpression_confined hts
  | arrow => exact stays_below arrow_confined hts
  | arrowParameters => exact stays_taking (fun _ _ _ _ hus => arrowParameters_confined hus) hts
  | parameters => exact stays_taking (fun _ _ _ _ hus => parameters_confined hus) hts

theorem IsTail.stays {read : Reader α} (h : IsTail read) (hts : Closed ts) : Stays ts read := by
  have hle (ts : List Token) : ts.length ≤ ts.length := Nat.le_refl _
  cases h with
  | semicolon => exact stays_taking (fun _ _ _ _ hus => hus.semicolon) hts
  | initializer =>
    exact stays_taking (fun _ _ _ _ hus =>
      initializer_confined (confinedBelow ..) (hle _) hus) hts
  | binaryTail =>
    exact stays_taking (fun _ _ _ _ hus =>
      binaryTail_confined (confinedBelow ..) (hle _) hus) hts
  | callTail =>
    exact stays_taking (fun _ _ _ _ hus => callTail_confined (confinedBelow ..) (hle _) hus) hts
  | accessTail =>
    exact stays_taking (fun _ _ _ _ hus =>
      accessTail_confined (confinedBelow ..) (hle _) hus) hts
  | access? =>
    exact stays_finding (fun _ _ _ _ hus => access?_confined (confinedBelow ..) (hle _) hus) hts

/-! ### Scripts -/

/-- Statements are read one after the other, and `r` is left. -/
inductive Statements : List Token → List Tree → List Token → Prop
  | nil {as : List Token} : Statements as [] as
  | cons {as bs cs : List Token} {t body} (ht : Takes (statement as) t bs)
      (hbody : Statements bs body cs) : Statements as (t :: body) cs

theorem Statements.length_le {body : List Tree} (h : Statements ts body r) :
    body.length + r.length ≤ ts.length := by
  induction h with
  | nil => simp
  | cons ht _ ih =>
    have := ht.shorter
    simp only [List.length_cons]
    omega

/-- A script is read until its end of file stands in front. -/
theorem statements_of_script {body : List Tree} (hts : Closed ts) (h : script ts = .ok body) :
    ∃ eof, eof.kind = .endOfFile ∧ Statements ts body [eof] := by
  induction body generalizing ts with
  | nil =>
    rcases script_eq_ok.1 h with ⟨hend, -⟩ | ⟨-, _, _, -, _, -, heq⟩
    · obtain ⟨eof, heof, rfl⟩ := hts.eq_of_atEnd hend
      exact ⟨eof, heof, .nil⟩
    · cases heq
  | cons t body ih =>
    rcases script_eq_ok.1 h with ⟨-, heq⟩ | ⟨-, t, s, ht, body, hbody, heq⟩
    · cases heq
    · cases heq
      -- the statement has left a place of the script, so the end of file is still ahead
      have hs := (IsPhrase.statement.stays hts).leaves (.refl hts) (taking_eq_ok.2 ht)
      obtain ⟨eof, heof, hmore⟩ := ih (hs.closed hts) hbody
      exact ⟨eof, heof, .cons ht hmore⟩

end Grammar

namespace Tree

open Cursor Grammar

variable {source : String} {ts : List Token}

/-- A source text with the tokens `ts` is read from its first token on, and no further than to its
end of file. -/
structure Orderly (source : String) (ts : List Token) : Prop where
  /-- A phrase stays within the script, and takes at least one token. -/
  phrase : ∀ {α : Type} {read : Reader α}, IsPhrase read → Stays ts read ∧ Advances ts read
  /-- What may follow a phrase stays within the script too. -/
  tail : ∀ {α : Type} {read : Reader α}, IsTail read → Stays ts read
  /-- An access takes at least one token, if there is one. -/
  access : ∀ {start object us v r},
    finding (access? start object) us = .ok (some v, r) → r.length < us.length
  /-- A script is accepted when the end of file stands in front, after no more statements than there
  are tokens. -/
  accepts : ∀ {t}, parse source = .ok t → ∃ body eof, t = .node 0 (.program body) ∧
    eof.kind = .endOfFile ∧ Statements ts body [eof] ∧ body.length < ts.length
  /-- What is refused, of a script, a statement or an expression, is one of the tokens. -/
  refuses : ∀ {e}, parse source = .error e ∨ parseStatement source = .error e ∨
      parseExpression source = .error e →
    ∃ wanted, ∃ t ∈ ts, e = ⟨.unexpected wanted t, t.start⟩
  /-- A script is read in the same way, whatever stands behind its end of file. -/
  blind : ∀ extra, Grammar.script (ts ++ extra) = Grammar.script ts

theorem parse_eq (h : Token.scan source = .ok ts) :
    parse source = (script ts).map fun body => .node 0 (.program body) := by
  rw [parse, h]
  rfl

theorem parseStatement_eq (h : Token.scan source = .ok ts) :
    parseStatement source = (taking statement ts).map Prod.fst := by
  rw [parseStatement, h, taking]
  simp only [bind, Except.bind]
  cases statement ts <;> rfl

theorem parseExpression_eq (h : Token.scan source = .ok ts) :
    parseExpression source = (taking expression ts).map Prod.fst := by
  rw [parseExpression, h, taking]
  simp only [bind, Except.bind]
  cases expression ts <;> rfl

theorem error_of_map {ε α β : Type} {f : α → β} {x : Except ε α} {e : ε}
    (h : x.map f = .error e) : x = .error e := by
  cases x with
  | error e' => exact congrArg Except.error (Except.error.inj h)
  | ok a => cases h

/-- **The parser is total and makes progress.** -/
theorem orderly_of_scan (h : Token.scan source = .ok ts) : Orderly source ts := by
  have hts := closed_of_scan h
  have hscript (extra : List Token) := (script_confined (.refl hts extra)).cases
  have hfirst {α : Type} {read : Reader α} (hread : IsPhrase read) {e : SourceError}
      (he : (read ts).map Prod.fst = .error e) :
      ∃ wanted, ∃ t ∈ ts, e = ⟨.unexpected wanted t, t.start⟩ :=
    (hread.stays hts).refuses (.refl hts) (error_of_map he)
  constructor
  · exact fun hread => ⟨hread.stays hts, hread.advances ts⟩
  · exact fun hread => hread.stays hts
  · exact advances_finding
  · intro t ht
    rw [parse_eq h] at ht
    cases hbody : script ts with
    | error e => rw [hbody] at ht; cases ht
    | ok body =>
      rw [hbody] at ht
      obtain ⟨eof, heof, hstatements⟩ := statements_of_script hts hbody
      have hlen := hstatements.length_le
      exact ⟨body, eof, (Except.ok.inj ht).symm, heof, hstatements, by simpa using hlen⟩
  · rintro e (he | he | he)
    · rw [parse_eq h] at he
      obtain ⟨body, _, hx, -⟩ | ⟨wanted, t, ht, hx, -⟩ := hscript []
      · rw [hx] at he
        cases he
      · rw [hx] at he
        cases he
        exact ⟨wanted, t, ht, rfl⟩
    · exact hfirst .statement (parseStatement_eq h ▸ he)
    · exact hfirst .expression (parseExpression_eq h ▸ he)
  · intro extra
    obtain ⟨body, _, hx, hy, rfl, -⟩ | ⟨_, _, _, hx, hy⟩ := hscript extra
    · rw [hx, hy]
    · rw [hx, hy]

/-- A text that breaks off inside a call is refused at its end of file. -/
theorem orderly_open_call :
    ∃ ts, Token.scan "f(a, (b" = .ok ts ∧ Orderly "f(a, (b" ts ∧
      parse "f(a, (b" = .error ⟨.unexpected (.mark ")") ⟨.endOfFile, "", 7, false⟩, 7⟩ := by
  have h : Token.scan "f(a, (b" = .ok ((Token.scan "f(a, (b").toOption.getD []) := by
    decide +kernel
  exact ⟨_, h, orderly_of_scan h, error_of_map (f := fun _ => ()) (by decide +kernel)⟩

end Tree

end DebugGuard
