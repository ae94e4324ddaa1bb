import DebugGuard.Proofs.Script.Confined
import DebugGuard.Proofs.Script.Part
import DebugGuard.Proofs.Script.Roundtrip

/-!
# Where the names of a script come from

Every name that a parsed script declares or refers to should be a name among its tokens, or `this`
in an expression.  There are two exceptions, where a name is taken over from a place that is none
(`Node.misnames`): the imported name of a specifier that binds it as it is, which may be a reserved
word, and the key of a property that is its own value, which may be one too, or a number.

Main statement: `Tree.name_iff`.
-/

namespace DebugGuard

/-- The node takes `x` for a name although it is none: the imported name of a specifier that binds
it as it is, or the key of a property that is its own value. -/
def Node.misnames {α : Type} (n : Node α) (x : String) : Bool :=
  match n with
  | .importName imported bound => imported == x && bound == x && Token.isReserved x
  | .property key _ _ true =>
    key == x && x != "this" && (decide ((Word.key x).kind ≠ .identifier) || Token.isReserved x)
  | _ => false

theorem Node.misnames_eq_true {α : Type} {n : Node α} {x : String} : n.misnames x = true ↔
    n = .importName x x ∧ Token.isReserved x = true ∨
      ∃ quoted v, n = .property x quoted v true ∧ x ≠ "this" ∧
        ((Word.key x).kind = .identifier → Token.isReserved x = true) := by
  constructor
  · intro h
    unfold misnames at h
    split at h
    · simp only [Bool.and_eq_true, beq_iff_eq] at h
      obtain ⟨⟨rfl, rfl⟩, hreserved⟩ := h
      exact .inl ⟨rfl, hreserved⟩
    · next key quoted v =>
      simp only [Bool.and_eq_true, beq_iff_eq, bne_iff_ne] at h
      obtain ⟨⟨rfl, hthis⟩, hkey⟩ := h
      exact .inr ⟨quoted, v, rfl, hthis, fun hk => by simpa [hk] using hkey⟩
    · cases h
  · rintro (⟨rfl, hreserved⟩ | ⟨quoted, v, rfl, hthis, hkey⟩)
    · simp [misnames, hreserved]
    · by_cases hk : (Word.key x).kind = .identifier
      · simp [misnames, hthis, hkey hk]
      · simp [misnames, hthis, hk]

namespace Tree

open Cursor Grammar

variable {t : Tree} {n : Node Tree} {ts : List Token} {x : String}

/-- A name is a name among the tokens, or it stands at one of the three exceptions. -/
theorem Named.cases_of_mem (h : Named ts t) (hn : n ∈ t.nodes) (hx : x ∈ n.ownNames) :
    TextAmong ts Token.isName x ∨ n = .identifier "this" ∨
      (n = .importName x x ∧ TextAmong ts (·.kind = .identifier) x) ∨
      (n = .identifier x ∧ (∃ v, .property x false v true ∈ t.nodes) ∧
        TextAmong ts (fun t => t.kind = .number || t.kind = .identifier) x) := by
  induction h with
  | absent => cases hn
  | @node pos top hnames hbelow ih =>
    rcases mem_nodes_node.1 hn with rfl | ⟨c, hc, hn⟩
    · exact .inl (hnames x hx)
    · rcases ih c hc hn with hname | hthis | himport | ⟨heq, ⟨v, hv⟩, hkey⟩
      · exact .inl hname
      · exact .inr (.inl hthis)
      · exact .inr (.inr (.inl himport))
      · exact .inr (.inr (.inr ⟨heq, ⟨v, nodes_subset hc hv⟩, hkey⟩))
  | this =>
    simp only [nodes_node, Node.children, List.flatMap_nil, List.mem_singleton] at hn
    exact .inr (.inl hn)
  | importName hword =>
    simp only [nodes_node, Node.children, List.flatMap_nil, List.mem_singleton] at hn
    subst hn
    obtain rfl : x = _ := List.mem_singleton.1 hx
    exact .inr (.inr (.inl ⟨rfl, hword⟩))
  | @shorthand pos pos' key hkey =>
    simp only [nodes_node, Node.children, List.flatMap_cons, List.flatMap_nil, List.append_nil,
      List.mem_cons, List.not_mem_nil, or_false] at hn
    rcases hn with rfl | rfl
    · cases hx
    · obtain rfl : x = key := List.mem_singleton.1 hx
      exact .inr (.inr (.inr ⟨rfl, ⟨_, mem_nodes⟩, hkey⟩))

/-- A property that is named alone has its key as its value. -/
theorem Part.identifier_of_shorthand {key : String} {quoted : Bool} {v : Tree} (h : Part t)
    (hn : .property key quoted v true ∈ t.nodes) : .identifier key ∈ t.nodes := by
  obtain ⟨pos, hpart, hsub⟩ := h.exists_of_mem hn
  obtain ⟨_, hfits⟩ := hpart.fits rfl rfl nofun
  cases hfits with
  | shorthand => exact hsub (by simp [Node.children])

theorem named_of_parse {source : String} (hts : Token.scan source = .ok ts)
    (h : parse source = .ok t) : Named ts t := by
  rw [parse, hts] at h
  obtain ⟨body, _, hx, -, -, hbody⟩ | ⟨_, _, _, hx, -⟩ :=
    (script_confined (.refl (closed_of_scan hts) [])).cases
  · simp only [bind, Except.bind, hx] at h
    cases h
    exact .nameless rfl hbody
  · simp only [bind, Except.bind, hx] at h
    cases h

/-- **Names are names among the tokens.**  Of a parsed script, a name `x` is the text of a name
among the tokens wherever it is declared or referred to, or else it is `this` in an expression, if
and only if no node takes `x` over from a place where it is no name. -/
theorem name_iff {source : String} (hts : Token.scan source = .ok ts) (h : parse source = .ok t)
    (x : String) :
    (∀ n ∈ t.nodes, x ∈ n.ownNames → n = .identifier "this" ∨ TextAmong ts Token.isName x) ↔
      ∀ n ∈ t.nodes, n.misnames x = false := by
  have hscanned := scanned_of_scan hts
  have key_eq {u : Token} (hu : u ∈ ts) (hk : u.kind = .number ∨ u.kind = .identifier) :
      Word.key u.text = u.word :=
    key_word (hscanned u hu (by rcases hk with hk | hk <;> simp [hk])) hk
  constructor
  · intro hnames n hn
    rw [← Bool.not_eq_true]
    intro hmis
    rcases Node.misnames_eq_true.1 hmis with ⟨rfl, hreserved⟩ | ⟨quoted, v, rfl, hthis, hkey⟩
    · obtain heq | ⟨u, -, hname, rfl⟩ := hnames _ hn List.mem_cons_self
      · cases heq
      · exact Bool.false_ne_true ((Token.kind_of_isName hname).2.symm.trans hreserved)
    · -- the key is a name of its own, as the value of the property
      obtain ⟨body, ts', rfl, hs, -⟩ := parse_sound h
      have hvalue := (Part.script hs).identifier_of_shorthand hn
      obtain heq | ⟨u, hu, hname, rfl⟩ := hnames _ hvalue List.mem_cons_self
      · exact hthis (Node.identifier.inj heq)
      · obtain ⟨hk, hfree⟩ := Token.kind_of_isName hname
        rw [key_eq hu (.inr hk)] at hkey
        exact Bool.false_ne_true (hfree.symm.trans (hkey hk))
  · intro hkeeps n hn hx
    have hmis {m : Node Tree} (hm : m ∈ t.nodes) : ¬m.misnames x = true := by
      simp [hkeeps m hm]
    rcases (named_of_parse hts h).cases_of_mem hn hx with
      hname | hthis | ⟨rfl, u, hu, hk, rfl⟩ | ⟨rfl, ⟨v, hv⟩, u, hu, hk, rfl⟩
    · exact .inr hname
    · exact .inl hthis
    · -- an imported name is an identifier, and only its text can be amiss
      have hfree : ¬Token.isReserved u.text = true := fun hreserved =>
        hmis hn (Node.misnames_eq_true.2 (.inl ⟨rfl, hreserved⟩))
      exact .inr ⟨u, hu, by simpa [Token.isName, hfree] using hk, rfl⟩
    · -- the key shows by its first character whether it is a number
      have hk : u.kind = .number ∨ u.kind = .identifier := by simpa using hk
      have hkey : ¬(u.text ≠ "this" ∧ (u.kind = .identifier → Token.isReserved u.text = true)) := by
        rintro ⟨hthis, hkey⟩
        refine hmis hv (Node.misnames_eq_true.2 (.inr ⟨false, v, rfl, hthis, ?_⟩))
        rwa [key_eq hu hk]
      by_cases hthis : u.text = "this"
      · exact .inl (by rw [hthis])
      · obtain ⟨hkind, hfree⟩ : u.kind = .identifier ∧ ¬Token.isReserved u.text = true := by
          simpa [hthis] using hkey
        exact .inr ⟨u, hu, by simp [Token.isName, hkind, hfree], rfl⟩

/-- The imported name `default` is bound under another name, and the key `if` has another value. -/
theorem renamed_default : ∃ ts t,
    Token.scan "import { default as a } from \"m\"; f({ if: this, a });" = .ok ts ∧
      parse "import { default as a } from \"m\"; f({ if: this, a });" = .ok t ∧
      ∀ n ∈ t.nodes, "a" ∈ n.ownNames → n = .identifier "this" ∨ TextAmong ts Token.isName "a" := by
  have hts : Token.scan "import { default as a } from \"m\"; f({ if: this, a });" =
      .ok ((Token.scan "import { default as a } from \"m\"; f({ if: this, a });").toOption.getD
        []) := by decide +kernel
  have hkeeps : (parse "import { default as a } from \"m\"; f({ if: this, a });").toOption.any
      (fun t => t.nodes.all fun n => !n.misnames "a") = true := by decide +kernel
  cases h : parse "import { default as a } from \"m\"; f({ if: this, a });" with
  | error e =>
    rw [h] at hkeeps
    cases hkeeps
  | ok t =>
    rw [h] at hkeeps
    have hall : t.nodes.all (fun n => !n.misnames "a") = true := hkeeps
    exact ⟨_, t, hts, rfl, (name_iff hts h "a").2 (by simpa using hall)⟩

/-- A reserved word names a binding where it is imported as it is. -/
theorem reserved_import : ∃ ts t, Token.scan "import { default } from \"m\";" = .ok ts ∧
    parse "import { default } from \"m\";" = .ok t ∧
    ∃ n ∈ t.nodes, "default" ∈ n.ownNames ∧ n ≠ .identifier "this" ∧
      ¬TextAmong ts Token.isName "default" := by
  have hts : Token.scan "import { default } from \"m\";" =
      .ok ((Token.scan "import { default } from \"m\";").toOption.getD []) := by decide +kernel
  have hno : ∀ u ∈ (Token.scan "import { default } from \"m\";").toOption.getD [],
      u.isName = true → u.text ≠ "default" := by decide +kernel
  have hsome : (parse "import { default } from \"m\";").toOption.any
      (fun t => t.nodes.any fun n => n.isSpecifier && n.ownNames.contains "default") = true := by
    decide +kernel
  cases h : parse "import { default } from \"m\";" with
  | error e =>
    rw [h] at hsome
    cases hsome
  | ok t =>
    rw [h] at hsome
    have hany : t.nodes.any (fun n => n.isSpecifier && n.ownNames.contains "default") = true :=
      hsome
    obtain ⟨n, hn, hspec⟩ := List.any_eq_true.1 hany
    rw [Bool.and_eq_true, List.contains_iff_mem] at hspec
    refine ⟨_, t, hts, rfl, n, hn, hspec.2, ?_, ?_⟩
    · rintro rfl
      exact Bool.false_ne_true hspec.1
    · rintro ⟨u, hu, hname, htext⟩
      exact hno u hu hname htext

end Tree

end DebugGuard
