import GrammarKit.Proofs.Language
import GrammarKit.Proofs.Lexer.Exactness
import GrammarKit.Proofs.Pattern.Exactness

/-!
This module contains what the terminals of a grammar stand for. A terminal that no token rule is
named after matches its own text and nothing else; a token rule of its name takes its place.
-/

namespace GrammarKit

open Node Token

namespace Lexer

variable {lexer : Lexer} {text : String} {tokens : List Token}

theorem matches_of_lexAll (h : (lexer.lexAll text).run = some (.ok tokens)) {t : Token}
    (ht : t ∈ tokens)
    : ∃ rest, lexer.Matches rest t.kind t.chars := by
  obtain ⟨before, after, heq⟩ := List.append_of_mem ht
  exact ⟨_, ((reads_of_lexAll h).only before t after heq).1⟩

theorem value_of_literal (h : (lexer.lexAll text).run = some (.ok tokens)) {t : Token}
    (ht : t ∈ tokens) (hregex : lexer.regex? t.kind = some (.literal t.kind))
    : t.value = t.kind := by
  obtain ⟨rest, r, hr, _, _, hmatch⟩ := matches_of_lexAll h ht
  rw [hregex] at hr
  cases hr
  exact String.toList_inj.mp (Regex.matchAt_literal hmatch)

end Lexer

namespace Language

variable {g : Grammar} {declared : List (String × TokenRule)} {language : Language}

theorem mem_implicitTokens {text : String}
    : text ∈ implicitTokens g ↔
        (∃ p ∈ g.productions, text ∈ p.rhs.terminals) ∧
          text ∉ g.tokenDefs.map TokenDef.name := by
  simp [implicitTokens, List.mem_eraseDups]

theorem mem_lexerRules {entry : String × TokenRule}
    : entry ∈ lexerRules g declared ↔
        entry ∈ declared ∨
          entry.1 ∈ implicitTokens g ∧ entry = (entry.1, ⟨.literal entry.1, false⟩) := by
  obtain ⟨name, rule⟩ := entry
  simp only [lexerRules, List.mem_append, List.mem_filter, List.mem_map, Prod.mk.injEq]
  cases hs : rule.silent <;> grind

/--
What `assemble` puts together: the rules of the productions under the name of the first one, and the
rules of the lexer.
-/
theorem parts_of_assemble (h : assemble g declared = .ok language)
    : productionRules (g.productions.map Production.name)
          (declared.map Prod.fst ++ implicitTokens g) g.productions ∅ =
        .ok language.parser.rules ∧
      (g.productions.map Production.name).head? = some language.parser.root ∧
      Lexer.ofRules (lexerRules g declared) = .ok language.lexer := by
  unfold assemble at h
  obtain ⟨rules, hrules, h⟩ := bind_eq_ok.mp h
  split at h
  · cases h
  · next root names hnames =>
    obtain ⟨lexer, hlexer, h⟩ := bind_eq_ok.mp h
    obtain ⟨parser, hparser, h⟩ := bind_eq_ok.mp h
    cases h
    rw [mapError_eq_ok] at hlexer hparser
    obtain ⟨rfl, rfl⟩ := Parser.ofTable_eq_ok hparser
    exact ⟨hrules, by rw [hnames, List.head?_cons], hlexer⟩

theorem assemble_lexer (h : assemble g declared = .ok language)
    : Lexer.ofRules (lexerRules g declared) = .ok language.lexer :=
  (parts_of_assemble h).2.2

/-- A terminal has a rule: the one declared under its name, or else that for its own text. -/
theorem get?_terminal (h : (ofGrammar g).run = some (.ok language)) {p : Production}
    (hp : p ∈ g.productions) {t : String} (ht : t ∈ p.rhs.terminals)
    : (∃ d ∈ g.tokenDefs, d.name = t) ∨ language.lexer.rules.get? t = some ⟨.literal t, false⟩ := by
  obtain ⟨declared, hdeclared, hassemble⟩ := ofGrammar_eq_ok.mp h
  by_cases hname : t ∈ g.tokenDefs.map TokenDef.name
  · exact .inl (List.mem_map.mp hname)
  · refine .inr ((Lexer.get?_ofRules (assemble_lexer hassemble)).mpr (mem_lexerRules.mpr (.inr ?_)))
    exact ⟨mem_implicitTokens.mpr ⟨⟨p, hp, ht⟩, hname⟩, rfl⟩

theorem get?_declared (h : (ofGrammar g).run = some (.ok language)) {d : TokenDef}
    (hd : d ∈ g.tokenDefs)
    : ∃ regex, (Pattern.load d.pattern).run = some (.ok regex) ∧
        language.lexer.rules.get? d.name = some ⟨regex, d.silent⟩ := by
  obtain ⟨declared, hdeclared, hassemble⟩ := ofGrammar_eq_ok.mp h
  obtain ⟨regex, hload, hentry⟩ := exists_of_tokenRules hdeclared hd
  refine ⟨regex, hload, (Lexer.get?_ofRules (assemble_lexer hassemble)).mpr ?_⟩
  exact mem_lexerRules.mpr (.inl hentry)

/-- Tokens of that name are found just where the name itself is written. -/
structure StandsForItself (language : Language) (name : String) : Prop where
  visible : name ∈ language.lexer.visible
  literal : language.lexer.regex? name = some (.literal name)
  lexed : ∀ text tokens, (language.lexer.lexAll text).run = some (.ok tokens) ∨
    (language.lex text).run = some (.ok tokens) → ∀ t ∈ tokens, t.kind = name → t.value = name
  parsed : ∀ text node, (language.parse text).run = some (.ok node) →
    ∀ d ∈ node.descendants, ∀ t, d.token = some t → t.kind = name → t.value = name

theorem lexAll_of_lex {text : String} {tokens : List Token} {t : Token}
    (h : (language.lexer.lex text).run = some (.ok tokens)) (ht : t ∈ tokens)
    : ∃ all, (language.lexer.lexAll text).run = some (.ok all) ∧ t ∈ all ∧ t.visible = true := by
  obtain ⟨all, hall, rfl⟩ := Lexer.lex_eq_ok_iff.mp h
  exact ⟨all, hall, List.mem_filter.mp ht⟩

/-- The leaves of a tree are visible tokens of the text. -/
theorem lexAll_of_parse {text : String} {node d : Node} {t : Token}
    (h : (language.parse text).run = some (.ok node)) (hd : d ∈ node.descendants)
    (ht : d.token = some t)
    : ∃ all, (language.lexer.lexAll text).run = some (.ok all) ∧ t ∈ all ∧ t.visible = true := by
  obtain ⟨tokens, hlex, hparse⟩ := parse_eq_ok.mp h
  apply lexAll_of_lex hlex
  rw [← Parser.tokens_of_parse hparse]
  exact mem_tokens_of_descendant hd ht

theorem standsForItself_iff {name : String}
    : language.StandsForItself name ↔
        language.lexer.rules.get? name = some ⟨.literal name, false⟩ := by
  constructor
  · intro h
    obtain ⟨rule, hrule, hsilent⟩ := Table.mem_names_filter_iff.mp h.visible
    have hliteral := h.literal
    rw [Lexer.regex?, hrule, Option.map_some, Option.some.injEq] at hliteral
    obtain ⟨regex, silent⟩ := rule
    rw [Bool.not_eq_true'] at hsilent
    rw [hrule, ← hliteral, ← hsilent]
  · intro h
    have hliteral : language.lexer.regex? name = some (.literal name) := by
      rw [Lexer.regex?, h, Option.map_some]
    have hvalue : ∀ text tokens, (language.lexer.lexAll text).run = some (.ok tokens) →
        ∀ t ∈ tokens, t.kind = name → t.value = name := by
      rintro text tokens htokens t ht rfl
      exact Lexer.value_of_literal htokens ht hliteral
    refine ⟨Table.mem_names_filter_iff.mpr ⟨_, h, rfl⟩, hliteral, ?_, ?_⟩
    · rintro text tokens (hall | hlex) t ht
      · exact hvalue text tokens hall t ht
      · obtain ⟨all, hall, hmem, _⟩ := lexAll_of_lex (Eventually.adapt_eq_ok.mp hlex) ht
        exact hvalue text all hall t hmem
    · intro text node hnode d hd t ht
      obtain ⟨all, hall, hmem, _⟩ := lexAll_of_parse hnode hd ht
      exact hvalue text all hall t hmem

/--
A terminal stands for itself unless a token rule is named after it. Such a rule takes the place of
the terminal, which then stands for itself only if the rule says the same.
-/
theorem terminal_standsForItself_iff (h : (ofGrammar g).run = some (.ok language)) {p : Production}
    (hp : p ∈ g.productions) {t : String} (ht : t ∈ p.rhs.terminals)
    : (language.StandsForItself t ↔ ∀ d ∈ g.tokenDefs, d.name = t →
        d.silent = false ∧ (Pattern.load d.pattern).run = some (.ok (.literal t))) ∧
        ∀ d ∈ g.tokenDefs, d.name = t → ∃ regex, (Pattern.load d.pattern).run = some (.ok regex) ∧
          language.lexer.regex? t = some regex ∧
          (t ∈ language.lexer.visible ↔ d.silent = false) := by
  refine ⟨?_, ?_⟩
  · rw [standsForItself_iff]
    constructor
    · rintro hget d hd rfl
      obtain ⟨regex, hload, hdeclared⟩ := get?_declared h hd
      rw [hget, Option.some.injEq, TokenRule.mk.injEq] at hdeclared
      exact ⟨hdeclared.2.symm, hdeclared.1 ▸ hload⟩
    · intro hsame
      rcases get?_terminal h hp ht with ⟨d, hd, rfl⟩ | hget
      · obtain ⟨regex, hload, hdeclared⟩ := get?_declared h hd
        obtain ⟨hsilent, hliteral⟩ := hsame d hd rfl
        rw [hload] at hliteral
        cases hliteral
        rw [hdeclared, hsilent]
      · exact hget
  · rintro d hd rfl
    obtain ⟨regex, hload, hget⟩ := get?_declared h hd
    refine ⟨regex, hload, ?_, ?_⟩
    · rw [Lexer.regex?, hget, Option.map_some]
    · rw [Lexer.visible, Table.mem_names_filter_iff, hget]
      simp

/-- The terminal `x` has the name of the rule for letters, and no rule is named after `+`. -/
def letters : Grammar where
  statements := [
    .token ⟨"x", "[a-z]", false⟩,
    .production ⟨"sum", .concatenation (.terminal "x") (.terminal "+")⟩]

def letterPlus : Language :=
  let letter : Regex := ⟨.atom (.range 'a' 'z')⟩
  let lexer : Lexer := ⟨.ofList [("x", ⟨letter, false⟩), ("+", ⟨.literal "+", false⟩)], by decide⟩
  ⟨lexer, .ofList [("sum", .seq [.atom "x", .atom "+"])], "sum", by decide⟩

theorem load_letter : (Pattern.load "[a-z]").run = some (.ok ⟨.atom (.range 'a' 'z')⟩) := by
  apply Pattern.load_of_alternation
  exact .of (.last (.of (.last (.plain (.range (by decide) (by decide))))))

theorem ofGrammar_letters : (ofGrammar letters).run = some (.ok letterPlus) :=
  ofGrammar_eq_ok.mpr ⟨_, tokenRules_cons load_letter tokenRules_nil, rfl⟩

theorem terminal_standsForItself_iff_letters
    : (ofGrammar letters).run = some (.ok letterPlus) ∧ letterPlus.StandsForItself "+" ∧
        ¬ letterPlus.StandsForItself "x" := by
  have hmem : (⟨"sum", .concatenation (.terminal "x") (.terminal "+")⟩ : Production) ∈
      letters.productions := by decide
  refine ⟨ofGrammar_letters, ?_, fun hletter => ?_⟩
  · apply (terminal_standsForItself_iff ofGrammar_letters hmem (by decide)).1.mpr
    simp [letters, Grammar.tokenDefs, Statement.token?]
  · -- were the pattern of the rule just its name, then it would have that regex
    obtain ⟨_, hload⟩ := (terminal_standsForItself_iff ofGrammar_letters hmem (by decide)).1.mp
      hletter ⟨"x", "[a-z]", false⟩ (by decide) rfl
    obtain ⟨regex, hregex, hrule, _⟩ := (terminal_standsForItself_iff ofGrammar_letters hmem
      (by decide)).2 ⟨"x", "[a-z]", false⟩ (by decide) rfl
    rw [hload] at hregex
    cases hregex
    cases hrule

theorem parse_letterPlus
    : (letterPlus.parse "q+").run = some (.ok
        (labelled "sum" [leaf ⟨"x", "q", ⟨0, 0⟩, true⟩, leaf ⟨"+", "+", ⟨0, 1⟩, true⟩])) := rfl

/-- The terminal `x` matches any letter. -/
theorem not_forall_terminal_standsForItself
    : ¬ ∀ (g : Grammar) (language : Language), (ofGrammar g).run = some (.ok language) →
        ∀ p ∈ g.productions, ∀ t ∈ p.rhs.terminals, language.StandsForItself t := by
  intro h
  have hletter := h letters letterPlus ofGrammar_letters
    ⟨"sum", .concatenation (.terminal "x") (.terminal "+")⟩ (by decide) "x" (by decide)
  have hvalue := hletter.parsed "q+" _ parse_letterPlus (leaf ⟨"x", "q", ⟨0, 0⟩, true⟩)
    (by simp [labelled, leaf, descendants, descendantsAll]) _ rfl rfl
  simp at hvalue

end Language

end GrammarKit
