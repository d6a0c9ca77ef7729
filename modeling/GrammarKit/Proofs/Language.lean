import GrammarKit.Language
import GrammarKit.Proofs.Parser.Predictive
import GrammarKit.Proofs.Run.Eventually

/-!
This module contains the steps in which a language comes about from the text of a grammar.
-/

namespace GrammarKit

namespace Language

theorem tokenRules_nil : (tokenRules []).run = some (.ok []) := rfl

theorem tokenRules_cons {rule : TokenDef} {rules : List TokenDef} {regex : Regex}
    {others : List (String × TokenRule)} (hload : (Pattern.load rule.pattern).run = some (.ok regex))
    (hothers : (tokenRules rules).run = some (.ok others))
    : (tokenRules (rule :: rules)).run =
        some (.ok ((rule.name, ⟨regex, rule.silent⟩) :: others)) := by
  unfold tokenRules
  rw [Eventually.bind_eq_ok]
  refine ⟨regex, Eventually.adapt_eq_ok.mpr hload, ?_⟩
  rw [Eventually.bind_eq_ok]
  exact ⟨others, hothers, rfl⟩

theorem exists_of_tokenRules {rules : List TokenDef} {declared : List (String × TokenRule)}
    (h : (tokenRules rules).run = some (.ok declared)) {rule : TokenDef} (hmem : rule ∈ rules)
    : ∃ regex, (Pattern.load rule.pattern).run = some (.ok regex) ∧
        (rule.name, ⟨regex, rule.silent⟩) ∈ declared := by
  induction rules generalizing declared with
  | nil => cases hmem
  | cons first rules ih =>
    unfold tokenRules at h
    obtain ⟨regex, hload, h⟩ := Eventually.bind_eq_ok.mp h
    obtain ⟨others, hothers, h⟩ := Eventually.bind_eq_ok.mp h
    cases h
    rcases List.mem_cons.mp hmem with rfl | hrest
    · exact ⟨regex, Eventually.adapt_eq_ok.mp hload, List.mem_cons_self⟩
    · obtain ⟨regex, hload, hentry⟩ := ih hothers hrest
      exact ⟨regex, hload, List.mem_cons_of_mem _ hentry⟩

theorem mem_of_tokenRules {defs : List TokenDef} {declared : List (String × TokenRule)}
    (h : (tokenRules defs).run = some (.ok declared)) {name : String} {rule : TokenRule}
    : (name, rule) ∈ declared ↔ ∃ d ∈ defs, d.name = name ∧ d.silent = rule.silent ∧
        (Pattern.load d.pattern).run = some (.ok rule.regex) := by
  induction defs generalizing declared with
  | nil =>
    cases h
    simp
  | cons d defs ih =>
    obtain ⟨regex, hregex, h⟩ := Eventually.bind_eq_ok.mp h
    obtain ⟨others, hothers, h⟩ := Eventually.bind_eq_ok.mp h
    cases h
    rw [Eventually.adapt_eq_ok] at hregex
    obtain ⟨r, silent⟩ := rule
    rw [List.mem_cons, List.exists_mem_cons_iff, ih hothers, hregex]
    simp only [Prod.mk.injEq, TokenRule.mk.injEq, Option.some.injEq, Except.ok.injEq]
    grind

theorem ofGrammar_eq_ok {g : Grammar} {language : Language}
    : (ofGrammar g).run = some (.ok language) ↔
        ∃ declared, (tokenRules g.tokenDefs).run = some (.ok declared) ∧
          assemble g declared = .ok language := by
  unfold ofGrammar
  simp only [Eventually.bind_eq_ok, Eventually.run_ofExcept, Option.some.injEq]

theorem load_eq_ok {text : String} {language : Language}
    : (load text).run = some (.ok language) ↔
        ∃ g declared, Grammar.read text = .ok g ∧ (tokenRules g.tokenDefs).run = some (.ok declared) ∧
          assemble g declared = .ok language := by
  unfold load
  simp only [Eventually.bind_eq_ok, Eventually.run_ofExcept, Option.some.injEq, mapError_eq_ok,
    ofGrammar_eq_ok]
  constructor
  · rintro ⟨g, hg, declared, hdeclared, hlanguage⟩
    exact ⟨g, declared, hg, hdeclared, hlanguage⟩
  · rintro ⟨g, declared, hg, hdeclared, hlanguage⟩
    exact ⟨g, hg, declared, hdeclared, hlanguage⟩

variable {language : Language} {text : String}

theorem parse_eq_ok {n : Node}
    : (language.parse text).run = some (.ok n) ↔
        ∃ tokens, (language.lexer.lex text).run = some (.ok tokens) ∧
          (language.parser.parse tokens).run = some (.ok n) := by
  unfold parse lex
  simp only [Eventually.bind_eq_ok, Eventually.adapt_eq_ok]

theorem parse_eq_ok_iff_derives {look : Parser.Lookahead}
    (hcheck : look.check language.parser.rules = true) {n : Node}
    : (language.parse text).run = some (.ok n) ↔
        (language.lexer.lex text).run = some (.ok n.tokens) ∧
          Parser.Derives language.parser.rules (.ref language.parser.root) [n] := by
  rw [parse_eq_ok]
  constructor
  · rintro ⟨tokens, hlex, hparse⟩
    obtain ⟨hderives, rfl⟩ := (Parser.parse_iff_derives hcheck).mp hparse
    exact ⟨hlex, hderives⟩
  · rintro ⟨hlex, hderives⟩
    exact ⟨n.tokens, hlex, (Parser.parse_iff_derives hcheck).mpr ⟨hderives, rfl⟩⟩

theorem parse_ne_none (hlex : (language.lexer.lex text).run ≠ none)
    (hparse : ∀ tokens, (language.parser.parse tokens).run ≠ none)
    : (language.parse text).run ≠ none := by
  apply Eventually.bind_ne_none
  · exact Eventually.adapt_ne_none hlex
  · intro tokens _
    exact Eventually.adapt_ne_none (hparse tokens)

end Language

end GrammarKit
