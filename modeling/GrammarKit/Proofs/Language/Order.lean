import GrammarKit.Proofs.Language.Loading

/-!
This module contains that the order of the statements of a grammar decides the root of its language
and nothing else.
-/

namespace GrammarKit

namespace Grammar

variable {g g' : Grammar} {name : String}

section Permuted

variable (h : g.statements.Perm g'.statements)

include h

theorem tokenDefs_perm : g.tokenDefs.Perm g'.tokenDefs :=
  h.filterMap Statement.token?

theorem productions_perm : g.productions.Perm g'.productions :=
  h.filterMap Statement.production?

theorem isProduction_of_perm : g.IsProduction name ↔ g'.IsProduction name := by
  simp only [IsProduction, (productions_perm h).mem_iff]

theorem isTerminal_of_perm : g.IsTerminal name ↔ g'.IsTerminal name := by
  simp only [IsTerminal, (productions_perm h).mem_iff]

theorem isToken_of_perm : g.IsToken name ↔ g'.IsToken name := by
  simp only [IsToken, (tokenDefs_perm h).mem_iff, isTerminal_of_perm h]

theorem defines_of_perm : g.Defines name ↔ g'.Defines name :=
  or_congr (isProduction_of_perm h) (isToken_of_perm h)

theorem Loadable.of_perm (hg : g.Loadable) : g'.Loadable where
  patterns d hd := hg.patterns d ((tokenDefs_perm h).mem_iff.mpr hd)
  resolved p hp name hname :=
    (defines_of_perm h).mp (hg.resolved p ((productions_perm h).mem_iff.mpr hp) name hname)
  productions_distinct :=
    ((productions_perm h).map Production.name).nodup_iff.mp hg.productions_distinct
  productions_ne_nil hnil := hg.productions_ne_nil ((hnil ▸ productions_perm h).eq_nil)
  tokens_distinct := ((tokenDefs_perm h).map TokenDef.name).nodup_iff.mp hg.tokens_distinct
  root_free := mt (isToken_of_perm h).mpr hg.root_free

end Permuted

end Grammar

namespace Language

theorem ruleOf_congr {productions productions' tokens tokens' : List String}
    (hproductions : ∀ name, name ∈ productions ↔ name ∈ productions')
    (htokens : ∀ name, name ∈ tokens ↔ name ∈ tokens') (rhs : Rhs)
    : ruleOf productions tokens rhs = ruleOf productions' tokens' rhs := by
  induction rhs with
  | identifier name => simp only [ruleOf, hproductions, htokens]
  | terminal text => rfl
  | optional inner ih
  | repetition inner ih
  | repetition1 inner ih => simp only [ruleOf, ih]
  | alternation left right ihl ihr
  | concatenation left right ihl ihr => simp only [ruleOf, ihl, ihr]

variable {g g' : Grammar} {language language' : Language}

theorem eq_of_rules (hlexer : language.lexer.rules = language'.lexer.rules)
    (hparser : language.parser.rules = language'.parser.rules)
    (hroot : language.parser.root = language'.parser.root)
    : language = language' := by
  obtain ⟨⟨rules, _⟩, ⟨productions, root, _⟩⟩ := language
  obtain ⟨⟨rules', _⟩, ⟨productions', root', _⟩⟩ := language'
  cases hlexer
  cases hparser
  cases hroot
  rfl

section Permuted

variable (hperm : g.statements.Perm g'.statements)
variable (h : (ofGrammar g).run = some (.ok language))
variable (h' : (ofGrammar g').run = some (.ok language'))

include hperm h h'

theorem lexer_rules_eq_of_perm : language.lexer.rules = language'.lexer.rules := by
  obtain ⟨declared, hdeclared, hassemble⟩ := ofGrammar_eq_ok.mp h
  obtain ⟨declared', hdeclared', hassemble'⟩ := ofGrammar_eq_ok.mp h'
  have himplicit (name : String) : name ∈ implicitTokens g ↔ name ∈ implicitTokens g' := by
    rw [mem_implicitTokens, mem_implicitTokens]
    exact and_congr (Grammar.isTerminal_of_perm hperm)
      (not_congr ((Grammar.tokenDefs_perm hperm).map TokenDef.name).mem_iff)
  apply Table.eq_of_get?
  intro name rule
  simp only [get?_lexer hdeclared hassemble, get?_lexer hdeclared' hassemble', himplicit,
    (Grammar.tokenDefs_perm hperm).mem_iff]

theorem parser_rules_eq_of_perm : language.parser.rules = language'.parser.rules := by
  obtain ⟨declared, hdeclared, hassemble⟩ := ofGrammar_eq_ok.mp h
  obtain ⟨declared', hdeclared', hassemble'⟩ := ofGrammar_eq_ok.mp h'
  have hproductions (name : String) : name ∈ g.productions.map Production.name ↔
      name ∈ g'.productions.map Production.name :=
    ((Grammar.productions_perm hperm).map Production.name).mem_iff
  have htokens (name : String) : name ∈ kinds g declared ↔ name ∈ kinds g' declared' := by
    rw [mem_kinds hdeclared, mem_kinds hdeclared', Grammar.isToken_of_perm hperm]
  apply Table.eq_of_get?
  intro name rule
  simp only [get?_parserRules hassemble, get?_parserRules hassemble',
    ruleOf_congr hproductions htokens, (Grammar.productions_perm hperm).mem_iff]

end Permuted

/--
Two orders of the same statements that begin with the same production define the same language, or
neither of them defines one. So there is no difference in what is read, messages included.
-/
theorem ofGrammar_of_perm (hperm : g.statements.Perm g'.statements)
    (hfirst : g.productions.head? = g'.productions.head?)
    : ((∃ language, (ofGrammar g).run = some (.ok language)) ↔
          ∃ language, (ofGrammar g').run = some (.ok language)) ∧
        ∀ language language', (ofGrammar g).run = some (.ok language) →
          (ofGrammar g').run = some (.ok language') →
            language = language' ∧ ∀ text, language.lex text = language'.lex text ∧
              language.parse text = language'.parse text := by
  constructor
  · rw [exists_ofGrammar_iff, exists_ofGrammar_iff]
    exact ⟨Grammar.Loadable.of_perm hperm, Grammar.Loadable.of_perm hperm.symm⟩
  · intro language language' h h'
    obtain ⟨declared, _, hassemble⟩ := ofGrammar_eq_ok.mp h
    obtain ⟨declared', _, hassemble'⟩ := ofGrammar_eq_ok.mp h'
    have hroot : some language.parser.root = some language'.parser.root := by
      rw [← assemble_root hassemble, ← assemble_root hassemble', hfirst]
    obtain rfl : language = language' :=
      eq_of_rules (lexer_rules_eq_of_perm hperm h h') (parser_rules_eq_of_perm hperm h h')
        (Option.some.inj hroot)
    exact ⟨rfl, fun text => ⟨rfl, rfl⟩⟩

section Examples

def letter : Statement :=
  .token ⟨"x", "[a-z]", false⟩

def sum : Statement :=
  .production ⟨"sum", .concatenation (.identifier "item") (.optional (.identifier "sign"))⟩

def item : Statement :=
  .production ⟨"item", .alternation (.identifier "x") (.terminal "-")⟩

def sign : Statement :=
  .production ⟨"sign", .alternation (.terminal "-") (.terminal "+")⟩

/-- The two productions behind the first one both come with a minus sign. -/
theorem ofGrammar_of_perm_sum
    : List.Perm [letter, sum, item, sign] [sum, sign, letter, item] ∧
        Grammar.productions ⟨[letter, sum, item, sign]⟩ ≠
          Grammar.productions ⟨[sum, sign, letter, item]⟩ ∧
        ∃ language, (ofGrammar ⟨[letter, sum, item, sign]⟩).run = some (.ok language) ∧
          (ofGrammar ⟨[sum, sign, letter, item]⟩).run = some (.ok language) := by
  have hperm : List.Perm [letter, sum, item, sign] [sum, sign, letter, item] := by decide
  have hload : ∃ language, (ofGrammar ⟨[letter, sum, item, sign]⟩).run = some (.ok language) :=
    ⟨_, ofGrammar_eq_ok.mpr ⟨_, tokenRules_cons load_letter tokenRules_nil, rfl⟩⟩
  obtain ⟨hexists, hsame⟩ :=
    @ofGrammar_of_perm ⟨[letter, sum, item, sign]⟩ ⟨[sum, sign, letter, item]⟩ hperm rfl
  obtain ⟨language, hlanguage⟩ := hload
  obtain ⟨language', hlanguage'⟩ := hexists.mp ⟨language, hlanguage⟩
  obtain ⟨rfl, _⟩ := hsame language language' hlanguage hlanguage'
  exact ⟨hperm, by decide, language, hlanguage, hlanguage'⟩

end Examples

end Language

end GrammarKit
