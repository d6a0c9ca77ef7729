import GrammarKit.Proofs.Pattern.Completeness
import GrammarKit.Proofs.Run.Eventually

/-!
This module contains the exactness of patterns: a text is read as the one regex that it stands for,
and as nothing else.
-/

namespace GrammarKit

open Recognizer Reducer Token

namespace Pattern

def starters : List String := ["[", "(", "^", "escape", "any", "-"]

def enders : List String := ["|", ")"]

def lookahead : GrammarKit.Parser.Lookahead where
  first
    | "class" => ["["]
    | "group" => ["("]
    | "negation" => ["^"]
    | _ => starters
  follow
    | "alternation" => [")"]
    | "sequence" => enders
    | "item" => starters ++ enders
    | _ => suffixes ++ starters ++ enders
  rank
    | "alternation" => 4
    | "sequence" => 3
    | "item" => 2
    | "operand" => 1
    | _ => 0

theorem lookahead_check : lookahead.check parser.rules = true := by decide

theorem parse_iff {tokens : List Token} {n : Node}
    : (parser.parse tokens).run = some (.ok n) ↔
        GrammarKit.Parser.Derives parser.rules (.ref "alternation") [n] ∧ n.tokens = tokens :=
  GrammarKit.Parser.parse_iff_derives lookahead_check

theorem load_eq_ok {p : String} {r : Regex}
    : (load p).run = some (.ok r) ↔
        ∃ n, lexer.Reads Location.start p.toList n.tokens [] ∧
          GrammarKit.Parser.Derives parser.rules (.ref "alternation") [n] ∧
          reducer.apply n = .ok r.rule := by
  simp only [load, Eventually.bind_eq_ok, Eventually.run_ofExcept, ExceptT.run_pure, Option.pure_def,
    Option.some.injEq, Except.ok.injEq, lex_eq_ok, parse_iff]
  constructor
  · rintro ⟨tokens, hreads, n, ⟨hderives, rfl⟩, rule, hrule, rfl⟩
    exact ⟨n, hreads, hderives, hrule⟩
  · rintro ⟨n, hreads, hderives, hrule⟩
    exact ⟨n.tokens, hreads, n, ⟨hderives, rfl⟩, r.rule, hrule, rfl⟩

theorem load_of_alternation {p : String} {rule : Rule Matcher} (h : Alternation p.toList rule)
    : (load p).run = some (.ok ⟨rule⟩) := by
  obtain ⟨words, hwords, htext, hspells⟩ := alternation_writes h
  obtain ⟨tokens, hreads, hspelled⟩ := exists_reads hwords Location.start
  obtain ⟨ns, hderives, htokens, ⟨children, rfl⟩, hgives⟩ := hspells tokens hspelled
  rw [Node.tokensAll_singleton] at htokens
  refine load_eq_ok.mpr ⟨_, ?_, hderives, ?_⟩
  · rwa [htokens, ← htext]
  · exact apply_of_gives reducer_rules hgives

theorem alternation_of_load {p : String} {r : Regex} (h : (load p).run = some (.ok r))
    : Alternation p.toList r.rule := by
  obtain ⟨n, hreads, hderives, hrule⟩ := load_eq_ok.mp h
  obtain ⟨htext, hspelled⟩ := spelled_of_reads hreads
  obtain ⟨rule, happly, hmeaning⟩ := reduce_sound hderives fun t ht => (hspelled t ht).2
  rw [hrule, htext] at *
  cases happly
  exact hmeaning

theorem load_settles (p : String) : (load p).run ≠ none := by
  apply Eventually.bind_ne_none (lex_settles p)
  intro tokens _
  apply Eventually.bind_ne_none (GrammarKit.Parser.parse_settles lookahead_check tokens)
  intro n _
  refine Eventually.bind_ne_none ?_ fun rule _ => ?_
  · simp
  · simp

theorem parser_unambiguous : parser.recognizer.Unambiguous :=
  GrammarKit.Parser.unambiguous lookahead_check

theorem claims_length_le (n : Node) (values : List (Rule Matcher))
    : (claims reducer.rules n values).length ≤ 1 := by
  rw [reducer_rules]
  exact Reducer.claims_length_le reductions_nodup

/--
Reading a text comes to an end: with the one regex that the text stands for, and with a failure where
it stands for none. Nothing in it is ever ambiguous.
-/
theorem load_exact (p : String)
    : (load p).run ≠ none ∧
        (∀ r, (load p).run = some (.ok r) ↔ Alternation p.toList r.rule) ∧
        (∀ rule rule', Alternation p.toList rule → Alternation p.toList rule' → rule = rule') ∧
        ((¬ ∃ rule, Alternation p.toList rule) → ∃ e, (load p).run = some (.error e)) ∧
        lexer.recognizer.Unambiguous ∧
        (∀ name r, lexer.regex? name = some r → r.recognizer.Unambiguous) ∧
        parser.recognizer.Unambiguous ∧
        ∀ n values, (claims reducer.rules n values).length ≤ 1 := by
  refine ⟨load_settles p, fun r => ⟨alternation_of_load, load_of_alternation⟩, ?_, ?_,
    lexer_unambiguous, fun _ _ => regex_unambiguous, parser_unambiguous, claims_length_le⟩
  · intro rule rule' h h'
    have heq := (load_of_alternation h).symm.trans (load_of_alternation h')
    simpa using heq
  · intro hnone
    exact Eventually.exists_error (load_settles p) fun r hr => hnone ⟨_, alternation_of_load hr⟩

end Pattern

end GrammarKit
