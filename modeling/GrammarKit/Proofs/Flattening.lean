import GrammarKit.Proofs.Parser.Derivation
import GrammarKit.Proofs.Recognizer.Choice
import GrammarKit.Proofs.Recognizer.Splicing
import GrammarKit.Proofs.Regex.Matching

/-!
This module contains the laws by which rules of parsers and regexes may be rewritten: a row within a
row and a choice within a choice are flattened, and a repetition is unfolded.
-/

namespace GrammarKit

open Recognizer

namespace Parser

theorem advance_join (tokens : List Token) (outputs : List Node)
    : domain.advance tokens (domain.join outputs) = outputs.foldl domain.advance tokens := by
  show tokens.drop (Node.tokensAll (outputs.flatMap splice)).length = _
  rw [Node.tokensAll_flatMap_splice]
  induction outputs generalizing tokens with
  | nil => rfl
  | cons n outputs ih =>
    rw [List.map_cons, List.sum_cons, ← List.drop_drop, ih]
    rfl

theorem splicing : domain.Splicing where
  join_join before inner after := by
    show join (before ++ join inner :: after) = join (before ++ inner ++ after)
    have hgroup : splice (join inner) = inner.flatMap splice := rfl
    simp only [join, List.flatMap_append, List.flatMap_cons, List.append_assoc] at hgroup ⊢
    rw [hgroup]
  advance_join _ := advance_join _ _

end Parser

namespace Matcher

theorem splicing : domain.Splicing where
  join_join before inner after := by
    show (before ++ inner.flatten :: after).flatten = (before ++ inner ++ after).flatten
    simp
  advance_join {pos texts} h := by
    induction h with
    | nil pos => exact Position.skip_eq_of_prefix rfl
    | @cons pos text texts first others ih =>
      have hfits : (text :: texts).flatten <+: pos.rest := row_prefix (.cons first others)
      rw [List.foldl_cons, ← ih]
      exact Position.skip_append hfits

end Matcher

section Laws

variable {ι ω μ : Type} (m : Recognizer ι ω μ)

/--
What becomes of rules within a rule if they are put in its place: nothing changes for a row; a
choice keeps what it fails with, up to the message, and may turn ambiguous.
-/
structure Flattens (xs ys zs : List (Rule μ)) (input : ι) : Prop where
  row : m.eval (.seq (xs ++ .seq ys :: zs)) input = m.eval (.seq (xs ++ ys ++ zs)) input
  choice : ∀ output, (m.eval (.alt (xs ++ ys ++ zs)) input).Yields output →
    (m.eval (.alt (xs ++ .alt ys :: zs)) input).Yields output
  ambiguity : ∀ output, (m.eval (.alt (xs ++ .alt ys :: zs)) input).Yields output →
    (∀ output, ¬ (m.eval (.alt (xs ++ ys ++ zs)) input).Yields output) →
      (∃ first second, [first, second].Sublist ys ∧ (∃ x, (m.eval first input).Yields x) ∧
        ∃ y, (m.eval second input).Yields y) ∧
      ∃ outputs, 2 ≤ outputs.length ∧
        (m.eval (.alt (xs ++ ys ++ zs)) input).FailsWith
          (m.domain.failureAt input (ambiguous m.domain outputs))
  location : (∀ rule ∈ xs ++ ys ++ zs, (m.eval rule input).Fails) →
    ∃ e e', (m.eval (.alt (xs ++ ys ++ zs)) input).FailsWith e ∧
      (m.eval (.alt (xs ++ .alt ys :: zs)) input).FailsWith e' ∧ e.location = e'.location

/-- A repetition is one round and then a repetition, or nothing; it ends where its rule fails. -/
structure Unfolds (rule : Rule μ) (input : ι) : Prop where
  star : m.eval (.star rule) input = m.eval (.opt (.seq [rule, .star rule])) input
  plus : m.eval (.plus rule) input = m.eval (.seq [rule, .star rule]) input
  never_fails : ¬ (m.eval (.star rule) input).Fails
  star_stops : ∀ output, (m.eval (.star rule) input).Yields output →
    (m.eval rule (m.domain.advance input output)).Fails
  plus_stops : ∀ output, (m.eval (.plus rule) input).Yields output →
    (m.eval rule (m.domain.advance input output)).Fails

variable {d : Domain ι ω μ} [Domain.Lawful d] (rules : Table (Rule μ)) (root : String)

theorem Domain.Splicing.flattens (hd : d.Splicing) (hlatest : d.furthest = Furthest.latest.choose)
    (xs ys zs : List (Rule μ)) (input : ι)
    : Flattens ⟨d, rules, root⟩ xs ys zs input where
  row := eval_seq_nested hd xs ys zs input
  choice _ := alt_nested_yields
  ambiguity _ := alt_ambiguous_of_nested
  location := alt_nested_location hlatest

theorem Domain.Splicing.unfolds (hd : d.Splicing) (rule : Rule μ) (input : ι)
    : Unfolds ⟨d, rules, root⟩ rule input where
  star := eval_star_eq_opt_seq hd rule input
  plus := eval_plus_eq_seq hd rule input
  never_fails := fun ⟨e, he⟩ => not_eval_star_failsWith e he
  star_stops _ := Recognizer.star_stops hd
  plus_stops _ := Recognizer.plus_stops hd

end Laws

/--
Parentheses around a row make no difference, to what is swallowed on the way either. Parentheses
around alternatives make one only if two of those alternatives apply.
-/
theorem flattening_laws
    : (∀ (rules : Table (Rule String)) (root : String) (xs ys zs : List (Rule String))
          (tokens : List Token), Flattens ⟨Parser.domain, rules, root⟩ xs ys zs tokens) ∧
        ∀ (rules : Table (Rule Matcher)) (root : String) (xs ys zs : List (Rule Matcher))
          (pos : Position), Flattens ⟨Matcher.domain, rules, root⟩ xs ys zs pos :=
  ⟨fun rules root => Parser.splicing.flattens rules root rfl,
    fun rules root => Matcher.splicing.flattens rules root rfl⟩

/-- The inner choice cannot decide and fails, so that the token is taken behind it. -/
theorem flattening_laws_ambiguous
    : ∃ (m : Recognizer (List Token) Node String) (t : Token), m.domain = Parser.domain ∧
        (m.eval (.alt [.alt [.atom "x", .atom "x"], .atom "x"]) [t]).Yields (Node.leaf t) ∧
        ∃ outputs, 2 ≤ outputs.length ∧
          (m.eval (.alt [.atom "x", .atom "x", .atom "x"]) [t]).FailsWith
            (m.domain.failureAt [t] (ambiguous m.domain outputs)) := by
  let m : Recognizer (List Token) Node String := ⟨Parser.domain, Table.empty, "s"⟩
  let t : Token := ⟨"x", "x", ⟨0, 0⟩, true⟩
  have hnested : (m.eval (.alt [.alt [.atom "x", .atom "x"], .atom "x"]) [t]).Yields
      (Node.leaf t) := ⟨_, rfl⟩
  have hflat : (m.eval (.alt [.atom "x", .atom "x", .atom "x"]) [t]).Fails := ⟨_, _, rfl⟩
  refine ⟨m, t, rfl, hnested, ?_⟩
  exact ((flattening_laws.1 Table.empty "s" [] [.atom "x", .atom "x"] [.atom "x"] [t]).ambiguity
    _ hnested fun _ h => h.not_fails hflat).2

theorem unfolding_laws
    : (∀ (rules : Table (Rule String)) (root : String) (rule : Rule String) (tokens : List Token),
          Unfolds ⟨Parser.domain, rules, root⟩ rule tokens) ∧
        ∀ (rules : Table (Rule Matcher)) (root : String) (rule : Rule Matcher) (pos : Position),
          Unfolds ⟨Matcher.domain, rules, root⟩ rule pos :=
  ⟨Parser.splicing.unfolds, Matcher.splicing.unfolds⟩

/-- The letters are matched, and what ends the repetition is the digit behind them. -/
theorem unfolding_laws_letters
    : ∃ r : Regex, r.rule = .star (.atom (.range 'a' 'z')) ∧
        (r.eval r.rule ⟨"ab1".toList⟩).Yields "ab".toList ∧
        (r.eval (.atom (.range 'a' 'z')) ⟨"1".toList⟩).Fails := by
  let r : Regex := ⟨.star (.atom (.range 'a' 'z'))⟩
  have hletters : (r.eval r.rule ⟨"ab1".toList⟩).Yields "ab".toList :=
    (Regex.matchAt_run_eq_some _ _).mp rfl
  have hskip : Matcher.domain.advance ⟨"ab1".toList⟩ "ab".toList = ⟨"1".toList⟩ :=
    Position.skip_eq_of_prefix rfl
  have hstops := (unfolding_laws.2 r.recognizer.rules r.recognizer.root _ _).star_stops _ hletters
  exact ⟨r, rfl, hletters, hskip ▸ hstops⟩

end GrammarKit
