import GrammarKit.Proofs.Parser.Greedy
import GrammarKit.Proofs.Parser.Predictive

/-!
This module contains the law by which a parser accepts tokens: there is exactly one derivation tree
for them among those whose choices are made greedily, and where one token tells how to go on, there
is exactly one derivation tree at all.
-/

namespace GrammarKit

open Recognizer Node

namespace Parser

/-- A derivation of the root whose leaves are the tokens. -/
def DerivationTree (p : Parser) (tokens : List Token) (node : Node) : Prop :=
  Derives p.rules (.ref p.root) [node] ∧ node.tokens = tokens

/-- As `DerivationTree`, where every choice is that of `Greedy`. -/
def GreedyTree (p : Parser) (tokens : List Token) (node : Node) : Prop :=
  Greedy p.rules (.ref p.root) tokens (some ([node], []))

variable {p : Parser} {tokens : List Token} {node : Node}

theorem parse_iff_greedyTree
    : (p.parse tokens).run = some (.ok node) ↔ p.GreedyTree tokens node := by
  rw [parse_eq_ok, run_eq_call, GreedyTree, greedy_iff_ends, eval_ref]
  constructor
  · rintro ⟨hcall, hdrop⟩
    obtain ⟨body, hbody, inner, hinner, rfl⟩ := call_yields.mp hcall
    refine ⟨join [label p.root inner], ?_, ?_⟩
    · simpa using ⟨_, hcall, rfl⟩
    · rw [took_join_singleton]
      exact Prod.ext rfl hdrop
  · rintro ⟨_, hn, htook⟩
    simp only [Run.andThen_yields, Run.ok_yields] at hn
    obtain ⟨n, hcall, rfl⟩ := hn
    obtain ⟨body, hbody, inner, hinner, rfl⟩ := call_yields.mp hcall
    replace htook := (took_join_singleton _).symm.trans htook
    -- a tree with a label is a node of its own
    obtain rfl := (List.cons.inj (congrArg Prod.fst htook)).1
    exact ⟨hcall, congrArg Prod.snd htook⟩

theorem GreedyTree.derivationTree (h : p.GreedyTree tokens node)
    : p.DerivationTree tokens node := by
  have hparse := parse_iff_greedyTree.mpr h
  obtain ⟨hrun, _⟩ := parse_eq_ok.mp hparse
  obtain ⟨_, rule, children, hrule, hderives, rfl⟩ := applyWithin_yields hrun
  exact ⟨.ref hrule hderives, tokens_of_parse hparse⟩

theorem exists_parse_iff_existsUnique {good : Node → Prop}
    (h : ∀ node, (p.parse tokens).run = some (.ok node) ↔ good node)
    : (∃ node, (p.parse tokens).run = some (.ok node)) ↔ ∃! node, good node := by
  constructor
  · rintro ⟨node, hnode⟩
    refine ⟨node, (h node).mp hnode, fun other hother => ?_⟩
    have heq := ((h other).mpr hother).symm.trans hnode
    simpa using heq
  · rintro ⟨node, hnode, _⟩
    exact ⟨node, (h node).mpr hnode⟩

/--
Tokens are accepted exactly if there is one derivation tree for them whose choices are greedy; that
tree is the result. Other derivations do not count, except where one token tells how to go on.
-/
theorem parse_iff_existsUnique_greedyTree (p : Parser) (tokens : List Token)
    : ((∃ node, (p.parse tokens).run = some (.ok node)) ↔ ∃! node, p.GreedyTree tokens node) ∧
        (∀ node, (p.parse tokens).run = some (.ok node) ↔ p.GreedyTree tokens node) ∧
        (∀ node, p.GreedyTree tokens node → p.DerivationTree tokens node) ∧
        ∀ look : Lookahead, look.check p.rules = true →
          ((∃ node, (p.parse tokens).run = some (.ok node)) ↔
            ∃! node, p.DerivationTree tokens node) :=
  ⟨exists_parse_iff_existsUnique fun _ => parse_iff_greedyTree, fun _ => parse_iff_greedyTree,
    fun _ => GreedyTree.derivationTree,
    fun _ hcheck => exists_parse_iff_existsUnique fun _ => parse_iff_derives hcheck⟩

section Examples

def tokenX : Token := ⟨"x", "x", ⟨0, 0⟩, true⟩

def parentheses : Parser :=
  ⟨Table.empty.set "s" (.seq [.atom "(", .star (.ref "s"), .atom ")"]), "s", by decide⟩

theorem existsUnique_greedyTree_parentheses
    : let look : Lookahead := ⟨fun _ => ["("], fun _ => ["(", ")"], fun _ => 0⟩
      let tokens : List Token := [⟨"(", "(", ⟨0, 0⟩, true⟩, ⟨")", ")", ⟨0, 1⟩, true⟩]
      look.check parentheses.rules = true ∧ ∃! node, parentheses.DerivationTree tokens node := by
  intro look tokens
  have hcheck : look.check parentheses.rules = true := by decide
  have hparse : (parentheses.parse tokens).run = some (.ok (labelled "s" (tokens.map leaf))) := rfl
  exact ⟨hcheck, ((parse_iff_existsUnique_greedyTree _ _).2.2.2 look hcheck).mp ⟨_, hparse⟩⟩

/-- The repetition takes the only `x`, and none is left for what follows. -/
def starThenX : Parser :=
  ⟨Table.empty.set "s" (.seq [.star (.atom "x"), .atom "x"]), "s", by decide⟩

/-- Either of the options could take an `x`, and the first one does. -/
def twoOptions : Parser :=
  ⟨.ofList [("s", .seq [.opt (.ref "b"), .opt (.ref "c")]), ("b", .atom "x"), ("c", .atom "x")],
    "s", by decide⟩

theorem existsUnique_tree_starThenX : ∃! node, starThenX.DerivationTree [tokenX] node := by
  refine ⟨labelled "s" [leaf tokenX], ⟨?_, rfl⟩, ?_⟩
  · have hx : Derives starThenX.rules (.atom "x") [leaf tokenX] := .atom rfl
    exact .ref rfl (.seqCons .starNil (.seqCons hx .seqNil))
  · rintro node ⟨hderives, htokens⟩
    obtain ⟨children, rfl, hbody⟩ : ∃ children, node = labelled "s" children ∧
        Derives starThenX.rules (.seq [.star (.atom "x"), .atom "x"]) children := by
      cases hderives with
      | ref hget hbody =>
        cases hget
        exact ⟨_, rfl, hbody⟩
    obtain ⟨ns, t, hstar, rfl⟩ : ∃ ns t, Derives starThenX.rules (.star (.atom "x")) ns ∧
        children = ns ++ [leaf t] := by
      cases hbody with
      | seqCons hstar hrest =>
        cases hrest with
        | seqCons hatom hnil =>
          cases hatom
          cases hnil
          exact ⟨_, _, hstar, rfl⟩
    -- the token is for the `x` at the end, which leaves none for the repetition
    cases hstar with
    | starNil => simp_all
    | starCons hfirst _ =>
      cases hfirst
      simp [tokensAll] at htokens

theorem not_existsUnique_tree_twoOptions
    : ¬ ∃! node, twoOptions.DerivationTree [tokenX] node := by
  rintro ⟨node, _, hunique⟩
  have hfirst : node = labelled "s" [labelled "b" [leaf tokenX]] := by
    refine (hunique _ ⟨?_, rfl⟩).symm
    exact .ref rfl (.seqCons (.optSome (.ref rfl (.atom rfl))) (.seqCons .optNone .seqNil))
  have hsecond : node = labelled "s" [labelled "c" [leaf tokenX]] := by
    refine (hunique _ ⟨?_, rfl⟩).symm
    exact .ref rfl (.seqCons .optNone (.seqCons (.optSome (.ref rfl (.atom rfl))) .seqNil))
  rw [hfirst] at hsecond
  simp [labelled] at hsecond

/-- Tokens with one derivation tree can be refused, and those with several can be accepted. -/
theorem acceptance_differs_from_existsUnique_tree
    : ((∃! node, starThenX.DerivationTree [tokenX] node) ∧
        ∃ e, (starThenX.parse [tokenX]).run = some (.error e)) ∧
        (¬ ∃! node, twoOptions.DerivationTree [tokenX] node) ∧
          ∃ node, (twoOptions.parse [tokenX]).run = some (.ok node) :=
  ⟨⟨existsUnique_tree_starThenX, _, rfl⟩, not_existsUnique_tree_twoOptions, _, rfl⟩

end Examples

end Parser

end GrammarKit
