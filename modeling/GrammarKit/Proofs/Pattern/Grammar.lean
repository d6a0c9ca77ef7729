import GrammarKit.Pattern

/-!
This module contains the texts that are patterns, and the rules they stand for.
-/

namespace GrammarKit

namespace Pattern

def operatorChars : List Char :=
  ['*', '+', '?', '!', '^', '(', ')', '[', ']', '-', '|', '\\']

def char (c : Char) : Rule Matcher :=
  text (String.singleton c)

/-- A single rule stands for itself. -/
def collapse (several : List (Rule Matcher) → Rule Matcher) : List (Rule Matcher) → Rule Matcher
  | [rule] => rule
  | rules => several rules

mutual

/-- Sequences with bars between them. -/
inductive Alternation : List Char → Rule Matcher → Prop where
  | of {s : List Char} {rules : List (Rule Matcher)} (h : Sequences s rules) :
      Alternation s (collapse .alt rules)

inductive Sequences : List Char → List (Rule Matcher) → Prop where
  | last {s : List Char} {rule : Rule Matcher} (h : Sequence s rule) : Sequences s [rule]
  | more {s rest : List Char} {rule : Rule Matcher} {rules : List (Rule Matcher)}
      (first : Sequence s rule) (others : Sequences rest rules) :
      Sequences (s ++ '|' :: rest) (rule :: rules)

/-- Items one after the other. -/
inductive Sequence : List Char → Rule Matcher → Prop where
  | of {s : List Char} {rules : List (Rule Matcher)} (h : Items s rules) :
      Sequence s (collapse .seq rules)

inductive Items : List Char → List (Rule Matcher) → Prop where
  | last {s : List Char} {rule : Rule Matcher} (h : Item s rule) : Items s [rule]
  | more {s rest : List Char} {rule : Rule Matcher} {rules : List (Rule Matcher)}
      (first : Item s rule) (others : Items rest rules) : Items (s ++ rest) (rule :: rules)

/-- An operand, with at most one suffix. -/
inductive Item : List Char → Rule Matcher → Prop where
  | plain {s : List Char} {rule : Rule Matcher} (h : Operand s rule) : Item s rule
  | star {s : List Char} {rule : Rule Matcher} (h : Operand s rule) : Item (s ++ ['*']) (.star rule)
  | plus {s : List Char} {rule : Rule Matcher} (h : Operand s rule) : Item (s ++ ['+']) (.plus rule)
  | opt {s : List Char} {rule : Rule Matcher} (h : Operand s rule) : Item (s ++ ['?']) (.opt rule)
  | untilEmpty {s : List Char} {rule : Rule Matcher} (h : Operand s rule) :
      Item (s ++ ['!']) (.untilEmpty rule)

inductive Operand : List Char → Rule Matcher → Prop where
  | range {low high : Char} (hlow : low ∉ operatorChars) (hhigh : high ∉ operatorChars) :
      Operand ['[', low, '-', high, ']'] (.atom (.range low high))
  | group {s : List Char} {rule : Rule Matcher} (h : Alternation s rule) :
      Operand ('(' :: s ++ [')']) rule
  | negation {s : List Char} {rule : Rule Matcher} (h : Operand s rule) :
      Operand ('^' :: s) (.atom (.not rule))
  | operator {c : Char} (h : c ∈ operatorChars) : Operand ['\\', c] (char c)
  | newline : Operand ['\\', 'n'] (char '\n')
  | tab : Operand ['\\', 't'] (char '\t')
  | char {c : Char} (h : c ∉ operatorChars ∨ c = '-') : Operand [c] (char c)

end

end Pattern

end GrammarKit
