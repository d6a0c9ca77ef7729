import GrammarKit.Lexer
import GrammarKit.Parser
import GrammarKit.Reduction.Basic

/-!
This module contains the language of patterns, a notation for regexes.

- `ab`: `a`, then `b`
- `a|b`: exactly one of `a` and `b`
- `a*`, `a+`, `a?`: any number of `a`, at least one, at most one
- `a!`: `a` again and again up to the end of the text
- `^a`: any character where `a` does not match
- `[a-z]`: a character out of a range
- `(a)`: grouping
- `\*`, `\n`, `\t`: an operator as a character, a line feed, a tab

Patterns are read with a lexer, a parser and a reducer of their own.
-/

namespace GrammarKit

namespace Pattern

/-- The characters with a meaning of their own. -/
def operators : List String :=
  ["*", "+", "?", "!", "^", "(", ")", "[", "]", "-", "|", "\\"]

def suffixes : List String :=
  ["*", "+", "?", "!"]

def text (s : String) : Rule Matcher :=
  .atom (.literal s)

def reserved : Rule Matcher :=
  .alt (operators.map text)

def escape : Rule Matcher :=
  .seq [text "\\", .alt [reserved, text "n", text "t"]]

def any : Rule Matcher :=
  .atom (.not reserved)

/--
The tokens of patterns: operators by themselves, escapes, and other characters.
-/
def lexer : Lexer where
  rules := .ofList [
    ("*", ⟨⟨text "*"⟩, false⟩), ("+", ⟨⟨text "+"⟩, false⟩), ("?", ⟨⟨text "?"⟩, false⟩),
    ("!", ⟨⟨text "!"⟩, false⟩), ("^", ⟨⟨text "^"⟩, false⟩), ("(", ⟨⟨text "("⟩, false⟩),
    (")", ⟨⟨text ")"⟩, false⟩), ("[", ⟨⟨text "["⟩, false⟩), ("]", ⟨⟨text "]"⟩, false⟩),
    ("-", ⟨⟨text "-"⟩, false⟩), ("|", ⟨⟨text "|"⟩, false⟩), ("escape", ⟨⟨escape⟩, false⟩),
    ("any", ⟨⟨any⟩, false⟩)]
  root_free := by simp [Table.ofList, Table.get?_set, Lexer.rootName]

/--
The syntax of patterns. A minus sign outside of a range stands for itself.
-/
def parser : Parser where
  rules := .ofList [
    ("alternation", .seq [.ref "sequence", .star (.seq [.atom "|", .ref "sequence"])]),
    ("sequence", .plus (.ref "item")),
    ("item", .seq [.ref "operand", .opt (.alt (suffixes.map .atom))]),
    ("operand", .alt [.ref "class", .ref "group", .ref "negation", .atom "escape", .atom "any",
      .atom "-"]),
    ("class", .seq [.atom "[", .atom "any", .atom "-", .atom "any", .atom "]"]),
    ("group", .seq [.atom "(", .ref "alternation", .atom ")"]),
    ("negation", .seq [.atom "^", .ref "operand"])]
  root := "alternation"
  root_known := by simp [Table.ofList, Table.contains, Table.get?_set]

def unescape (value : String) : Option (Rule Matcher) :=
  match value.toList with
  | ['\\', 'n'] => some (text "\n")
  | ['\\', 't'] => some (text "\t")
  | '\\' :: rest => some (text (String.ofList rest))
  | _ => none

def range (n : Node) : Option (Rule Matcher) := do
  let low ← n.tokens[1]?
  let high ← n.tokens[3]?
  return .atom (.range (← low.value.toList.head?) (← high.value.toList.head?))

def suffixed (suffix : String) (rule : Rule Matcher) : Option (Rule Matcher) :=
  match suffix with
  | "*" => some (.star rule)
  | "+" => some (.plus rule)
  | "?" => some (.opt rule)
  | "!" => some (.untilEmpty rule)
  | _ => none

def suffix? (n : Node) : Option String :=
  (n.children.filterMap fun child => child.token.map Token.kind).find? suffixes.contains

def item (n : Node) (values : List (Rule Matcher)) : Option (Rule Matcher) :=
  match suffix? n, values with
  | some suffix, [rule] => suffixed suffix rule
  | _, _ => none

def combine (several : List (Rule Matcher) → Rule Matcher) :
    List (Rule Matcher) → Option (Rule Matcher)
  | [rule] => some rule
  | rules => some (several rules)

def reducer : Reducer (Rule Matcher) where
  rules := [
    .terminal "any" fun value => some (text value),
    .terminal "-" fun value => some (text value),
    .terminal "escape" unescape,
    .named "class" fun n _ => range n,
    .unary "negation" fun rule => some (.atom (.not rule)),
    .named "item" item,
    .variadic "sequence" (combine .seq),
    .variadic "alternation" (combine .alt)]
  dump := Rule.render Matcher.render

def load (pattern : String) : Eventually Failure Regex := do
  let tokens ← lexer.lex pattern
  let tree ← parser.parse tokens
  let rule ← MonadExcept.ofExcept (reducer.apply tree)
  return ⟨rule⟩

end Pattern

end GrammarKit
