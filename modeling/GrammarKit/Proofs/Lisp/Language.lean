import GrammarKit.Lisp.Reader
import GrammarKit.Proofs.Language
import GrammarKit.Proofs.Pattern.Exactness

/-!
This module contains the language that the grammar of expressions defines.
-/

namespace GrammarKit

namespace Lisp

open Pattern (Alternation Sequences Sequence Items Item Operand char)

def grammar : Grammar where
  statements := [
    .token ⟨"ws", "( |\\n|\\t)+", true⟩,
    .token ⟨"int", "-?[0-9]+", false⟩,
    .token ⟨"str", "'(^')*'", false⟩,
    .token ⟨"id", "([a-z]|[A-Z]|_)([a-z]|[A-Z]|[0-9]|_)*", false⟩,
    .production ⟨"expr", .alternation (.identifier "call") (.alternation (.identifier "int")
      (.alternation (.identifier "str") (.identifier "id")))⟩,
    .production ⟨"call", .concatenation (.terminal "(") (.concatenation (.identifier "expr")
      (.concatenation (.repetition (.identifier "expr")) (.terminal ")")))⟩]

theorem read_grammarText : Grammar.read grammarText = .ok grammar := by decide +kernel

section Regexes

def lower : Rule Matcher := .atom (.range 'a' 'z')

def upper : Rule Matcher := .atom (.range 'A' 'Z')

def digit : Rule Matcher := .atom (.range '0' '9')

def space : Rule Matcher := .plus (.alt [char ' ', char '\n', char '\t'])

def number : Rule Matcher := .seq [.opt (char '-'), .plus digit]

def quotation : Rule Matcher := .seq [char '\'', .star (.atom (.not (char '\''))), char '\'']

def identifier : Rule Matcher :=
  .seq [.alt [lower, upper, char '_'], .star (.alt [lower, upper, digit, char '_'])]

theorem operand_sequence {s : List Char} {rule : Rule Matcher} (h : Operand s rule)
    : Sequence s rule :=
  .of (.last (.plain h))

theorem operand_char {c : Char} (h : c ∉ Pattern.operatorChars) : Operand [c] (char c) :=
  .char (.inl h)

theorem operand_digit : Operand ['[', '0', '-', '9', ']'] digit := .range (by decide) (by decide)

theorem operand_lower : Operand ['[', 'a', '-', 'z', ']'] lower := .range (by decide) (by decide)

theorem operand_upper : Operand ['[', 'A', '-', 'Z', ']'] upper := .range (by decide) (by decide)

theorem load_space : (Pattern.load "( |\\n|\\t)+").run = some (.ok ⟨space⟩) := by
  have hblank : Sequence [' '] (char ' ') := operand_sequence (operand_char (by decide))
  have hchoices : Alternation [' ', '|', '\\', 'n', '|', '\\', 't']
      (.alt [char ' ', char '\n', char '\t']) :=
    .of (.more hblank (.more (operand_sequence .newline) (.last (operand_sequence .tab))))
  apply Pattern.load_of_alternation
  exact .of (.last (.of (.last (.plus (.group hchoices)))))

theorem load_number : (Pattern.load "-?[0-9]+").run = some (.ok ⟨number⟩) := by
  have hsign : Item ['-', '?'] (.opt (char '-')) := .opt (.char (.inr rfl))
  have hdigits : Item ['[', '0', '-', '9', ']', '+'] (.plus digit) := .plus operand_digit
  apply Pattern.load_of_alternation
  exact .of (.last (.of (.more hsign (.last hdigits))))

theorem load_quotation : (Pattern.load "'(^')*'").run = some (.ok ⟨quotation⟩) := by
  have hquote : Operand ['\''] (char '\'') := operand_char (by decide)
  have hother : Alternation ['^', '\''] (.atom (.not (char '\''))) :=
    .of (.last (operand_sequence (.negation hquote)))
  apply Pattern.load_of_alternation
  exact .of (.last (.of (.more (.plain hquote) (.more (.star (.group hother))
    (.last (.plain hquote))))))

theorem load_identifier
    : (Pattern.load "([a-z]|[A-Z]|_)([a-z]|[A-Z]|[0-9]|_)*").run = some (.ok ⟨identifier⟩) := by
  have hunderscore : Sequence ['_'] (char '_') := operand_sequence (operand_char (by decide))
  have hstart : Alternation "[a-z]|[A-Z]|_".toList (.alt [lower, upper, char '_']) :=
    .of (.more (operand_sequence operand_lower) (.more (operand_sequence operand_upper)
      (.last hunderscore)))
  have hpart : Alternation "[a-z]|[A-Z]|[0-9]|_".toList (.alt [lower, upper, digit, char '_']) :=
    .of (.more (operand_sequence operand_lower) (.more (operand_sequence operand_upper)
      (.more (operand_sequence operand_digit) (.last hunderscore))))
  apply Pattern.load_of_alternation
  exact .of (.last (.of (.more (.plain (.group hstart)) (.last (.star (.group hpart))))))

end Regexes

def lexerEntries : List (String × TokenRule) := [
  ("int", ⟨⟨number⟩, false⟩), ("str", ⟨⟨quotation⟩, false⟩), ("id", ⟨⟨identifier⟩, false⟩),
  ("(", ⟨Regex.literal "(", false⟩), (")", ⟨Regex.literal ")", false⟩),
  ("ws", ⟨⟨space⟩, true⟩)]

def lexer : Lexer where
  rules := .ofList lexerEntries
  root_free := by simp [lexerEntries, Table.ofList, Table.get?_set, Lexer.rootName]

def exprRules : List (Rule String) :=
  [.ref "call", .atom "int", .atom "str", .atom "id"]

def callRules : List (Rule String) :=
  [.atom "(", .ref "expr", .star (.ref "expr"), .atom ")"]

def productions : List (String × Rule String) :=
  [("expr", .alt exprRules), ("call", .seq callRules)]

def parser : Parser where
  rules := .ofList productions
  root := "expr"
  root_known := by decide

theorem language_run : language.run = some (.ok ⟨lexer, parser⟩) := by
  have hdeclared : (Language.tokenRules grammar.tokenDefs).run = some (.ok
      [("ws", ⟨⟨space⟩, true⟩), ("int", ⟨⟨number⟩, false⟩), ("str", ⟨⟨quotation⟩, false⟩),
        ("id", ⟨⟨identifier⟩, false⟩)]) := by
    refine Language.tokenRules_cons ?_ (Language.tokenRules_cons ?_ (Language.tokenRules_cons ?_
      (Language.tokenRules_cons ?_ Language.tokenRules_nil)))
    · exact load_space
    · exact load_number
    · exact load_quotation
    · exact load_identifier
  exact Language.load_eq_ok.mpr ⟨grammar, _, read_grammarText, hdeclared, rfl⟩

end Lisp

end GrammarKit
