import GrammarKit.Grammar.Reader
import GrammarKit.Pattern

/-!
This module contains `Language`, the lexer and the parser that a grammar defines.
-/

namespace GrammarKit

inductive LanguageError where
  | unreadable (e : Reader.Error)
  | unknownIdentifier (name : String)
  | noProductions
  | pattern (text : String) (e : Failure)
  | processing (e : Failure)
  deriving DecidableEq, Repr

def LanguageError.message : LanguageError → String
  | .unreadable e => "failed to parse: " ++ e.render
  | .unknownIdentifier name => "unknown identifier '" ++ name ++ "'"
  | .noProductions => "grammar has no productions"
  | .pattern text e => "invalid pattern " ++ quoted text ++ ": " ++ e.render
  | .processing e => e.render

structure Language where
  lexer : Lexer
  parser : Parser

namespace Language

/-- The members of a chain of alternatives, given its last operand and the rule for that. -/
def alternatives (last : Rhs) (rule : Rule String) : List (Rule String) :=
  match last, rule with
  | .alternation _ _, .alt rules => rules
  | _, rule => [rule]

/-- The members of a chain in a row, given its last operand and the rule for that. -/
def members (last : Rhs) (rule : Rule String) : List (Rule String) :=
  match last, rule with
  | .concatenation _ _, .seq rules => rules
  | _, rule => [rule]

/--
The rule for a right-hand side. Productions hide tokens of the same name; a chain of one operator
becomes one list.
-/
def ruleOf (productions tokens : List String) : Rhs → Except LanguageError (Rule String)
  | .identifier name =>
    if name ∈ productions then
      .ok (.ref name)
    else if name ∈ tokens then
      .ok (.atom name)
    else
      .error (.unknownIdentifier name)
  | .terminal text => .ok (.atom text)
  | .optional inner => return .opt (← ruleOf productions tokens inner)
  | .repetition inner => return .star (← ruleOf productions tokens inner)
  | .repetition1 inner => return .plus (← ruleOf productions tokens inner)
  | .alternation left right => do
    let first ← ruleOf productions tokens left
    let rest ← ruleOf productions tokens right
    return .alt (first :: alternatives right rest)
  | .concatenation left right => do
    let first ← ruleOf productions tokens left
    let rest ← ruleOf productions tokens right
    return .seq (first :: members right rest)

def tokenRules : List TokenDef → Eventually LanguageError (List (String × TokenRule))
  | [] => return []
  | rule :: rest => do
    let regex ← (Pattern.load rule.pattern).adapt (.pattern rule.pattern)
    let others ← tokenRules rest
    return (rule.name, ⟨regex, rule.silent⟩) :: others

/-- The terminals of a grammar that no token rule is named after, each once. -/
def implicitTokens (g : Grammar) : List String :=
  let declared := g.tokenDefs.map TokenDef.name
  (g.productions.flatMap fun p => p.rhs.terminals).eraseDups.filter fun text =>
    !declared.contains text

def productionRules (productions tokens : List String) :
    List Production → Table (Rule String) → Except LanguageError (Table (Rule String))
  | [], table => .ok table
  | p :: rest, table => do
    let rule ← ruleOf productions tokens p.rhs
    let table ← (table.insert p.name rule).mapError .processing
    productionRules productions tokens rest table

def lexerRules (g : Grammar) (declared : List (String × TokenRule)) :
    List (String × TokenRule) :=
  declared.filter (fun entry => !entry.2.silent) ++
    (implicitTokens g).map (fun text => (text, ⟨Regex.literal text, false⟩)) ++
    declared.filter (fun entry => entry.2.silent)

def assemble (g : Grammar) (declared : List (String × TokenRule)) :
    Except LanguageError Language := do
  let names := g.productions.map Production.name
  let tokens := declared.map Prod.fst ++ implicitTokens g
  let rules ← productionRules names tokens g.productions ∅
  match names with
  | [] => .error .noProductions
  | root :: _ =>
    let lexer ← (Lexer.ofRules (lexerRules g declared)).mapError .processing
    let parser ← (Parser.ofTable rules root).mapError .processing
    return ⟨lexer, parser⟩

def ofGrammar (g : Grammar) : Eventually LanguageError Language := do
  let declared ← tokenRules g.tokenDefs
  MonadExcept.ofExcept (assemble g declared)

def load (text : String) : Eventually LanguageError Language := do
  let g ← MonadExcept.ofExcept ((Grammar.read text).mapError .unreadable)
  ofGrammar g

def lex (language : Language) (text : String) : Eventually LanguageError (List Token) :=
  (language.lexer.lex text).adapt .processing

def parse (language : Language) (text : String) : Eventually LanguageError Node := do
  let tokens ← language.lex text
  (language.parser.parse tokens).adapt .processing

end Language

end GrammarKit
