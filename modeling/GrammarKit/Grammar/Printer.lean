import GrammarKit.Grammar.Basic

/-!
This module contains the printer of grammars. Both operators nest to the right and alternation binds
loosest, so an operand is put in parentheses where it would be read otherwise.
-/

namespace GrammarKit

namespace Rhs

def quote (text : String) : String :=
  if '"' ∈ text.toList then "'" ++ text ++ "'" else "\"" ++ text ++ "\""

def grouped (needed : Bool) (operand : String) : String :=
  if needed then "( " ++ operand ++ " )" else operand

def isAlternation : Rhs → Bool
  | .alternation _ _ => true
  | _ => false

def isConcatenation : Rhs → Bool
  | .concatenation _ _ => true
  | _ => false

def render : Rhs → String
  | .identifier name => name
  | .terminal text => quote text
  | .optional inner => "[ " ++ inner.render ++ " ]"
  | .repetition inner => "\x7b " ++ inner.render ++ " \x7d"
  | .repetition1 inner => "\x7b " ++ inner.render ++ " \x7d+"
  | .alternation left right => grouped left.isAlternation left.render ++ " | " ++ right.render
  | .concatenation left right =>
    grouped (left.isAlternation || left.isConcatenation) left.render ++ " , " ++
      grouped right.isAlternation right.render

end Rhs

def Statement.render : Statement → String
  | .token rule =>
    rule.name ++ (if rule.silent then " ~= " else " = ") ++ Rhs.quote rule.pattern ++ " ;"
  | .production rule => rule.name ++ " -> " ++ rule.rhs.render ++ " ;"

def Grammar.render (g : Grammar) : String :=
  String.join (g.statements.map fun s => s.render ++ "\n")

end GrammarKit
