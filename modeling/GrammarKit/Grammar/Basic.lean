/-!
This module contains `Grammar`, the statements that define a lexer and a parser: rules for tokens,
and productions.
-/

namespace GrammarKit

inductive Rhs where
  /-- Another production, or a token by the name of its rule. -/
  | identifier (name : String)
  | terminal (text : String)
  | optional (inner : Rhs)
  | repetition (inner : Rhs)
  | repetition1 (inner : Rhs)
  | alternation (left right : Rhs)
  | concatenation (left right : Rhs)
  deriving DecidableEq, Repr

/--
A rule for tokens. Silent ones match text without giving tokens.
-/
structure TokenDef where
  name : String
  pattern : String
  silent : Bool := false
  deriving DecidableEq, Repr

structure Production where
  name : String
  rhs : Rhs
  deriving DecidableEq, Repr

inductive Statement where
  | token (rule : TokenDef)
  | production (rule : Production)
  deriving DecidableEq, Repr

/--
Statements in order. The first production is the root.
-/
structure Grammar where
  statements : List Statement
  deriving DecidableEq, Repr

def Rhs.terminals : Rhs → List String
  | .identifier _ => []
  | .terminal text => [text]
  | .optional inner => inner.terminals
  | .repetition inner => inner.terminals
  | .repetition1 inner => inner.terminals
  | .alternation left right => left.terminals ++ right.terminals
  | .concatenation left right => left.terminals ++ right.terminals

def Statement.token? : Statement → Option TokenDef
  | .token rule => some rule
  | .production _ => none

def Statement.production? : Statement → Option Production
  | .token _ => none
  | .production rule => some rule

namespace Grammar

def tokenDefs (g : Grammar) : List TokenDef :=
  g.statements.filterMap Statement.token?

def productions (g : Grammar) : List Production :=
  g.statements.filterMap Statement.production?

end Grammar

end GrammarKit
