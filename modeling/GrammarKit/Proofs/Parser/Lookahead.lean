import GrammarKit.Parser

/-!
This module contains a check of rules for parsers: the kind of the next token alone tells which
alternative to take, and whether to go on with a repetition.
-/

namespace GrammarKit

namespace Parser

mutual

/-- The rule may derive no tokens at all. Named rules are taken not to. -/
def nullable : Rule String → Bool
  | .atom _ => false
  | .ref _ => false
  | .seq rules => nullableSeq rules
  | .alt rules => nullableAlt rules
  | .star _ => true
  | .plus rule => nullable rule
  | .opt _ => true
  | .untilEmpty _ => true

def nullableSeq : List (Rule String) → Bool
  | [] => true
  | rule :: rules => nullable rule && nullableSeq rules

def nullableAlt : List (Rule String) → Bool
  | [] => false
  | rule :: rules => nullable rule || nullableAlt rules

end

mutual

/-- What can stand first in a derivation, given that for kinds and for named rules. -/
def heads (atom ref : String → List String) : Rule String → List String
  | .atom kind => atom kind
  | .ref name => ref name
  | .seq rules => headsSeq atom ref rules
  | .alt rules => headsAlt atom ref rules
  | .star rule => heads atom ref rule
  | .plus rule => heads atom ref rule
  | .opt rule => heads atom ref rule
  | .untilEmpty rule => heads atom ref rule

def headsSeq (atom ref : String → List String) : List (Rule String) → List String
  | [] => []
  | rule :: rules =>
    heads atom ref rule ++ if nullable rule then headsSeq atom ref rules else []

def headsAlt (atom ref : String → List String) : List (Rule String) → List String
  | [] => []
  | rule :: rules => heads atom ref rule ++ headsAlt atom ref rules

end

/--
What is known about named rules: the kinds of tokens that can stand first in them and behind them,
and an order in which they call each other.
-/
structure Lookahead where
  first : String → List String
  follow : String → List String
  rank : String → Nat

namespace Lookahead

variable (look : Lookahead)

def firsts : Rule String → List String :=
  heads (fun kind => [kind]) look.first

def firstsSeq : List (Rule String) → List String :=
  headsSeq (fun kind => [kind]) look.first

def firstsAlt : List (Rule String) → List String :=
  headsAlt (fun kind => [kind]) look.first

def disjoint (kinds others : List String) : Bool :=
  kinds.all fun kind => !others.contains kind

mutual

/-- One token tells how to go on, when tokens of the kinds in `behind` can follow the rule. -/
def predicts (behind : List String) : Rule String → Bool
  | .atom _ => true
  | .ref name => behind.all (look.follow name).contains
  | .seq rules => predictsSeq behind rules
  | .alt rules => predictsAlt behind rules
  | .star rule =>
    !nullable rule && disjoint (look.firsts rule) behind &&
      predicts (look.firsts rule ++ behind) rule
  | .plus rule =>
    !nullable rule && disjoint (look.firsts rule) behind &&
      predicts (look.firsts rule ++ behind) rule
  | .opt rule => !nullable rule && disjoint (look.firsts rule) behind && predicts behind rule
  | .untilEmpty _ => false

def predictsSeq (behind : List String) : List (Rule String) → Bool
  | [] => true
  | rule :: rules =>
    predicts (look.firstsSeq rules ++ if nullableSeq rules then behind else []) rule &&
      predictsSeq behind rules

def predictsAlt (behind : List String) : List (Rule String) → Bool
  | [] => true
  | rule :: rules =>
    !nullable rule && disjoint (look.firsts rule) (look.firstsAlt rules) && predicts behind rule &&
      predictsAlt behind rules

end

def checkRule (name : String) (body : Rule String) : Bool :=
  !nullable body && (look.firsts body).all (look.first name).contains &&
    look.predicts (look.follow name) body &&
    (heads (fun _ => []) (fun other => [other]) body).all fun other =>
      look.rank other < look.rank name

def check (rules : Table (Rule String)) : Bool :=
  rules.entries.all fun entry => look.checkRule entry.1 entry.2

end Lookahead

end Parser

end GrammarKit
