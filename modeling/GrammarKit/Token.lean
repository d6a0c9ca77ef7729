import GrammarKit.Text.Location
import GrammarKit.Text.Dump

/-!
This module contains `Token`, a classified part of a text.
-/

namespace GrammarKit

/--
A part of a text, where it starts, and the lexer rule it belongs to. Tokens of silent rules are not
visible.
-/
structure Token where
  kind : String
  value : String
  location : Location
  visible : Bool := true
  deriving DecidableEq, Repr

namespace Token

def render (t : Token) : String :=
  Dump.call t.kind [quoted t.value]

def dump (t : Token) : String :=
  Dump.record "Token" [
    ("value", quoted t.value),
    ("location", Dump.record "Location" [
      ("line", s!"{t.location.line}"), ("col", s!"{t.location.col}")]),
    ("rule_name", quoted t.kind),
    ("include", if t.visible then "true" else "false")]

end Token

end GrammarKit
