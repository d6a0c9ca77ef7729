import GrammarKit.Language
import GrammarKit.Lisp.Eval

/-!
This module contains the reading of expressions, by means of a grammar.
-/

namespace GrammarKit

namespace Lisp

def grammarText : String :=
  "ws ~= \"( |\\n|\\t)+\" ;\n" ++
  "int = \"-?[0-9]+\" ;\n" ++
  "str = \"'(^')*'\" ;\n" ++
  "id = \"([a-z]|[A-Z]|_)([a-z]|[A-Z]|[0-9]|_)*\" ;\n" ++
  "\n" ++
  "expr -> call | int | str | id ;\n" ++
  "call -> \"(\" , expr , \x7b expr \x7d , \")\" ;\n"

def language : Eventually LanguageError Language :=
  Language.load grammarText

inductive Error where
  | language (e : LanguageError)
  | intOutOfRange (loc : Location) (text : String)
  | reduction (e : Failure)
  | eval (e : EvalError)

def Error.chain : Error → List String
  | .language e => [e.message]
  | .intOutOfRange loc text => ["int literal out of range at " ++ loc.render ++ ": " ++ text]
  | .reduction e => [e.render]
  | .eval e => e.chain

def unquote (value : String) : Option String :=
  match value.toList with
  | '\'' :: rest =>
    if rest.getLast? = some '\'' then some (String.ofList rest.dropLast) else none
  | _ => none

def call (values : List Expr) : Option Expr :=
  match values with
  | [] => none
  | func :: args => some (.call func args)

def reducer : Reducer Expr where
  rules := [
    .terminal "int" fun value => (Decimal.read? value).map .int,
    .terminal "str" fun value => (unquote value).map .str,
    .terminal "id" fun value => some (.ref value),
    .variadic "call" call]
  dump := Expr.dump

def outOfRange? (n : Node) : Option Token :=
  n.tokens.find? fun t => t.kind == "int" && (Decimal.read? t.value).isNone

def ofNode (n : Node) : Except Error Expr :=
  match outOfRange? n with
  | some t => .error (.intOutOfRange t.location t.value)
  | none => (reducer.apply n).mapError .reduction

def parse (text : String) : Eventually Error Expr := do
  let language ← language.adapt .language
  let tree ← (language.parse text).adapt .language
  MonadExcept.ofExcept (ofNode tree)

def eval (scope : Scope) (text : String) : Eventually Error Value := do
  let e ← parse text
  MonadExcept.ofExcept ((e.eval scope).mapError .eval)

end Lisp

end GrammarKit
