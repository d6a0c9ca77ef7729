import GrammarKit.Number.Decimal
import GrammarKit.Text.Dump

/-!
This module contains `Expr`, the expressions of a small Lisp.
-/

namespace GrammarKit

namespace Lisp

inductive Expr where
  | int (n : Int64)
  | str (text : String)
  | ref (name : String)
  | call (func : Expr) (args : List Expr)

namespace Expr

mutual

def render : Expr → String
  | .int n => Decimal.render n
  | .str text => "'" ++ text ++ "'"
  | .ref name => name
  | .call func args => "(" ++ func.render ++ renderArgs args ++ ")"

def renderArgs : List Expr → String
  | [] => ""
  | arg :: rest => " " ++ arg.render ++ renderArgs rest

end

mutual

def dump : Expr → String
  | .int n => Dump.call "Int" [Decimal.render n]
  | .str text => Dump.call "Str" [quoted text]
  | .ref name => Dump.call "Ref" [quoted name]
  | .call func args =>
    Dump.record "Call" [("func", func.dump), ("args", Dump.list (dumpArgs args))]

def dumpArgs : List Expr → List String
  | [] => []
  | arg :: rest => arg.dump :: dumpArgs rest

end

end Expr

end Lisp

end GrammarKit
