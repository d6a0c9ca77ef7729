import GrammarKit.Number.Decimal
import GrammarKit.Reduction.Basic

/-!
This module contains tagged values, and reductions to them that are given as data.
-/

namespace GrammarKit

inductive Tagged where
  | int (n : Int64)
  | str (text : String)
  | list (tag : String) (items : List Tagged)

namespace Tagged

mutual

def dump : Tagged → String
  | .int n => Dump.call "Int" [Decimal.render n]
  | .str text => Dump.call "Str" [quoted text]
  | .list tag items => Dump.call "List" [quoted tag, Dump.list (dumpAll items)]

def dumpAll : List Tagged → List String
  | [] => []
  | value :: rest => value.dump :: dumpAll rest

end

/--
The sum of integers, from left to right; none, where it leaves the range or a value is no integer.
-/
def sum (values : List Tagged) : Option Tagged :=
  go 0 values
where
  go (total : Int64) : List Tagged → Option Tagged
    | [] => some (.int total)
    | .int n :: rest => (Checked.add total n).bind fun total => go total rest
    | _ :: _ => none

inductive Recipe where
  | int (name : String)
  | str (name : String)
  | unary (name tag : String)
  /-- Two values in opposite order. -/
  | binary (name tag : String)
  | variadic (name tag : String)
  | nary (name tag : String) (count : Nat)
  | sum (name : String)
  | descendants (name child tag : String)
  | ofSize (tag : String) (size : Nat)
  | named (name : String) (recipe : Recipe)

def Recipe.toReduction : Recipe → Reduction Tagged
  | .int name => .terminal name fun text => (Decimal.read? text).map .int
  | .str name => .terminal name fun text => some (.str text)
  | .unary name tag => .unary name fun a => some (.list tag [a])
  | .binary name tag => .binary name fun a b => some (.list tag [b, a])
  | .variadic name tag => .variadic name fun values => some (.list tag values)
  | .nary name tag count => .nary name count fun values => some (.list tag values)
  | .sum name => .variadic name Tagged.sum
  | .descendants name child tag =>
    .descendants name child fun nodes => some (.list tag (nodes.map fun n => .str n.render))
  | .ofSize tag size => fun n values => if n.size = size then some (.list tag values) else none
  | .named name recipe => .named name recipe.toReduction

def reducer (recipes : List Recipe) : Reducer Tagged :=
  ⟨recipes.map Recipe.toReduction, dump⟩

end Tagged

end GrammarKit
