import GrammarKit.Lisp.Expr
import GrammarKit.Token

/-!
This module contains the tokens of expressions, each as its kind and its value.
-/

namespace GrammarKit

namespace Lisp

/-- The text is that integer in decimal, with a minus sign if it has one. -/
inductive Numeral : List Char → Int → Prop where
  | plain {digits : List Char} (hne : digits ≠ []) (h : ∀ c ∈ digits, Decimal.isDigit c = true) :
      Numeral digits (Decimal.value digits)
  | negative {digits : List Char} (hne : digits ≠ [])
      (h : ∀ c ∈ digits, Decimal.isDigit c = true) :
      Numeral ('-' :: digits) (-(Decimal.value digits : Int))

mutual

inductive Spelled : Expr → List (String × String) → Prop where
  | int {n : Int64} {text : String} (h : Numeral text.toList n.toInt) :
      Spelled (.int n) [("int", text)]
  | str {text : String} : Spelled (.str text) [("str", "'" ++ text ++ "'")]
  | ref {name : String} : Spelled (.ref name) [("id", name)]
  | call {func : Expr} {args : List Expr} {words others : List (String × String)}
      (hfunc : Spelled func words) (hargs : SpelledAll args others) :
      Spelled (.call func args) ([("(", "(")] ++ (words ++ (others ++ [(")", ")")])))

inductive SpelledAll : List Expr → List (String × String) → Prop where
  | nil : SpelledAll [] []
  | cons {e : Expr} {es : List Expr} {words others : List (String × String)}
      (hfirst : Spelled e words) (hothers : SpelledAll es others) :
      SpelledAll (e :: es) (words ++ others)

end

mutual

/-- The tokens of an expression, where integers may be of any size. -/
inductive Shaped : List (String × String) → Prop where
  | int {v : Int} {text : String} (h : Numeral text.toList v) : Shaped [("int", text)]
  | str {text : String} : Shaped [("str", "'" ++ text ++ "'")]
  | ref {name : String} : Shaped [("id", name)]
  | call {words others : List (String × String)} (hfunc : Shaped words)
      (hargs : ShapedAll others) : Shaped ([("(", "(")] ++ (words ++ (others ++ [(")", ")")])))

inductive ShapedAll : List (String × String) → Prop where
  | nil : ShapedAll []
  | cons {words others : List (String × String)} (hfirst : Shaped words)
      (hothers : ShapedAll others) : ShapedAll (words ++ others)

end

def OutOfRange (t : Token) : Prop :=
  t.kind = "int" ∧ ∃ v, Numeral t.value.toList v ∧ ¬ Checked.InRange v

end Lisp

end GrammarKit
