import GrammarKit.Lisp.Eval
import Mathlib.Data.List.Induction

/-!
This module contains substitution. A name that is set to an integer or a text might as well be
written out: expressions come to the same without the name, through any number of scopes.
-/

namespace GrammarKit

namespace Lisp

/-- The values that an expression can write out. -/
inductive Literal where
  | int (n : Int64)
  | str (text : String)

namespace Literal

def value : Literal → Value
  | .int n => .int n
  | .str text => .str text

def expr : Literal → Expr
  | .int n => .int n
  | .str text => .str text

theorem eval_expr (scope : Scope) (l : Literal) : l.expr.eval scope = .ok l.value := by
  cases l with
  | int n => rw [expr, value, Expr.eval]
  | str text => rw [expr, value, Expr.eval]

end Literal

/-- Names and what they are set to, one after the other. -/
abbrev Bindings : Type := List (String × Literal)

namespace Scope

variable {scope : Scope} {bindings : Bindings} {name : String}

def setAll (scope : Scope) (bindings : Bindings) : Scope :=
  bindings.foldl (fun scope binding => scope.set binding.1 binding.2.value) scope

/-- A scope within a scope, where names have been set. -/
def child (scope : Scope) (bindings : Bindings) : Scope :=
  scope.push.setAll bindings

theorem get?_set (scope : Scope) (name other : String) (value : Value)
    : (scope.set name value).get? other = if other = name then some value else scope.get? other := by
  simp only [get?, set, List.findSome?_cons, Table.get?_set]
  by_cases h : other = name
  · simp only [if_pos h]
  · simp only [if_neg h]

end Scope

namespace Expr

mutual

/-- Write out the names that are bound. -/
def replace (bound : String → Option Literal) : Expr → Expr
  | .int n => .int n
  | .str text => .str text
  | .ref name =>
    match bound name with
    | none => .ref name
    | some l => l.expr
  | .call func args => .call (func.replace bound) (replaceArgs bound args)

def replaceArgs (bound : String → Option Literal) : List Expr → List Expr
  | [] => []
  | arg :: rest => arg.replace bound :: replaceArgs bound rest

end

section Replace

variable {inner outer : Scope} {bound : String → Option Literal}

theorem eval_ref_replace {name : String}
    (hget : inner.get? name = ((bound name).map Literal.value).or (outer.get? name))
    : (Expr.ref name).eval inner = ((Expr.ref name).replace bound).eval outer := by
  rw [eval, replace, hget]
  cases bound name with
  | none => rw [Option.map_none, Option.none_or, eval]
  | some l => rw [Option.map_some, Option.some_or, Literal.eval_expr]

mutual

theorem eval_replace
    (hget : ∀ name, inner.get? name = ((bound name).map Literal.value).or (outer.get? name))
    : ∀ e : Expr, e.eval inner = (e.replace bound).eval outer
  | .int n => by rw [replace, eval, eval]
  | .str text => by rw [replace, eval, eval]
  | .ref name => eval_ref_replace (hget name)
  | .call func args => by
    rw [replace, eval, eval, eval_replace hget func, evalArgs_replace hget args]

theorem evalArgs_replace
    (hget : ∀ name, inner.get? name = ((bound name).map Literal.value).or (outer.get? name))
    : ∀ es : List Expr, evalArgs inner es = evalArgs outer (replaceArgs bound es)
  | [] => by rw [replaceArgs, evalArgs, evalArgs]
  | e :: es => by
    rw [replaceArgs, evalArgs, evalArgs, eval_replace hget e, evalArgs_replace hget es]

end

end Replace

end Expr

end Lisp

end GrammarKit
