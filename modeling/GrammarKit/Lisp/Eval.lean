import GrammarKit.Lisp.Expr
import GrammarKit.Lisp.Value
import GrammarKit.Table

/-!
This module contains scopes, and the evaluation of expressions in them.
-/

namespace GrammarKit

namespace Lisp

/--
Values by name, innermost first. A scope knows those of all scopes around it.
-/
structure Scope where
  values : Table Value := ∅
  outer : List (Table Value) := []

namespace Scope

def push (scope : Scope) : Scope :=
  ⟨∅, scope.values :: scope.outer⟩

/-- The scope around a scope; the outermost one stays. -/
def pop (scope : Scope) : Scope :=
  match scope.outer with
  | [] => scope
  | values :: outer => ⟨values, outer⟩

def get? (scope : Scope) (name : String) : Option Value :=
  (scope.values :: scope.outer).findSome? fun values => values.get? name

def contains (scope : Scope) (name : String) : Bool :=
  (scope.get? name).isSome

def set (scope : Scope) (name : String) (value : Value) : Scope :=
  { scope with values := scope.values.set name value }

def builtins : Scope :=
  ⟨.ofList (Builtin.all.map fun f => (f.name, .builtin f)), []⟩

end Scope

namespace Expr

mutual

/--
The value of an expression. The function of a call comes first, then its arguments in order.
-/
def eval (scope : Scope) : Expr → Except EvalError Value
  | .int n => .ok (.int n)
  | .str text => .ok (.str text)
  | .ref name =>
    match scope.get? name with
    | none => .error (.unknownVariable name)
    | some value => .ok value
  | .call func args => do
    let func ← func.eval scope
    let args ← evalArgs scope args
    func.apply args

def evalArgs (scope : Scope) : List Expr → Except EvalError (List Value)
  | [] => .ok []
  | arg :: rest => do
    let value ← arg.eval scope
    let values ← evalArgs scope rest
    return value :: values

end

end Expr

end Lisp

end GrammarKit
