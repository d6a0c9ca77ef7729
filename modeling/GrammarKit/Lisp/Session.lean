import GrammarKit.Lisp.Reader

/-!
This module contains sessions, in which expressions are evaluated one after the other in scopes that
are filled along the way.
-/

namespace GrammarKit

namespace Lisp

namespace Session

inductive Step where
  | parse (text : String)
  | eval (text : String)
  /-- Evaluate in a scope of its own, which knows the functions only. -/
  | evalApart (text : String)
  | letValue (name text : String)
  | set (name : String) (value : Value)
  | get (name : String)
  | contains (name : String)
  | push
  | pop
  | apply (func : Value) (args : List Value)
  | equal (a b : Value)

inductive Answer where
  | expr (result : Except Error Expr)
  | value (result : Except Error Value)
  | found (value : Option Value)
  | truth (b : Bool)
  | done

/-- Keep a value under a name; errors leave the scope as it is. -/
def keep (scope : Scope) (name : String) : Except Error Value → Scope
  | .ok value => scope.set name value
  | .error _ => scope

def step (scope : Scope) : Step → Option (Answer × Scope)
  | .parse text => do return (.expr (← (Lisp.parse text).run), scope)
  | .eval text => do return (.value (← (Lisp.eval scope text).run), scope)
  | .evalApart text => do return (.value (← (Lisp.eval .builtins text).run), scope)
  | .letValue name text => do
    let result ← (Lisp.eval scope text).run
    return (.value result, keep scope name result)
  | .set name value => some (.done, scope.set name value)
  | .get name => some (.found (scope.get? name), scope)
  | .contains name => some (.truth (scope.contains name), scope)
  | .push => some (.done, scope.push)
  | .pop => some (.done, scope.pop)
  | .apply func args => some (.value ((func.apply args).mapError .eval), scope)
  | .equal a b => some (.truth (a = b), scope)

def run : Scope → List Step → Option (List Answer)
  | _, [] => some []
  | scope, s :: rest => do
    let (answer, next) ← step scope s
    let others ← run next rest
    return answer :: others

end Session

end Lisp

end GrammarKit
