import GrammarKit.Number.Decimal

/-!
This module contains `Value`, what expressions evaluate to, and the functions that are built in.
-/

namespace GrammarKit

namespace Lisp

inductive Builtin where
  | add
  | sub
  | mul
  | concat
  deriving DecidableEq, Repr

inductive Value where
  | int (n : Int64)
  | str (text : String)
  | builtin (f : Builtin)
  deriving DecidableEq

def Builtin.name : Builtin → String
  | .add => "add"
  | .sub => "sub"
  | .mul => "mul"
  | .concat => "concat"

def Builtin.all : List Builtin := [.add, .sub, .mul, .concat]

def Value.render : Value → String
  | .int n => Decimal.render n
  | .str text => "'" ++ text ++ "'"
  | .builtin f => "<builtin " ++ f.name ++ ">"

inductive EvalError where
  | unknownVariable (name : String)
  | intNotCallable
  | strNotCallable
  | expectedInt (value : Value)
  | expectedStr (value : Value)
  | expectedArgument
  | overflow
  | inCall (f : Builtin) (cause : EvalError)
  deriving DecidableEq

namespace EvalError

def message : EvalError → String
  | .unknownVariable name => "unknown var '" ++ name ++ "'"
  | .intNotCallable => "int not callable"
  | .strNotCallable => "str not callable"
  | .expectedInt value => "expected int, got " ++ value.render
  | .expectedStr value => "expected str, got " ++ value.render
  | .expectedArgument => "expected at least one argument"
  | .overflow => "overflow"
  | .inCall f _ => "failed to call '" ++ f.name ++ "'"

def chain : EvalError → List String
  | .inCall f cause => (EvalError.inCall f cause).message :: cause.chain
  | e => [e.message]

end EvalError

namespace Builtin

def ints : List Value → Except EvalError (List Int64)
  | [] => .ok []
  | .int n :: rest => do
    let others ← ints rest
    return n :: others
  | value :: _ => .error (.expectedInt value)

def strs : List Value → Except EvalError (List String)
  | [] => .ok []
  | .str text :: rest => do
    let others ← strs rest
    return text :: others
  | value :: _ => .error (.expectedStr value)

def checked (n : Option Int64) : Except EvalError Int64 :=
  match n with
  | none => .error .overflow
  | some n => .ok n

def accumulate (op : Int64 → Int64 → Option Int64) : Int64 → List Int64 → Except EvalError Int64
  | acc, [] => .ok acc
  | acc, n :: rest => do
    let acc ← checked (op acc n)
    accumulate op acc rest

/-- Take all further integers from the first one; a single integer is negated. -/
def difference : List Int64 → Except EvalError Int64
  | [] => .error .expectedArgument
  | [n] => checked (Checked.neg n)
  | n :: rest => accumulate Checked.sub n rest

def run (f : Builtin) (args : List Value) : Except EvalError Value :=
  match f with
  | .add => return .int (← accumulate Checked.add 0 (← ints args))
  | .sub => return .int (← difference (← ints args))
  | .mul => return .int (← accumulate Checked.mul 1 (← ints args))
  | .concat => return .str (String.join (← strs args))

end Builtin

def Value.apply (f : Value) (args : List Value) : Except EvalError Value :=
  match f with
  | .int _ => .error .intNotCallable
  | .str _ => .error .strNotCallable
  | .builtin f => (f.run args).mapError (.inCall f)

end Lisp

end GrammarKit
