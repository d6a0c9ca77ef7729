import GrammarKit.Failure
import GrammarKit.Node

/-!
This module contains `Reducer`, which turns a tree into values from the leaves up. A node is claimed
by the one reduction that makes a value of it; nodes that none claims hand the values of their
children on.
-/

namespace GrammarKit

/--
An attempt to make a value of a node and the values of its children.
-/
def Reduction (α : Type) : Type :=
  Node → List α → Option α

namespace Reduction

variable {α : Type}

def named (name : String) (r : Reduction α) : Reduction α :=
  fun n values => if n.name = some name then r n values else none

def terminal (name : String) (f : String → Option α) : Reduction α :=
  named name fun n _ => n.token.bind fun t => f t.value

def variadic (name : String) (f : List α → Option α) : Reduction α :=
  named name fun _ values => f values

def nary (name : String) (count : Nat) (f : List α → Option α) : Reduction α :=
  variadic name fun values => if values.length = count then f values else none

def unary (name : String) (f : α → Option α) : Reduction α :=
  variadic name fun values =>
    match values with
    | [a] => f a
    | _ => none

def binary (name : String) (f : α → α → Option α) : Reduction α :=
  variadic name fun values =>
    match values with
    | [a, b] => f a b
    | _ => none

def descendants (name child : String) (f : List Node → Option α) : Reduction α :=
  named name fun n _ => f (n.descendantsNamed child)

end Reduction

/--
Reductions, and how messages show their values.
-/
structure Reducer (α : Type) where
  rules : List (Reduction α)
  dump : α → String

namespace Reducer

variable {α : Type}

inductive Fault (α : Type) where
  | ambiguous (n : Node) (values : List α)
  | notSingle (n : Node) (values : List α)

namespace Fault

def node : Fault α → Node
  | .ambiguous n _ => n
  | .notSingle n _ => n

def message (dump : α → String) : Fault α → String
  | .ambiguous n values =>
    "syntax error: ambiguous reduction of " ++ n.name.getD "_" ++ " to " ++
      Dump.list (values.map dump)
  | .notSingle _ values =>
    "syntax error: expected one expression, got " ++ Dump.list (values.map dump)

def toFailure (dump : α → String) (fault : Fault α) : Failure :=
  ⟨fault.message dump, fault.node.location⟩

end Fault

def claims (rules : List (Reduction α)) (n : Node) (values : List α) : List α :=
  rules.filterMap fun rule => rule n values

def reduceNode (rules : List (Reduction α)) (n : Node) (values : List α) :
    Except (Fault α) (List α) :=
  match claims rules n values with
  | [] => .ok values
  | [value] => .ok [value]
  | several => .error (.ambiguous n several)

mutual

def reduceTree (rules : List (Reduction α)) : Node → Except (Fault α) (List α)
  | ⟨token, label, children⟩ => do
    let values ← reduceTrees rules children
    reduceNode rules ⟨token, label, children⟩ values

def reduceTrees (rules : List (Reduction α)) : List Node → Except (Fault α) (List α)
  | [] => .ok []
  | n :: rest => do
    let values ← reduceTree rules n
    let others ← reduceTrees rules rest
    return values ++ others

end

def reduceSingle (rules : List (Reduction α)) (n : Node) : Except (Fault α) α := do
  match ← reduceTree rules n with
  | [value] => return value
  | values => .error (.notSingle n values)

def applyMany (r : Reducer α) (n : Node) : Except Failure (List α) :=
  (reduceTree r.rules n).mapError (Fault.toFailure r.dump)

def apply (r : Reducer α) (n : Node) : Except Failure α :=
  (reduceSingle r.rules n).mapError (Fault.toFailure r.dump)

end Reducer

end GrammarKit
