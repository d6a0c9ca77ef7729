import GrammarKit.Recognizer.Domain
import GrammarKit.Table

/-!
This module contains `Recognizer`, named rules over a domain, and the evaluation of rules.

Evaluation need not come to an end: rules may call each other without using up input, and a
repetition may go on forever. So it runs under a bound, both on the nesting of calls and on the
number of rounds of a repetition; a run that would exceed it stays unsettled. `Recognizer.bound` is
a bound that every evaluation which comes to an end respects: on the way down no named rule meets
the same rest of the input twice, and every round of a repetition but the last uses up input.
-/

namespace GrammarKit

structure Recognizer (ι ω μ : Type) where
  domain : Domain ι ω μ
  rules : Table (Rule μ)
  root : String

namespace Recognizer

variable {ι ω μ : Type}

def unknownRule (name : String) : String :=
  "unknown rule '" ++ name ++ "'"

def inRule (name : String) (input : Option Location) (e : Failure) : Failure :=
  ⟨"error while applying rule '" ++ name ++ "': " ++ e.message, e.location <|> input⟩

def ambiguous (d : Domain ι ω μ) (outputs : List ω) : String :=
  "ambiguous result [" ++ ", ".intercalate (outputs.map d.dump) ++ "]"

section Combinators

variable (d : Domain ι ω μ) (ev : Rule μ → ι → Run ω)

def sequence : List (Rule μ) → ι → Run (List ω)
  | [], _ => .ok []
  | rule :: rules, input => do
    let output ← ev rule input
    let outputs ← sequence rules (d.advance input output)
    return output :: outputs

def results : List (Rule μ) → ι → Run (List (Except Failure ω))
  | [], _ => .ok []
  | rule :: rules, input => do
    let result ← (ev rule input).attempt
    let others ← results rules input
    return result :: others

def successes : List (Except Failure ω) → List ω
  | [] => []
  | .ok output :: rest => output :: successes rest
  | .error _ :: rest => successes rest

def failures : List (Except Failure ω) → List Failure
  | [] => []
  | .ok _ :: rest => failures rest
  | .error e :: rest => e :: failures rest

def choose (input : ι) (rs : List (Except Failure ω)) : Run ω :=
  match successes rs with
  | [] => .fail (Failure.aggregateBy d.furthest (failures rs))
  | [output] => .ok output
  | outputs => d.failAt input (ambiguous d outputs)

/-- The outputs of a rule up to its first failure, which is swallowed. -/
def repeated (rule : Rule μ) : Nat → ι → Run (List ω)
  | 0, _ => .unsettled
  | n + 1, input => do
    match ← (ev rule input).attempt with
    | .ok output =>
      let outputs ← repeated rule n (d.advance input output)
      return output :: outputs
    | .error e =>
      Run.swallow e
      return []

/-- The outputs of a rule up to the end of the input. -/
def exhausted (rule : Rule μ) : Nat → ι → Run (List ω)
  | 0, _ => .unsettled
  | n + 1, input =>
    if d.isEmpty input then
      .ok []
    else do
      let output ← ev rule input
      let outputs ← exhausted rule n (d.advance input output)
      return output :: outputs

end Combinators

def call (m : Recognizer ι ω μ) (ev : Rule μ → ι → Run ω) (name : String) (input : ι) : Run ω :=
  match m.rules.get? name with
  | none => m.domain.failAt input (unknownRule name)
  | some rule => do
    match ← (ev rule input).attempt with
    | .ok output => return m.domain.label name output
    | .error e => .fail (inRule name (m.domain.location input) e)

/--
Evaluate a rule, given how to evaluate its parts and how many rounds a repetition may take.
-/
def step (m : Recognizer ι ω μ) (ev : Rule μ → ι → Run ω) (rounds : Nat) : Rule μ → ι → Run ω
  | .atom a, input => m.domain.atom ev a input
  | .ref name, input => do
    let output ← m.call ev name input
    return m.domain.join [output]
  | .seq rules, input => do
    let outputs ← sequence m.domain ev rules input
    return m.domain.join outputs
  | .alt rules, input => do
    let rs ← results ev rules input
    choose m.domain input rs
  | .star rule, input => do
    let outputs ← repeated m.domain ev rule rounds input
    return m.domain.join outputs
  | .plus rule, input => do
    let output ← ev rule input
    let outputs ← repeated m.domain ev rule rounds (m.domain.advance input output)
    return m.domain.join (output :: outputs)
  | .opt rule, input => do
    match ← (ev rule input).attempt with
    | .ok output => return output
    | .error e =>
      Run.swallow e
      return m.domain.join []
  | .untilEmpty rule, input => do
    let outputs ← exhausted m.domain ev rule rounds input
    return m.domain.join outputs

/--
Evaluate a rule, with `n` as the bound on nesting and rounds.
-/
def evalWithin (m : Recognizer ι ω μ) : Nat → Rule μ → ι → Run ω
  | 0, _, _ => .unsettled
  | n + 1, rule, input => m.step (m.evalWithin n) (n + 1) rule input

/--
Apply a named rule, with `n` as the bound on nesting and rounds.
-/
def applyWithin (m : Recognizer ι ω μ) (n : Nat) (name : String) (input : ι) : Run ω :=
  m.call (m.evalWithin n) name input

/--
A bound for evaluating `rule` at `input`: for every named rule and every rest of the input, the
depth of the deepest rule; the depth of `rule` itself; and a round for every step of the input.
-/
def bound (m : Recognizer ι ω μ) (rule : Rule μ) (input : ι) : Nat :=
  let depths := m.rules.entries.map fun entry => entry.2.depth m.domain.atomDepth
  let deepest := depths.foldl max 0
  (m.rules.size * (m.domain.size input + 1) + 1) * (deepest + 1) +
    rule.depth m.domain.atomDepth + m.domain.size input + 2

def eval (m : Recognizer ι ω μ) (rule : Rule μ) (input : ι) : Run ω :=
  m.evalWithin (m.bound rule input) rule input

def apply (m : Recognizer ι ω μ) (name : String) (input : ι) : Run ω :=
  m.applyWithin (m.bound (.ref name) input) name input

def run (m : Recognizer ι ω μ) (input : ι) : Run ω :=
  m.apply m.root input

end Recognizer

end GrammarKit
