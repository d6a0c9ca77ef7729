import GrammarKit.Recognizer.Basic

/-!
This module contains sessions, in which a recognizer is tried out step by step on one input.
-/

namespace GrammarKit

namespace Session

inductive Step (μ : Type) where
  | run
  | runLogged
  | apply (rule : Rule μ)
  | applyNamed (name : String)
  | raise (message : String)
  | aggregate (errors : List Failure)

inductive Answer (ω : Type) where
  | result (result : Except Failure ω)
  | logged (result : Except Failure ω) (swallowed : List Failure)
  | failure (e : Failure)

variable {ι ω μ : Type}

/-- The input behind what a result accounts for; failures account for nothing. -/
def moveOn (d : Domain ι ω μ) (current : ι) : Except Failure ω → ι
  | .ok output => d.advance current output
  | .error _ => current

def step (m : Recognizer ι ω μ) (whole current : ι) : Step μ → Option (Answer ω × ι)
  | .run =>
    match m.run whole with
    | .unsettled => none
    | .settled result _ => some (.result result, current)
  | .runLogged =>
    match m.run whole with
    | .unsettled => none
    | .settled result swallowed => some (.logged result swallowed, current)
  | .apply rule =>
    match m.eval rule current with
    | .unsettled => none
    | .settled result _ => some (.result result, moveOn m.domain current result)
  | .applyNamed name =>
    match m.apply name current with
    | .unsettled => none
    | .settled result _ => some (.result result, moveOn m.domain current result)
  | .raise message => some (.failure (m.domain.failureAt current message), current)
  | .aggregate errors => some (.failure (Failure.aggregateBy m.domain.furthest errors), current)

/--
Take steps one after the other. Each answer comes with the input that is left behind the step.
-/
def steps (m : Recognizer ι ω μ) (whole : ι) : ι → List (Step μ) → Option (List (Answer ω × ι))
  | _, [] => some []
  | current, s :: rest => do
    let (answer, next) ← step m whole current s
    let others ← steps m whole next rest
    return (answer, next) :: others

def run (m : Recognizer ι ω μ) (whole : ι) (asked : List (Step μ)) :
    Option (List (Answer ω × ι)) :=
  steps m whole whole asked

end Session

end GrammarKit
