import GrammarKit.Proofs.Recognizer.Bound
import GrammarKit.Proofs.Run.Parallel
import Mathlib.Data.List.Forall2

/-!
This module contains `Domain.Parametric`, domains that cannot tell related inputs apart, nor related
outputs. Evaluation takes the same course on related inputs, choices and repetitions included.
-/

namespace GrammarKit

open Recognizer

variable {ι ω μ : Type}

namespace Domain

/-- Related inputs are met with related outputs, and these lead on to related inputs. -/
structure Parametric (d : Domain ι ω μ) (I : ι → ι → Prop) (O : ω → ω → Prop) : Prop where
  atom : ∀ {ev ev' : Rule μ → ι → Run ω},
    (∀ rule {input input'}, I input input' → Run.Parallel O (ev rule input) (ev' rule input')) →
      ∀ a {input input'}, I input input' →
        Run.Parallel O (d.atom ev a input) (d.atom ev' a input')
  advance : ∀ {input input' output output'}, I input input' → O output output' →
    I (d.advance input output) (d.advance input' output')
  join : ∀ {outputs outputs'}, List.Forall₂ O outputs outputs' →
    O (d.join outputs) (d.join outputs')
  isEmpty : ∀ {input input'}, I input input' → d.isEmpty input = d.isEmpty input'
  label : ∀ name {output output'}, O output output' → O (d.label name output) (d.label name output')

end Domain

namespace Recognizer

variable {m : Recognizer ι ω μ} {I : ι → ι → Prop} {O : ω → ω → Prop}

theorem successes_forall₂ {rs rs' : List (Except Failure ω)} (h : List.Forall₂ (Matched O) rs rs')
    : List.Forall₂ O (successes rs) (successes rs') := by
  induction h with
  | nil => exact .nil
  | cons first _ ih =>
    cases first with
    | ok h => exact .cons h ih
    | error => exact ih

theorem choose_parallel {d : Domain ι ω μ} {input input' : ι} {rs rs' : List (Except Failure ω)}
    (h : List.Forall₂ (Matched O) rs rs')
    : Run.Parallel O (choose d input rs) (choose d input' rs') := by
  -- a choice is decided by the number of successes
  have hsuccesses := successes_forall₂ h
  unfold choose
  generalize successes rs = outputs, successes rs' = outputs' at hsuccesses
  cases hsuccesses with
  | nil => exact .fail
  | cons first others =>
    cases others with
    | nil => exact .ok first
    | cons _ _ => exact .fail

variable (hd : m.domain.Parametric I O) {ev ev' : Rule μ → ι → Run ω}
variable (hev : ∀ rule {input input'}, I input input' →
  Run.Parallel O (ev rule input) (ev' rule input'))
variable {input input' : ι} (h : I input input')

include hd hev h

theorem sequence_parallel (rules : List (Rule μ))
    : Run.Parallel (List.Forall₂ O) (sequence m.domain ev rules input)
        (sequence m.domain ev' rules input') := by
  induction rules generalizing input input' with
  | nil => exact .ok .nil
  | cons rule rules ih =>
    apply (hev rule h).andThen
    intro output output' hfirst
    exact (ih (hd.advance h hfirst)).andThen fun hothers => .ok (.cons hfirst hothers)

omit hd in
theorem results_parallel (rules : List (Rule μ))
    : Run.Parallel (List.Forall₂ (Matched O)) (results ev rules input)
        (results ev' rules input') := by
  induction rules with
  | nil => exact .ok .nil
  | cons rule rules ih =>
    apply (hev rule h).attempt.andThen
    intro r r' hfirst
    exact ih.andThen fun hothers => .ok (.cons hfirst hothers)

theorem repeated_parallel (rule : Rule μ) (n : Nat)
    : Run.Parallel (List.Forall₂ O) (repeated m.domain ev rule n input)
        (repeated m.domain ev' rule n input') := by
  induction n generalizing input input' with
  | zero => exact .unsettled
  | succ n ih =>
    apply (hev rule h).attempt_andThen
    · intro output output' hfirst
      exact (ih (hd.advance h hfirst)).andThen fun hothers => .ok (.cons hfirst hothers)
    · intro e e'
      exact Run.Parallel.swallow.andThen fun _ => .ok .nil

theorem exhausted_parallel (rule : Rule μ) (n : Nat)
    : Run.Parallel (List.Forall₂ O) (exhausted m.domain ev rule n input)
        (exhausted m.domain ev' rule n input') := by
  induction n generalizing input input' with
  | zero => exact .unsettled
  | succ n ih =>
    unfold exhausted
    rw [hd.isEmpty h]
    split
    · exact .ok .nil
    · apply (hev rule h).andThen
      intro output output' hfirst
      exact (ih (hd.advance h hfirst)).andThen fun hothers => .ok (.cons hfirst hothers)

theorem call_parallel (name : String)
    : Run.Parallel O (m.call ev name input) (m.call ev' name input') := by
  unfold call
  split
  · exact .fail
  · next rule _ =>
    exact (hev rule h).attempt_andThen (fun houtput => .ok (hd.label name houtput))
      fun _ _ => .fail

theorem step_parallel (rule : Rule μ) (n : Nat)
    : Run.Parallel O (m.step ev n rule input) (m.step ev' n rule input') := by
  cases rule with
  | atom a => exact hd.atom hev a h
  | ref name =>
    exact (call_parallel hd hev h name).andThen fun houtput => .ok (hd.join (.cons houtput .nil))
  | seq rules =>
    exact (sequence_parallel hd hev h rules).andThen fun houtputs => .ok (hd.join houtputs)
  | alt rules => exact (results_parallel hev h rules).andThen choose_parallel
  | star rule =>
    exact (repeated_parallel hd hev h rule n).andThen fun houtputs => .ok (hd.join houtputs)
  | plus rule =>
    apply (hev rule h).andThen
    intro output output' hfirst
    exact (repeated_parallel hd hev (hd.advance h hfirst) rule n).andThen fun hothers =>
      .ok (hd.join (.cons hfirst hothers))
  | opt rule =>
    apply (hev rule h).attempt_andThen
    · exact fun houtput => .ok houtput
    · intro e e'
      exact Run.Parallel.swallow.andThen fun _ => .ok (hd.join .nil)
  | untilEmpty rule =>
    exact (exhausted_parallel hd hev h rule n).andThen fun houtputs => .ok (hd.join houtputs)

omit hev in
theorem evalWithin_parallel (n : Nat) (rule : Rule μ)
    : Run.Parallel O (m.evalWithin n rule input) (m.evalWithin n rule input') := by
  induction n generalizing rule input input' with
  | zero => exact .unsettled
  | succ n ih => exact step_parallel hd (fun rule _ _ h => ih h rule) h rule (n + 1)

omit hev in
theorem run_parallel [Domain.Lawful m.domain] : Run.Parallel O (m.run input) (m.run input') := by
  rw [run_eq_call, run_eq_call]
  refine call_parallel hd (fun rule input input' h => ?_) h m.root
  exact .of_limit (m.isLimit_eval rule input) (m.isLimit_eval rule input') fun n =>
    evalWithin_parallel hd h n rule

end Recognizer

end GrammarKit
