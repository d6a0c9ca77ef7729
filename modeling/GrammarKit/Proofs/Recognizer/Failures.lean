import GrammarKit.Proofs.Recognizer.Lawful
import GrammarKit.Proofs.Run.Failures

/-!
This module contains the principle by which properties of failures are shown: what holds of the
failures that a domain makes, and is handed on where failures are wrapped and put together, holds of
every failure that evaluation ends in or swallows.
-/

namespace GrammarKit

open Recognizer Domain

variable {ι ω μ : Type}

namespace Domain

/-- The property holds of the failures that come about at an input, and of what is made of them. -/
structure Faulting (d : Domain ι ω μ) [Lawful d] (P : ι → Failure → Prop) : Prop where
  failureAt : ∀ input message, P input (d.failureAt input message)
  atom : ∀ {ev a input}, (∀ rule ∈ Lawful.inner d a, (ev rule input).AllFailures (P input)) →
    (d.atom ev a input).AllFailures (P input)
  inRule : ∀ {input e} name, P input e → P input (inRule name (d.location input) e)
  aggregate : ∀ {input errors}, (∀ e ∈ errors, P input e) →
    P input (Failure.aggregateBy d.furthest errors)
  of_rest : ∀ {input rest e}, Lawful.Rest d input rest → P rest e → P input e

end Domain

namespace Recognizer

theorem inRule_location_of_none {name : String} {input : Option Location} {e : Failure}
    (h : e.location = none)
    : (inRule name input e).location = input := by
  unfold inRule
  rw [h]
  rfl

section Combinators

variable {d : Domain ι ω μ} [Lawful d] {P : ι → Failure → Prop} {ev : Rule μ → ι → Run ω}
variable (hd : d.Faulting P) (hev : ∀ rule input, (ev rule input).AllFailures (P input))
variable (hfits : ∀ rule input output, (ev rule input).Yields output → Lawful.Fits d input output)

include hd hfits in
theorem advance_allFailures {α : Type} {rule : Rule μ} {input : ι} {output : ω} {x : Run α}
    (h : (ev rule input).Yields output) (hx : x.AllFailures (P (d.advance input output)))
    : x.AllFailures (P input) :=
  hx.mono fun _ => hd.of_rest (Lawful.rest_advance (hfits _ _ _ h))

include hd hev hfits in
theorem sequence_allFailures (rules : List (Rule μ)) (input : ι)
    : (sequence d ev rules input).AllFailures (P input) := by
  induction rules generalizing input with
  | nil => exact .pure []
  | cons rule rules ih =>
    apply (hev rule input).andThen
    intro output houtput
    exact (advance_allFailures hd hfits houtput (ih _)).andThen fun _ _ => .pure _

include hev in
theorem results_allFailures (rules : List (Rule μ)) (input : ι)
    : (results ev rules input).AllFailures (P input) ∧
        ∀ rs, (results ev rules input).Yields rs → ∀ e ∈ failures rs, P input e := by
  constructor
  · induction rules with
    | nil => exact .pure []
    | cons rule rules ih =>
      apply (hev rule input).attempt_andThen
      · exact fun _ _ => ih.andThen fun _ _ => .pure _
      · exact fun _ _ _ => ih.andThen fun _ _ => .pure _
  · intro rs hrs e he
    obtain ⟨rule, _, hyields⟩ := results_mem hrs (mem_failures.mp he)
    exact (hev rule input).of_failsWith ((Run.attempt_yields_error _ _).mp hyields)

include hd in
theorem choose_allFailures {input : ι} {rs : List (Except Failure ω)}
    (h : ∀ e ∈ failures rs, P input e)
    : (choose d input rs).AllFailures (P input) := by
  unfold choose
  split
  · exact .fail (hd.aggregate h)
  · exact .pure _
  · exact .fail (hd.failureAt input _)

include hd hev hfits in
theorem repeated_allFailures (rule : Rule μ) (n : Nat) (input : ι)
    : (repeated d ev rule n input).AllFailures (P input) := by
  induction n generalizing input with
  | zero => exact .unsettled
  | succ n ih =>
    apply (hev rule input).attempt_andThen
    · intro output houtput
      exact (advance_allFailures hd hfits houtput (ih _)).andThen fun _ _ => .pure _
    · exact fun e _ he => (Run.AllFailures.swallow he).andThen fun _ _ => .pure _

include hd hev hfits in
theorem exhausted_allFailures (rule : Rule μ) (n : Nat) (input : ι)
    : (exhausted d ev rule n input).AllFailures (P input) := by
  induction n generalizing input with
  | zero => exact .unsettled
  | succ n ih =>
    unfold exhausted
    split
    · exact .pure []
    · apply (hev rule input).andThen
      intro output houtput
      exact (advance_allFailures hd hfits houtput (ih _)).andThen fun _ _ => .pure _

end Combinators

variable {m : Recognizer ι ω μ} [Lawful m.domain] {P : ι → Failure → Prop}
variable (hd : m.domain.Faulting P)

include hd in
theorem call_allFailures {ev : Rule μ → ι → Run ω}
    (hev : ∀ rule input, (ev rule input).AllFailures (P input)) (name : String) (input : ι)
    : (m.call ev name input).AllFailures (P input) := by
  unfold call
  split
  · exact .fail (hd.failureAt input _)
  · next rule _ =>
    apply (hev rule input).attempt_andThen
    · exact fun _ _ => .pure _
    · exact fun _ _ he => .fail (hd.inRule name he)

include hd in
theorem step_allFailures {ev : Rule μ → ι → Run ω}
    (hev : ∀ rule input, (ev rule input).AllFailures (P input))
    (hfits : ∀ rule input output, (ev rule input).Yields output →
      Lawful.Fits m.domain input output)
    (n : Nat) (rule : Rule μ) (input : ι)
    : (m.step ev n rule input).AllFailures (P input) := by
  cases rule with
  | atom a => exact hd.atom fun rule _ => hev rule input
  | ref name => exact (call_allFailures hd hev name input).andThen fun _ _ => .pure _
  | seq rules => exact (sequence_allFailures hd hev hfits rules input).andThen fun _ _ => .pure _
  | alt rules =>
    obtain ⟨hresults, hfailures⟩ := results_allFailures hev rules input
    exact hresults.andThen fun rs hrs => choose_allFailures hd (hfailures rs hrs)
  | star rule => exact (repeated_allFailures hd hev hfits rule n input).andThen fun _ _ => .pure _
  | plus rule =>
    apply (hev rule input).andThen
    intro output houtput
    apply advance_allFailures hd hfits houtput
    exact (repeated_allFailures hd hev hfits rule n _).andThen fun _ _ => .pure _
  | opt rule =>
    apply (hev rule input).attempt_andThen
    · exact fun _ _ => .pure _
    · exact fun _ _ he => (Run.AllFailures.swallow he).andThen fun _ _ => .pure _
  | untilEmpty rule =>
    exact (exhausted_allFailures hd hev hfits rule n input).andThen fun _ _ => .pure _

include hd in
theorem evalWithin_allFailures (n : Nat) (rule : Rule μ) (input : ι)
    : (m.evalWithin n rule input).AllFailures (P input) := by
  induction n generalizing rule input with
  | zero => exact .unsettled
  | succ n ih => exact step_allFailures hd ih (m.evalWithin_fits n) (n + 1) rule input

include hd in
theorem run_allFailures (input : ι) : (m.run input).AllFailures (P input) :=
  call_allFailures hd (evalWithin_allFailures hd _) m.root input

end Recognizer

end GrammarKit
