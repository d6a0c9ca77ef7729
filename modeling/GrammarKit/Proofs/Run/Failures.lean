import GrammarKit.Proofs.Run.Outcome

/-!
This module contains `Run.AllFailures`, a property of all failures of a run: of the one it ends in,
if it does, and of those it swallows on the way.
-/

namespace GrammarKit

namespace Run

variable {α β : Type} {P : Failure → Prop}

/-- Every failure that the run ends in or swallows has the property. -/
inductive AllFailures (P : Failure → Prop) : Run α → Prop where
  | unsettled : AllFailures P .unsettled
  | ok {a : α} {log : List Failure} (hlog : ∀ f ∈ log, P f) : AllFailures P (.settled (.ok a) log)
  | error {e : Failure} {log : List Failure} (he : P e) (hlog : ∀ f ∈ log, P f) :
      AllFailures P (.settled (.error e) log)

namespace AllFailures

theorem pure (a : α) : AllFailures P (Run.ok a) := .ok (by simp)

theorem fail {e : Failure} (h : P e) : AllFailures P (Run.fail e : Run α) := .error h (by simp)

theorem swallow {e : Failure} (h : P e) : AllFailures P (Run.swallow e) := .ok (by simpa using h)

theorem of_failsWith {x : Run α} {e : Failure} (h : x.AllFailures P) (he : x.FailsWith e) : P e := by
  obtain ⟨log, rfl⟩ := he
  cases h with
  | error he _ => exact he

theorem mono {Q : Failure → Prop} {x : Run α} (hPQ : ∀ e, P e → Q e) (h : x.AllFailures P)
    : x.AllFailures Q := by
  cases h with
  | unsettled => exact .unsettled
  | ok hlog => exact .ok fun f hf => hPQ f (hlog f hf)
  | error he hlog => exact .error (hPQ _ he) fun f hf => hPQ f (hlog f hf)

theorem after {log : List Failure} {x : Run α} (hlog : ∀ f ∈ log, P f) (h : x.AllFailures P)
    : (x.after log).AllFailures P := by
  cases h with
  | unsettled => exact .unsettled
  | ok hmore => exact .ok (List.forall_mem_append.mpr ⟨hlog, hmore⟩)
  | error he hmore => exact .error he (List.forall_mem_append.mpr ⟨hlog, hmore⟩)

theorem andThen {x : Run α} {f : α → Run β} (hx : x.AllFailures P)
    (hf : ∀ a, x.Yields a → (f a).AllFailures P)
    : (x.andThen f).AllFailures P := by
  cases hx with
  | unsettled => exact .unsettled
  | ok hlog => exact (hf _ (by simp)).after hlog
  | error he hlog => exact .error he hlog

/-- Go on with an output, or with a failure that is no longer one of the run. -/
theorem attempt_andThen {x : Run α} {f : Except Failure α → Run β} (hx : x.AllFailures P)
    (hok : ∀ a, x.Yields a → (f (.ok a)).AllFailures P)
    (herror : ∀ e, x.FailsWith e → P e → (f (.error e)).AllFailures P)
    : (x.attempt.andThen f).AllFailures P := by
  cases hx with
  | unsettled => exact .unsettled
  | ok hlog => exact (hok _ (by simp)).after hlog
  | error he hlog => exact (herror _ (by simp) he).after hlog

end AllFailures

end Run

end GrammarKit
