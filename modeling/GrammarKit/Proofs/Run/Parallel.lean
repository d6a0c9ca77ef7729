import GrammarKit.Proofs.Run.Limit

/-!
This module contains `Run.Parallel`, the relation of runs that take the same course: both go on
forever, both fail, or both end with values that are related. What failures say and where they are
located is left open.
-/

namespace GrammarKit

variable {α β γ δ : Type}

/-- Both are values that `R` relates, or both are failures. -/
inductive Matched (R : α → β → Prop) : Except Failure α → Except Failure β → Prop where
  | ok {a : α} {b : β} (h : R a b) : Matched R (.ok a) (.ok b)
  | error {e f : Failure} : Matched R (.error e) (.error f)

namespace Run

inductive Parallel (R : α → β → Prop) : Run α → Run β → Prop where
  | unsettled : Parallel R .unsettled .unsettled
  | settled {result : Except Failure α} {result' : Except Failure β} {log log' : List Failure}
      (h : Matched R result result') : Parallel R (.settled result log) (.settled result' log')

namespace Parallel

variable {R : α → β → Prop} {S : γ → δ → Prop} {x : Run α} {y : Run β}

theorem ok {a : α} {b : β} (h : R a b) : Parallel R (.ok a) (.ok b) := .settled (.ok h)

theorem fail {e f : Failure} : Parallel R (.fail e : Run α) (.fail f : Run β) := .settled .error

theorem swallow {e f : Failure} : Parallel Eq (.swallow e) (.swallow f) := .settled (.ok rfl)

theorem after {log log' : List Failure} (h : Parallel R x y)
    : Parallel R (.after log x) (.after log' y) := by
  cases h with
  | unsettled => exact .unsettled
  | settled h => exact .settled h

theorem andThen {f : α → Run γ} {g : β → Run δ} (h : Parallel R x y)
    (hfg : ∀ {a b}, R a b → Parallel S (f a) (g b))
    : Parallel S (x.andThen f) (y.andThen g) := by
  cases h with
  | unsettled => exact .unsettled
  | settled h =>
    cases h with
    | ok hab => exact (hfg hab).after
    | error => exact .settled .error

theorem attempt (h : Parallel R x y) : Parallel (Matched R) x.attempt y.attempt := by
  cases h with
  | unsettled => exact .unsettled
  | settled h => exact .settled (.ok h)

/-- Go on with a result or with a failure. -/
theorem attempt_andThen {f : Except Failure α → Run γ} {g : Except Failure β → Run δ}
    (h : Parallel R x y) (hok : ∀ {a b}, R a b → Parallel S (f (.ok a)) (g (.ok b)))
    (herror : ∀ e e', Parallel S (f (.error e)) (g (.error e')))
    : Parallel S (x.attempt.andThen f) (y.attempt.andThen g) := by
  apply h.attempt.andThen
  rintro result result' (hab | _)
  · exact hok hab
  · exact herror _ _

theorem of_limit {xs : Nat → Run α} {ys : Nat → Run β} (hx : IsLimit xs x) (hy : IsLimit ys y)
    (h : ∀ n, Parallel R (xs n) (ys n))
    : Parallel R x y := by
  obtain ⟨n, rfl, rfl⟩ := hx.exists_eq hy
  exact h n

end Parallel

end Run

end GrammarKit
