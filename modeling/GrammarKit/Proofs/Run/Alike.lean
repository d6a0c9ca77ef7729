import GrammarKit.Proofs.Run.Limit
import Mathlib.Logic.Relation

/-!
This module contains `Run.Alike`, the relation of runs that differ only in what failures say and in
the order in which they are swallowed. How far a run gets, what it yields and where it fails is the
same for both.
-/

namespace GrammarKit

variable {α β γ δ : Type}

/-- Both are values that `R` relates, or failures at the same location, whatever these say. -/
inductive Agree (R : α → β → Prop) : Except Failure α → Except Failure β → Prop where
  | ok {a : α} {b : β} (h : R a b) : Agree R (.ok a) (.ok b)
  | error {e f : Failure} (h : e.location = f.location) : Agree R (.error e) (.error f)

namespace Agree

variable {R : α → β → Prop} {S : β → γ → Prop}

theorem refl {R : α → α → Prop} (hR : ∀ a, R a a) (result : Except Failure α)
    : Agree R result result := by
  cases result with
  | ok a => exact .ok (hR a)
  | error e => exact .error rfl

theorem mono {R' : α → β → Prop} (hR : ∀ a b, R a b → R' a b) {result : Except Failure α}
    {result' : Except Failure β} (h : Agree R result result')
    : Agree R' result result' := by
  cases h with
  | ok h => exact .ok (hR _ _ h)
  | error h => exact .error h

theorem trans {x : Except Failure α} {y : Except Failure β} {z : Except Failure γ}
    (hxy : Agree R x y) (hyz : Agree S y z)
    : Agree (Relation.Comp R S) x z := by
  cases hxy with
  | ok h =>
    cases hyz with
    | ok h' => exact .ok ⟨_, h, h'⟩
  | error h =>
    cases hyz with
    | error h' => exact .error (h.trans h')

end Agree

namespace Run

/-- Both go on forever, or end in agreement after failures that were swallowed at the same places. -/
inductive Alike (R : α → β → Prop) : Run α → Run β → Prop where
  | unsettled : Alike R .unsettled .unsettled
  | settled {result : Except Failure α} {result' : Except Failure β} {log log' : List Failure}
      (hresult : Agree R result result')
      (hlog : (log.map Failure.location).Perm (log'.map Failure.location)) :
      Alike R (.settled result log) (.settled result' log')

namespace Alike

variable {R : α → β → Prop} {S : γ → δ → Prop} {x : Run α} {y : Run β}

theorem refl {R : α → α → Prop} (hR : ∀ a, R a a) (x : Run α) : Alike R x x := by
  cases x with
  | unsettled => exact .unsettled
  | settled result log => exact .settled (.refl hR result) (.refl _)

theorem mono {R' : α → β → Prop} (hR : ∀ a b, R a b → R' a b) (h : Alike R x y)
    : Alike R' x y := by
  cases h with
  | unsettled => exact .unsettled
  | settled hresult hlog => exact .settled (hresult.mono hR) hlog

theorem trans {R' : β → γ → Prop} {z : Run γ} (hxy : Alike R x y) (hyz : Alike R' y z)
    : Alike (Relation.Comp R R') x z := by
  cases hxy with
  | unsettled =>
    cases hyz with
    | unsettled => exact .unsettled
  | settled hresult hlog =>
    cases hyz with
    | settled hresult' hlog' => exact .settled (hresult.trans hresult') (hlog.trans hlog')

theorem ok {a : α} {b : β} (h : R a b) : Alike R (.ok a) (.ok b) := .settled (.ok h) .nil

theorem fail {e f : Failure} (h : e.location = f.location)
    : Alike R (.fail e : Run α) (.fail f : Run β) :=
  .settled (.error h) .nil

theorem swallow {e f : Failure} (h : e.location = f.location)
    : Alike Eq (.swallow e) (.swallow f) :=
  .settled (.ok rfl) (by simp [h])

theorem after {log log' : List Failure}
    (hlog : (log.map Failure.location).Perm (log'.map Failure.location)) (h : Alike R x y)
    : Alike R (.after log x) (.after log' y) := by
  cases h with
  | unsettled => exact .unsettled
  | settled hresult hmore =>
    refine .settled hresult ?_
    rw [List.map_append, List.map_append]
    exact hlog.append hmore

theorem andThen {f : α → Run γ} {g : β → Run δ} (h : Alike R x y)
    (hfg : ∀ a b, R a b → Alike S (f a) (g b))
    : Alike S (x.andThen f) (y.andThen g) := by
  cases h with
  | unsettled => exact .unsettled
  | settled hresult hlog =>
    cases hresult with
    | ok hab => exact (hfg _ _ hab).after hlog
    | error he => exact .settled (.error he) hlog

theorem attempt (h : Alike R x y) : Alike (Agree R) x.attempt y.attempt := by
  cases h with
  | unsettled => exact .unsettled
  | settled hresult hlog => exact .settled (.ok hresult) hlog

section Same

variable {x y : Run α} {f g : α → Run β}

theorem andThen_same {S : β → β → Prop} (h : Alike Eq x y) (hfg : ∀ a, Alike S (f a) (g a))
    : Alike S (x.andThen f) (y.andThen g) := by
  apply h.andThen
  rintro a _ rfl
  exact hfg a

/-- Go on with a result or with a failure. -/
theorem attempt_andThen_same {S : β → β → Prop} {f g : Except Failure α → Run β} (h : Alike Eq x y)
    (hok : ∀ a, Alike S (f (.ok a)) (g (.ok a)))
    (herror : ∀ e e' : Failure, e.location = e'.location → Alike S (f (.error e)) (g (.error e')))
    : Alike S (x.attempt.andThen f) (y.attempt.andThen g) := by
  apply h.attempt.andThen
  rintro result result' (hvalue | hlocation)
  · exact hvalue ▸ hok _
  · exact herror _ _ hlocation

/-- Two attempts that do not depend on each other can be made in either order. -/
theorem attempt_swap (x y : Run α) (z : Run (List (Except Failure α)))
    : Alike List.Perm
        (x.attempt.andThen fun r => y.attempt.andThen fun s =>
          z.andThen fun others => .ok (r :: s :: others))
        (y.attempt.andThen fun s => x.attempt.andThen fun r =>
          z.andThen fun others => .ok (s :: r :: others)) := by
  match x, y, z with
  | .unsettled, .unsettled, _ => exact .unsettled
  | .unsettled, .settled _ _, _ => exact .unsettled
  | .settled _ _, .unsettled, _ => exact .unsettled
  | .settled _ _, .settled _ _, .unsettled => exact .unsettled
  | .settled result log, .settled result' log', .settled (.error e) more =>
    refine .settled (.error rfl) ?_
    simpa using List.perm_append_comm_assoc _ _ _
  | .settled result log, .settled result' log', .settled (.ok others) more =>
    refine .settled (.ok (.swap _ _ others)) ?_
    simpa using List.perm_append_comm_assoc _ _ _

end Same

theorem of_limit {xs : Nat → Run α} {ys : Nat → Run β} (hx : IsLimit xs x) (hy : IsLimit ys y)
    (h : ∀ n, Alike R (xs n) (ys n))
    : Alike R x y := by
  obtain ⟨n, rfl, rfl⟩ := hx.exists_eq hy
  exact h n

end Alike

end Run

/-- The same values come of both, and failures at the same locations, if anything ever does. -/
structure Eventually.Alike (x y : Eventually Failure α) : Prop where
  never : x.run = none ↔ y.run = none
  value : ∀ a, x.run = some (.ok a) ↔ y.run = some (.ok a)
  failure : ∀ loc, (∃ e, x.run = some (.error e) ∧ e.location = loc) ↔
    ∃ e, y.run = some (.error e) ∧ e.location = loc

theorem Eventually.Alike.of_never {x y : Eventually Failure α} (hx : x.run = none)
    (hy : y.run = none)
    : Alike x y :=
  ⟨by simp [hx, hy], by simp [hx, hy], by simp [hx, hy]⟩

theorem Eventually.Alike.of_agree {x y : Eventually Failure α} {result result' : Except Failure α}
    (hx : x.run = some result) (hy : y.run = some result') (h : Agree Eq result result')
    : Alike x y := by
  cases h with
  | ok hab =>
    subst hab
    exact ⟨by simp [hx, hy], by simp [hx, hy], by simp [hx, hy]⟩
  | error he => exact ⟨by simp [hx, hy], by simp [hx, hy], by simp [hx, hy, he]⟩

end GrammarKit
