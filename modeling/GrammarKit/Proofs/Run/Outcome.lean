import GrammarKit.Run

/-!
This module contains the ways in which a run can end, and how a run that goes on from another one
ends: it yields a value, it fails, or it does not settle.
-/

namespace GrammarKit

namespace Run

variable {α β : Type}

def Settles (x : Run α) : Prop := x ≠ .unsettled

/-- Settled with that value, whatever was swallowed. -/
def Yields (x : Run α) (a : α) : Prop := ∃ log, x = .settled (.ok a) log

/-- Settled with that failure, whatever was swallowed. -/
def FailsWith (x : Run α) (e : Failure) : Prop := ∃ log, x = .settled (.error e) log

def Fails (x : Run α) : Prop := ∃ e, x.FailsWith e

@[simp]
theorem not_settles_unsettled : ¬ (unsettled : Run α).Settles := by
  simp [Settles]

@[simp]
theorem settles_settled (result : Except Failure α) (log : List Failure)
    : (settled result log).Settles := by
  simp [Settles]

@[simp]
theorem not_yields_unsettled (a : α) : ¬ (unsettled : Run α).Yields a := by
  simp [Yields]

@[simp]
theorem not_failsWith_unsettled (e : Failure) : ¬ (unsettled : Run α).FailsWith e := by
  simp [FailsWith]

@[simp]
theorem settled_yields (result : Except Failure α) (log : List Failure) (a : α)
    : (settled result log).Yields a ↔ result = .ok a := by
  simp [Yields]

@[simp]
theorem settled_failsWith (result : Except Failure α) (log : List Failure) (e : Failure)
    : (settled result log).FailsWith e ↔ result = .error e := by
  simp [FailsWith]

theorem settles_iff (x : Run α) : x.Settles ↔ (∃ a, x.Yields a) ∨ x.Fails := by
  cases x with
  | unsettled => simp [Fails]
  | settled result log =>
    cases result with
    | ok a => simp [Fails]
    | error e => simp [Fails]

theorem Yields.settles {x : Run α} {a : α} (h : x.Yields a) : x.Settles := by
  obtain ⟨log, rfl⟩ := h
  simp

theorem FailsWith.settles {x : Run α} {e : Failure} (h : x.FailsWith e) : x.Settles := by
  obtain ⟨log, rfl⟩ := h
  simp

theorem FailsWith.fails {x : Run α} {e : Failure} (h : x.FailsWith e) : x.Fails := ⟨e, h⟩

theorem Fails.settles {x : Run α} (h : x.Fails) : x.Settles := by
  obtain ⟨e, h⟩ := h
  exact h.settles

theorem Yields.unique {x : Run α} {a b : α} (ha : x.Yields a) (hb : x.Yields b) : a = b := by
  obtain ⟨log, rfl⟩ := ha
  simpa using hb

theorem FailsWith.unique {x : Run α} {e f : Failure} (he : x.FailsWith e) (hf : x.FailsWith f)
    : e = f := by
  obtain ⟨log, rfl⟩ := he
  simpa using hf

theorem Yields.not_fails {x : Run α} {a : α} (ha : x.Yields a) : ¬ x.Fails := by
  obtain ⟨log, rfl⟩ := ha
  simp [Fails]

@[simp]
theorem ok_settles (a : α) : (ok a).Settles := by
  simp [ok]

@[simp]
theorem ok_yields (a b : α) : (ok a).Yields b ↔ a = b := by
  simp [ok]

@[simp]
theorem not_ok_failsWith (a : α) (e : Failure) : ¬ (ok a).FailsWith e := by
  simp [ok]

@[simp]
theorem fail_settles (e : Failure) : (fail e : Run α).Settles := by
  simp [fail]

@[simp]
theorem not_fail_yields (e : Failure) (a : α) : ¬ (fail e : Run α).Yields a := by
  simp [fail]

@[simp]
theorem fail_failsWith (e f : Failure) : (fail e : Run α).FailsWith f ↔ e = f := by
  simp [fail]

@[simp]
theorem fail_fails (e : Failure) : (fail e : Run α).Fails := ⟨e, by simp⟩

@[simp]
theorem swallow_settles (e : Failure) : (swallow e).Settles := by
  simp [swallow]

@[simp]
theorem swallow_yields (e : Failure) (u : Unit) : (swallow e).Yields u := by
  simp [swallow]

@[simp]
theorem not_swallow_failsWith (e f : Failure) : ¬ (swallow e).FailsWith f := by
  simp [swallow]

@[simp]
theorem after_settles (log : List Failure) (x : Run α) : (after log x).Settles ↔ x.Settles := by
  cases x <;> simp [after]

@[simp]
theorem after_yields (log : List Failure) (x : Run α) (a : α)
    : (after log x).Yields a ↔ x.Yields a := by
  cases x <;> simp [after]

@[simp]
theorem after_failsWith (log : List Failure) (x : Run α) (e : Failure)
    : (after log x).FailsWith e ↔ x.FailsWith e := by
  cases x <;> simp [after]

@[simp]
theorem andThen_yields (x : Run α) (f : α → Run β) (b : β)
    : (x.andThen f).Yields b ↔ ∃ a, x.Yields a ∧ (f a).Yields b := by
  match x with
  | .unsettled => simp
  | .settled (.error e) log => simp [andThen]
  | .settled (.ok a) log => simp [andThen]

@[simp]
theorem andThen_failsWith (x : Run α) (f : α → Run β) (e : Failure)
    : (x.andThen f).FailsWith e ↔ x.FailsWith e ∨ ∃ a, x.Yields a ∧ (f a).FailsWith e := by
  match x with
  | .unsettled => simp
  | .settled (.error e') log => simp [andThen]
  | .settled (.ok a) log => simp [andThen]

theorem andThen_fails (x : Run α) (f : α → Run β)
    : (x.andThen f).Fails ↔ x.Fails ∨ ∃ a, x.Yields a ∧ (f a).Fails := by
  simp only [Fails, andThen_failsWith, exists_or]
  exact or_congr_right ⟨fun ⟨e, a, ha, he⟩ => ⟨a, ha, e, he⟩, fun ⟨a, ha, e, he⟩ => ⟨e, a, ha, he⟩⟩

theorem andThen_settles (x : Run α) (f : α → Run β)
    : (x.andThen f).Settles ↔ x.Settles ∧ ∀ a, x.Yields a → (f a).Settles := by
  match x with
  | .unsettled => simp
  | .settled (.error e) log => simp [andThen]
  | .settled (.ok a) log => simp [andThen]

theorem andThen_congr {x : Run α} {f g : α → Run β} (h : ∀ a, x.Yields a → f a = g a)
    : x.andThen f = x.andThen g := by
  match x with
  | .unsettled => rfl
  | .settled (.error e) log => rfl
  | .settled (.ok a) log => simp [andThen, h a]

/-- What cannot fail need not be part of an attempt, but may come behind it. -/
theorem attempt_andThen {γ : Type} {x : Run α} {f : α → Run β} (hf : ∀ a e, ¬ (f a).FailsWith e)
    (g : Except Failure β → Run γ)
    : (x.andThen f).attempt.andThen g =
        x.attempt.andThen fun result =>
          match result with
          | .ok a => (f a).andThen fun b => g (.ok b)
          | .error e => g (.error e) := by
  cases x with
  | unsettled => rfl
  | settled result log =>
    cases result with
    | error e => rfl
    | ok a =>
      simp only [andThen, attempt]
      cases hfa : f a with
      | unsettled => rfl
      | settled result more =>
        cases result with
        | error e => exact absurd ⟨more, hfa⟩ (hf a e)
        | ok b => exact (after_after log more (g (.ok b))).symm

@[simp]
theorem attempt_settles (x : Run α) : x.attempt.Settles ↔ x.Settles := by
  cases x <;> simp [attempt]

@[simp]
theorem attempt_yields_ok (x : Run α) (a : α) : x.attempt.Yields (.ok a) ↔ x.Yields a := by
  cases x <;> simp [attempt]

@[simp]
theorem attempt_yields_error (x : Run α) (e : Failure)
    : x.attempt.Yields (.error e) ↔ x.FailsWith e := by
  cases x <;> simp [attempt]

@[simp]
theorem not_attempt_failsWith (x : Run α) (e : Failure) : ¬ x.attempt.FailsWith e := by
  cases x <;> simp [attempt]

theorem Settles.exists_result {x : Run α} (h : x.Settles) : ∃ result, x.attempt.Yields result := by
  rcases (settles_iff x).mp h with ⟨a, ha⟩ | ⟨e, he⟩
  · exact ⟨.ok a, (attempt_yields_ok x a).mpr ha⟩
  · exact ⟨.error e, (attempt_yields_error x e).mpr he⟩

theorem exists_attempt_yields (x : Run α) (p : Except Failure α → Prop)
    : (∃ result, x.attempt.Yields result ∧ p result) ↔
        (∃ a, x.Yields a ∧ p (.ok a)) ∨ ∃ e, x.FailsWith e ∧ p (.error e) := by
  constructor
  · rintro ⟨result, hx, hp⟩
    cases result with
    | ok a => exact .inl ⟨a, by simpa using hx, hp⟩
    | error e => exact .inr ⟨e, by simpa using hx, hp⟩
  · rintro (⟨a, hx, hp⟩ | ⟨e, hx, hp⟩)
    · exact ⟨.ok a, by simpa using hx, hp⟩
    · exact ⟨.error e, by simpa using hx, hp⟩

theorem forall_attempt_yields (x : Run α) (p : Except Failure α → Prop)
    : (∀ result, x.attempt.Yields result → p result) ↔
        (∀ a, x.Yields a → p (.ok a)) ∧ ∀ e, x.FailsWith e → p (.error e) := by
  constructor
  · intro h
    exact ⟨fun a hx => h _ (by simpa using hx), fun e hx => h _ (by simpa using hx)⟩
  · rintro ⟨hok, herror⟩ result hx
    cases result with
    | ok a => exact hok a (by simpa using hx)
    | error e => exact herror e (by simpa using hx)

@[simp]
theorem toEventually_eq_ok (x : Run α) (a : α)
    : x.toEventually.run = some (.ok a) ↔ x.Yields a := by
  cases x <;> simp [toEventually, ExceptT.run, ExceptT.mk]

@[simp]
theorem toEventually_eq_error (x : Run α) (e : Failure)
    : x.toEventually.run = some (.error e) ↔ x.FailsWith e := by
  cases x <;> simp [toEventually, ExceptT.run, ExceptT.mk]

@[simp]
theorem toEventually_eq_none (x : Run α) : x.toEventually.run = none ↔ ¬ x.Settles := by
  cases x <;> simp [toEventually, ExceptT.run, ExceptT.mk]

end Run

end GrammarKit
