import GrammarKit.Run

/-!
This module contains how a result that depends on another one comes about.
-/

namespace GrammarKit

theorem mapError_eq_ok {ε ε' α : Type} {g : ε → ε'} {x : Except ε α} {a : α}
    : x.mapError g = .ok a ↔ x = .ok a := by
  match x with
  | .error e =>
    show (Except.error (g e) : Except ε' α) = .ok a ↔ _
    simp
  | .ok b =>
    show (Except.ok b : Except ε' α) = .ok a ↔ _
    simp

theorem bind_eq_ok {ε α β : Type} {x : Except ε α} {f : α → Except ε β} {b : β}
    : x >>= f = .ok b ↔ ∃ a, x = .ok a ∧ f a = .ok b := by
  match x with
  | .error e =>
    show (Except.error e : Except ε β) = .ok b ↔ _
    simp
  | .ok a =>
    show f a = .ok b ↔ _
    simp

theorem mapError_bind {ε ε' α β : Type} (g : ε → ε') (x : Except ε α) (f : α → Except ε β)
    : (x >>= f).mapError g = x.mapError g >>= fun a => (f a).mapError g := by
  cases x <;> rfl

theorem map_fst_eq_ok {ε α β : Type} {x : Except ε (α × β)} {a : α}
    : Prod.fst <$> x = .ok a ↔ ∃ b, x = .ok (a, b) := by
  match x with
  | .error e =>
    show (Except.error e : Except ε α) = .ok a ↔ _
    simp
  | .ok (c, d) =>
    show (Except.ok c : Except ε α) = .ok a ↔ _
    simp

namespace Eventually

variable {ε α β : Type} {x : Eventually ε α} {f : α → Eventually ε β}

theorem run_bind (x : Eventually ε α) (f : α → Eventually ε β)
    : (x >>= f).run =
        match x.run with
        | none => none
        | some (.error e) => some (.error e)
        | some (.ok a) => (f a).run := by
  rw [ExceptT.run_bind]
  match x.run with
  | none => rfl
  | some (.error e) => rfl
  | some (.ok a) => rfl

theorem bind_of_ok {a : α} (h : x.run = some (.ok a)) : (x >>= f).run = (f a).run := by
  rw [run_bind, h]

theorem bind_eq_ok {b : β}
    : (x >>= f).run = some (.ok b) ↔
        ∃ a, x.run = some (.ok a) ∧ (f a).run = some (.ok b) := by
  rw [run_bind]
  match x.run with
  | none => simp
  | some (.error e) => simp
  | some (.ok a) => simp

theorem map_eq_ok {g : α → β} {b : β}
    : (g <$> x).run = some (.ok b) ↔ ∃ a, x.run = some (.ok a) ∧ g a = b := by
  rw [ExceptT.run_map]
  match x.run with
  | none => simp
  | some (.error e) => simp [Except.map]
  | some (.ok a) => simp [Except.map]

theorem bind_ne_none (hx : x.run ≠ none) (hf : ∀ a, x.run = some (.ok a) → (f a).run ≠ none)
    : (x >>= f).run ≠ none := by
  rw [run_bind]
  cases h : x.run with
  | none => exact absurd h hx
  | some result =>
    cases result with
    | error e => simp
    | ok a => exact hf a h

@[simp]
theorem run_ofExcept (result : Except ε α)
    : (MonadExcept.ofExcept result : Eventually ε α).run = some result := by
  cases result <;> rfl

theorem run_adapt {ε' : Type} (g : ε → ε') (x : Eventually ε α)
    : (x.adapt g).run = x.run.map (Except.mapError g) := rfl

theorem adapt_eq_ok {ε' : Type} {g : ε → ε'} {a : α}
    : (x.adapt g).run = some (.ok a) ↔ x.run = some (.ok a) := by
  rw [run_adapt]
  match x.run with
  | none => simp
  | some result => simp [mapError_eq_ok]

theorem adapt_ne_none {ε' : Type} {g : ε → ε'} (hx : x.run ≠ none) : (x.adapt g).run ≠ none := by
  rw [run_adapt, ne_eq, Option.map_eq_none_iff]
  exact hx

/-- What settles ends in exactly one of a value and a failure. -/
theorem exists_error (hx : x.run ≠ none) (hok : ∀ a, x.run ≠ some (.ok a))
    : ∃ e, x.run = some (.error e) := by
  match h : x.run with
  | none => exact absurd h hx
  | some (.error e) => exact ⟨e, rfl⟩
  | some (.ok a) => exact absurd h (hok a)

end Eventually

end GrammarKit
