import GrammarKit.Proofs.Run.Outcome

/-!
This module contains the order of runs by how far they have got, and limits: what runs under ever
greater bounds come to in the end.
-/

namespace GrammarKit

namespace Run

variable {α β : Type}

instance : LE (Run α) where
  le x y := x = .unsettled ∨ x = y

theorem le_def (x y : Run α) : x ≤ y ↔ x = .unsettled ∨ x = y := Iff.rfl

theorem le_refl (x : Run α) : x ≤ x := .inr rfl

@[simp]
theorem unsettled_le (x : Run α) : unsettled ≤ x := .inl rfl

theorem le_trans {x y z : Run α} (hxy : x ≤ y) (hyz : y ≤ z) : x ≤ z := by
  rcases hxy with rfl | rfl
  · exact .inl rfl
  · exact hyz

theorem eq_of_le {x y : Run α} (h : x ≤ y) (hx : x.Settles) : x = y := by
  rcases h with h | h
  · exact absurd h hx
  · exact h

theorem le_antisymm {x y : Run α} (hxy : x ≤ y) (hyx : y ≤ x) : x = y := by
  rcases hxy with rfl | h
  · rcases hyx with h | h
    · exact h.symm
    · exact h.symm
  · exact h

theorem le_iff (x y : Run α) : x ≤ y ↔ (x.Settles → x = y) := by
  rw [le_def, Settles]
  by_cases h : x = .unsettled <;> simp [h]

theorem andThen_le {x y : Run α} {f g : α → Run β} (hxy : x ≤ y)
    (hfg : ∀ a, x.Yields a → f a ≤ g a)
    : x.andThen f ≤ y.andThen g := by
  rcases hxy with rfl | rfl
  · apply unsettled_le
  · match x with
    | .unsettled => exact unsettled_le _
    | .settled (.error e) log => exact le_refl _
    | .settled (.ok a) log =>
      rcases hfg a (by simp) with h | h
      · simp [andThen, h, after]
      · simp [andThen, h, le_refl]

theorem attempt_le {x y : Run α} (h : x ≤ y) : x.attempt ≤ y.attempt := by
  rcases h with rfl | rfl
  · apply unsettled_le
  · apply le_refl

/-- The runs `xs` grow, and `x` is what they come to. -/
structure IsLimit (xs : Nat → Run α) (x : Run α) : Prop where
  mono : ∀ {n k}, n ≤ k → xs n ≤ xs k
  le : ∀ n, xs n ≤ x
  reached : x.Settles → ∃ n, xs n = x

namespace IsLimit

theorem const (x : Run α) : IsLimit (fun _ => x) x where
  mono _ := le_refl x
  le _ := le_refl x
  reached _ := ⟨0, rfl⟩

theorem settled_at {xs : Nat → Run α} {x : Run α} (h : IsLimit xs x) (hx : x.Settles)
    : ∃ n, ∀ k, n ≤ k → xs k = x := by
  obtain ⟨n, hn⟩ := h.reached hx
  refine ⟨n, fun k hk => le_antisymm (h.le k) ?_⟩
  rw [← hn]
  exact h.mono hk

theorem le_at {xs : Nat → Run α} {x : Run α} (h : IsLimit xs x) : ∃ n, x ≤ xs n := by
  by_cases hx : x.Settles
  · obtain ⟨n, hn⟩ := h.reached hx
    exact ⟨n, .inr hn.symm⟩
  · exact ⟨0, .inl (Classical.not_not.mp hx)⟩

/-- There is a bound under which two runs have got as far as they ever will. -/
theorem exists_eq {xs : Nat → Run α} {ys : Nat → Run β} {x : Run α} {y : Run β}
    (hx : IsLimit xs x) (hy : IsLimit ys y)
    : ∃ n, xs n = x ∧ ys n = y := by
  obtain ⟨n, hn⟩ := hx.le_at
  obtain ⟨k, hk⟩ := hy.le_at
  refine ⟨max n k, le_antisymm (hx.le _) ?_, le_antisymm (hy.le _) ?_⟩
  · exact le_trans hn (hx.mono (Nat.le_max_left n k))
  · exact le_trans hk (hy.mono (Nat.le_max_right n k))

theorem settles_iff {xs : Nat → Run α} {x : Run α} (h : IsLimit xs x)
    : x.Settles ↔ ∃ n, (xs n).Settles := by
  constructor
  · intro hx
    obtain ⟨n, hn⟩ := h.reached hx
    exact ⟨n, hn ▸ hx⟩
  · rintro ⟨n, hn⟩
    exact eq_of_le (h.le n) hn ▸ hn

theorem le_of_le {xs ys : Nat → Run α} {x y : Run α} (hx : IsLimit xs x) (hy : IsLimit ys y)
    (h : ∀ n, xs n ≤ ys n)
    : x ≤ y := by
  rw [le_iff]
  intro hset
  obtain ⟨n, hn⟩ := hx.reached hset
  exact eq_of_le (hn ▸ le_trans (h n) (hy.le n)) hset

theorem unique {xs : Nat → Run α} {x y : Run α} (hx : IsLimit xs x) (hy : IsLimit xs y) : x = y :=
  le_antisymm (hx.le_of_le hy fun n => le_refl (xs n)) (hy.le_of_le hx fun n => le_refl (xs n))

theorem tail {xs : Nat → Run α} {x : Run α} (h : IsLimit xs x) : IsLimit (fun n => xs (n + 1)) x where
  mono hnk := h.mono (by omega)
  le n := h.le (n + 1)
  reached hx := by
    obtain ⟨n, hn⟩ := h.settled_at hx
    exact ⟨n, hn (n + 1) (by omega)⟩

/-- Two bounds that grow together reach what the first reaches where the second is large enough. -/
theorem diagonal (xs : Nat → Nat → Run α) {x : Run α} (rounds : Nat)
    (h : IsLimit (fun n => xs n rounds) x)
    (mono : ∀ {n n' k k'}, n ≤ n' → k ≤ k' → xs n k ≤ xs n' k') (le : ∀ n k, xs n k ≤ x)
    : IsLimit (fun n => xs n (n + 1)) x where
  mono hnk := mono hnk (by omega)
  le n := le n (n + 1)
  reached hx := by
    obtain ⟨n, hn⟩ := h.reached hx
    -- both bounds at once are no less than the two under which `x` is reached
    have hle : xs n rounds ≤ xs (max n rounds) (max n rounds + 1) := mono (by omega) (by omega)
    simp only [hn] at hle
    exact ⟨max n rounds, (eq_of_le hle hx).symm⟩

theorem andThen {xs : Nat → Run α} {x : Run α} {fs : Nat → α → Run β} {f : α → Run β}
    (hx : IsLimit xs x) (hf : ∀ a, x.Yields a → IsLimit (fun n => fs n a) (f a))
    : IsLimit (fun n => (xs n).andThen (fs n)) (x.andThen f) where
  mono {n k} hnk := by
    apply andThen_le (hx.mono hnk)
    intro a ha
    have hvalue : x.Yields a := eq_of_le (hx.le n) ha.settles ▸ ha
    exact (hf a hvalue).mono hnk
  le n := by
    apply andThen_le (hx.le n)
    intro a ha
    have hvalue : x.Yields a := eq_of_le (hx.le n) ha.settles ▸ ha
    exact (hf a hvalue).le n
  reached hset := by
    rw [andThen_settles] at hset
    obtain ⟨n, hn⟩ := hx.settled_at hset.1
    match x with
    | .unsettled => simp at hset
    | .settled (.error e) log =>
      refine ⟨n, ?_⟩
      rw [hn n (Nat.le_refl n)]
      rfl
    | .settled (.ok a) log =>
      obtain ⟨k, hk⟩ := (hf a (by simp)).settled_at (hset.2 a (by simp))
      refine ⟨max n k, ?_⟩
      rw [hn _ (Nat.le_max_left n k)]
      simp only [Run.andThen]
      rw [hk _ (Nat.le_max_right n k)]

theorem attempt {xs : Nat → Run α} {x : Run α} (h : IsLimit xs x)
    : IsLimit (fun n => (xs n).attempt) x.attempt where
  mono hnk := attempt_le (h.mono hnk)
  le n := attempt_le (h.le n)
  reached hset := by
    rw [attempt_settles] at hset
    obtain ⟨n, hn⟩ := h.reached hset
    exact ⟨n, by rw [hn]⟩

end IsLimit

end Run

end GrammarKit
