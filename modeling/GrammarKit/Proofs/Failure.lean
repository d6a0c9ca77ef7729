import GrammarKit.Failure
import Mathlib.Data.List.Perm.Basic

/-!
This module contains the location of failures that are put together. It depends on the locations of
the single failures alone, and for the latest of them not even on their order.
-/

namespace GrammarKit

namespace Location

instance : Std.IsLinearOrder Location where
  le_refl := le_refl
  le_trans _ _ _ := le_trans
  le_antisymm _ _ := le_antisymm
  le_total := le_total

instance : Std.LawfulOrderMax Location where
  max_le_iff a b c := by
    simp only [max, le_def]
    split <;> omega
  max_eq_or a b := by
    simp only [max]
    split
    · exact .inr rfl
    · exact .inl rfl

theorem le_of_lt {a b : Location} (h : a < b) : a ≤ b := by
  simp only [le_def, lt_def] at *
  omega

theorem max?_eq_of_perm {locs locs' : List Location} (h : locs.Perm locs')
    : locs.max? = locs'.max? := by
  apply Option.ext
  intro loc
  rw [List.max?_eq_some_iff, List.max?_eq_some_iff, h.mem_iff]
  simp only [h.mem_iff]

theorem max?_append (locs locs' : List Location)
    : (locs ++ locs').max? = locs.max?.merge max locs'.max? := by
  induction locs with
  | nil => simp
  | cons loc locs ih =>
    rw [List.cons_append, List.max?_cons, List.max?_cons, ih]
    cases locs.max? with
    | none => cases locs'.max? <;> simp
    | some greatest => cases locs'.max? <;> simp [Std.Associative.assoc]

theorem max?_toList (loc : Option Location) : loc.toList.max? = loc := by
  cases loc <;> rfl

end Location

namespace Failure

variable {errors errors' : List Failure} {choose : List Location → Option Location}

theorem aggregateBy_location
    : (aggregateBy choose errors).location =
        if errors = [] then none else choose (errors.filterMap location) := by
  unfold aggregateBy
  cases errors with
  | nil => rfl
  | cons e errors =>
    simp only [List.isEmpty_cons, Bool.false_eq_true, ↓reduceIte, reduceCtorEq]
    split
    · next h => exact h.symm
    · next h => exact h.symm

theorem aggregateBy_location_eq_of_perm
    (hchoose : ∀ {locs locs' : List Location}, locs.Perm locs' → choose locs = choose locs')
    (h : (errors.map location).Perm (errors'.map location))
    : (aggregateBy choose errors).location = (aggregateBy choose errors').location := by
  have hempty : errors = [] ↔ errors' = [] := by
    rw [← List.length_eq_zero_iff, ← List.length_eq_zero_iff]
    simpa using congrArg (· = 0) h.length_eq
  have hlocs : (errors.filterMap location).Perm (errors'.filterMap location) := by
    simpa [List.filterMap_map] using h.filterMap id
  rw [aggregateBy_location, aggregateBy_location, hchoose hlocs]
  simp only [hempty]

theorem latest_location (errors : List Failure)
    : (aggregateBy Furthest.latest.choose errors).location = (errors.filterMap location).max? := by
  rw [aggregateBy_location]
  split
  · next h =>
    rw [h]
    rfl
  · rfl

/-- The latest of the failures is one of them. -/
theorem exists_of_latest_location {loc : Location}
    (h : (aggregateBy Furthest.latest.choose errors).location = some loc)
    : ∃ e ∈ errors, e.location = some loc := by
  rw [latest_location] at h
  exact List.mem_filterMap.mp (List.max?_mem h)

theorem latest_location_eq_none
    : (aggregateBy Furthest.latest.choose errors).location = none ↔
        ∀ e ∈ errors, e.location = none := by
  rw [latest_location, List.max?_eq_none_iff, List.filterMap_eq_nil_iff]

/-- Failures may be put together in advance where others are put together. -/
theorem latest_location_nested (before inner after : List Failure)
    : (aggregateBy Furthest.latest.choose
          (before ++ aggregateBy Furthest.latest.choose inner :: after)).location =
        (aggregateBy Furthest.latest.choose (before ++ inner ++ after)).location := by
  have hinner : (aggregateBy Furthest.latest.choose inner :: after).filterMap location =
      (inner.filterMap location).max?.toList ++ after.filterMap location := by
    rw [List.filterMap_cons, ← latest_location inner]
    cases (aggregateBy Furthest.latest.choose inner).location <;> rfl
  rw [latest_location, latest_location, List.append_assoc]
  simp only [List.filterMap_append, hinner, Location.max?_append, Location.max?_toList]

end Failure

end GrammarKit
