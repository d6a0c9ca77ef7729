import GrammarKit.Proofs.Distinct
import GrammarKit.Proofs.Failure

/-!
This module contains the laws of failures that are put together. Only those that got furthest count:
what is said of all of them is made of their messages, and it stays the same when failures are
repeated, put together in advance, or joined by others that got less far.
-/

namespace GrammarKit

namespace Failure

/-- A single message stands alone, several are listed in brackets. -/
def listed : List String → String
  | [m] => m
  | ms => "[" ++ ", ".intercalate ms ++ "]"

/-- What is said at a location or, where there is none, by those without a location. -/
def messagesAt (loc : Option Location) (errors : List Failure) : List String :=
  (errors.filter fun e => e.location == loc).map message

/-- What those that got furthest say. -/
def reports (errors : List Failure) : List String :=
  (messagesAt (aggregate errors).location errors).eraseDups

variable {errors others before after : List Failure} {e : Failure} {loc : Location}

theorem eq_of_message_of_location {e e' : Failure} (hmessage : e.message = e'.message)
    (hlocation : e.location = e'.location)
    : e = e' := by
  cases e
  cases e'
  rw [mk.injEq]
  exact ⟨hmessage, hlocation⟩

theorem joinMessages_eq (errors : List Failure)
    : joinMessages errors = listed (errors.map message).eraseDups := by
  unfold joinMessages
  generalize (errors.map message).eraseDups = ms
  rcases ms with _ | ⟨m, _ | ⟨m', rest⟩⟩
  · rfl
  · rfl
  · rfl

theorem aggregate_location (errors : List Failure)
    : (aggregate errors).location = (errors.filterMap location).max? :=
  latest_location errors

theorem aggregate_location_eq_some
    : (aggregate errors).location = some loc ↔
        (∃ e ∈ errors, e.location = some loc) ∧
          ∀ e ∈ errors, ∀ loc', e.location = some loc' → loc' ≤ loc := by
  rw [aggregate_location, List.max?_eq_some_iff, List.mem_filterMap]
  apply and_congr_right
  intro _
  constructor
  · intro h e he loc' hloc'
    exact h loc' (List.mem_filterMap.mpr ⟨e, he, hloc'⟩)
  · intro h loc' hmem
    obtain ⟨e, he, hloc'⟩ := List.mem_filterMap.mp hmem
    exact h e he loc' hloc'

theorem aggregate_location_eq_none
    : (aggregate errors).location = none ↔ ∀ e ∈ errors, e.location = none :=
  latest_location_eq_none

theorem aggregate_location_eq_of_perm (h : errors.Perm others)
    : (aggregate errors).location = (aggregate others).location :=
  aggregateBy_location_eq_of_perm Location.max?_eq_of_perm (h.map location)

theorem aggregate_message (h : errors ≠ [])
    : (aggregate errors).message = listed (reports errors) := by
  have hloc := aggregate_location errors
  unfold reports messagesAt
  rw [← joinMessages_eq, hloc]
  unfold aggregate aggregateBy
  rw [List.isEmpty_eq_false_iff.mpr h]
  simp only [Furthest.choose]
  cases hmax : (errors.filterMap location).max? with
  | some loc => rfl
  | none =>
    -- nothing has a location, so that all are at the same one
    have hnone := aggregate_location_eq_none.mp (hloc.trans hmax)
    have hall : (errors.filter fun e => e.location == none) = errors :=
      List.filter_eq_self.mpr fun e he => beq_iff_eq.mpr (hnone e he)
    rw [hall]
    rfl

theorem aggregate_congr (herrors : errors ≠ []) (hothers : others ≠ [])
    (hloc : (aggregate errors).location = (aggregate others).location)
    (hreports : reports errors = reports others)
    : aggregate errors = aggregate others := by
  apply eq_of_message_of_location _ hloc
  rw [aggregate_message herrors, aggregate_message hothers, hreports]

theorem messagesAt_append (loc : Option Location) (errors others : List Failure)
    : messagesAt loc (errors ++ others) = messagesAt loc errors ++ messagesAt loc others := by
  simp only [messagesAt, List.filter_append, List.map_append]

theorem aggregate_singleton (e : Failure) : aggregate [e] = e := by
  have hloc : (aggregate [e]).location = e.location := by
    rw [aggregate_location]
    cases h : e.location <;> simp [h]
  have hreports : reports [e] = [e.message] := by
    simp [reports, messagesAt, hloc, List.eraseDups_cons]
  apply eq_of_message_of_location _ hloc
  rw [aggregate_message (List.cons_ne_nil e []), hreports, listed]

theorem aggregate_append_self (errors : List Failure)
    : aggregate (errors ++ errors) = aggregate errors := by
  by_cases h : errors = []
  · rw [h]
    rfl
  · have hloc : (aggregate (errors ++ errors)).location = (aggregate errors).location := by
      apply Option.ext
      intro loc
      simp only [aggregate_location_eq_some, List.mem_append, or_self]
    apply aggregate_congr (by simp [h]) h hloc
    rw [reports, hloc, messagesAt_append, eraseDups_append_self]
    rfl

/-- Failures that got less far are left out. -/
theorem aggregate_insert (hloc : (aggregate (before ++ after)).location = some loc)
    (he : ∀ loc', e.location = some loc' → loc' < loc)
    : aggregate (before ++ e :: after) = aggregate (before ++ after) := by
  obtain ⟨⟨furthest, hfurthest, hat⟩, hle⟩ := aggregate_location_eq_some.mp hloc
  have hperm : (before ++ e :: after).Perm (e :: (before ++ after)) := List.perm_middle
  have hloc' : (aggregate (before ++ e :: after)).location = some loc := by
    rw [aggregate_location_eq_of_perm hperm, aggregate_location_eq_some, List.forall_mem_cons]
    refine ⟨⟨furthest, List.mem_cons_of_mem e hfurthest, hat⟩, ?_, hle⟩
    intro loc' hlocated
    exact Location.le_of_lt (he loc' hlocated)
  have hother : (e.location == some loc) = false := by
    apply beq_false_of_ne
    intro hlocated
    exact Location.lt_iff_not_le.mp (he loc hlocated) (Location.le_refl loc)
  have hne : before ++ after ≠ [] := List.ne_nil_of_mem hfurthest
  apply aggregate_congr (by simp) hne (hloc'.trans hloc.symm)
  rw [reports, reports, hloc, hloc', messagesAt_append, messagesAt_append, messagesAt,
    messagesAt, messagesAt, List.filter_cons_of_neg (by simp [hother])]

theorem reports_perm (h : errors.Perm others) : (reports errors).Perm (reports others) := by
  rw [reports, reports, aggregate_location_eq_of_perm h]
  exact eraseDups_perm ((h.filter _).map _)

theorem aggregate_location_pair (errors others : List Failure)
    : (aggregate [aggregate errors, aggregate others]).location =
        (aggregate (errors ++ others)).location := by
  calc
    (aggregate [aggregate errors, aggregate others]).location =
        (aggregate (errors ++ [aggregate others])).location :=
      latest_location_nested [] errors [aggregate others]
    _ = (aggregate (errors ++ others ++ [])).location := latest_location_nested errors others []
    _ = (aggregate (errors ++ others)).location := by rw [List.append_nil]

/-- What is known of failures that are put together. -/
structure Gathers (errors others : List Failure) : Prop where
  located : ∀ loc, (aggregate errors).location = some loc ↔
    (∃ e ∈ errors, e.location = some loc) ∧
      ∀ e ∈ errors, ∀ loc', e.location = some loc' → loc' ≤ loc
  unlocated : (aggregate errors).location = none ↔ ∀ e ∈ errors, e.location = none
  message : errors ≠ [] → (aggregate errors).message = listed (reports errors)
  distinct : Distinct (messagesAt (aggregate errors).location errors) (reports errors)
  repeated : aggregate (errors ++ errors) = aggregate errors
  again : aggregate [aggregate errors] = aggregate errors
  inserted : ∀ before after e loc, errors = before ++ after →
    (aggregate errors).location = some loc → (∀ loc', e.location = some loc' → loc' < loc) →
      aggregate (before ++ e :: after) = aggregate errors
  permuted : ∀ errors', errors.Perm errors' →
    (aggregate errors').location = (aggregate errors).location ∧
      (reports errors').Perm (reports errors)
  nested : (aggregate [aggregate errors, aggregate others]).location =
    (aggregate (errors ++ others)).location

theorem aggregation_laws (errors others : List Failure) : Gathers errors others where
  located _ := aggregate_location_eq_some
  unlocated := aggregate_location_eq_none
  message := aggregate_message
  distinct := distinct_eraseDups _
  repeated := aggregate_append_self errors
  again := aggregate_singleton _
  inserted := by
    rintro before after e loc rfl hloc he
    exact aggregate_insert hloc he
  permuted errors' h := ⟨aggregate_location_eq_of_perm h.symm, reports_perm h.symm⟩
  nested := aggregate_location_pair errors others

/-- Neither what has no location nor what is said again further back is heard. -/
theorem aggregation_laws_inserted
    : aggregate [⟨"c", some ⟨0, 2⟩⟩, ⟨"e", none⟩, ⟨"d", some ⟨0, 2⟩⟩, ⟨"c", some ⟨0, 2⟩⟩] =
        ⟨"[c, d]", some ⟨0, 2⟩⟩ := by
  let before : List Failure := [⟨"c", some ⟨0, 2⟩⟩]
  let after : List Failure := [⟨"d", some ⟨0, 2⟩⟩, ⟨"c", some ⟨0, 2⟩⟩]
  have hlocated : aggregate (before ++ after) = ⟨"[c, d]", some ⟨0, 2⟩⟩ := by decide
  rw [← hlocated]
  apply (aggregation_laws (before ++ after) []).inserted before after _ ⟨0, 2⟩ rfl
  · rw [hlocated]
  · simp

end Failure

end GrammarKit
