import GrammarKit.Proofs.Failure
import GrammarKit.Proofs.Recognizer.Outcome

/-!
This module contains what a choice comes to in terms of the results of its alternatives, and how a
choice within a choice differs from a single one: it may decide, on its own, what is ambiguous
otherwise.
-/

namespace GrammarKit

open Recognizer Domain

variable {ι ω μ : Type}

namespace Recognizer

section Results

variable (rs rs' : List (Except Failure ω))

theorem successes_append : successes (rs ++ rs') = successes rs ++ successes rs' := by
  induction rs with
  | nil => rfl
  | cons r rs ih =>
    cases r with
    | ok output => simp [successes, ih]
    | error e => simp [successes, ih]

theorem failures_append : failures (rs ++ rs') = failures rs ++ failures rs' := by
  induction rs with
  | nil => rfl
  | cons r rs ih =>
    cases r with
    | ok output => simp [failures, ih]
    | error e => simp [failures, ih]

end Results

variable {m : Recognizer ι ω μ} {rules xs ys zs : List (Rule μ)} {input : ι}
variable {rs rx ry rz : List (Except Failure ω)} {r : Except Failure ω}

/-- The rules come to these results, one for each. -/
def Tried (m : Recognizer ι ω μ) (input : ι) (rules : List (Rule μ))
    (rs : List (Except Failure ω)) : Prop :=
  List.Forall₂ (fun rule r => (m.eval rule input).attempt.Yields r) rules rs

theorem exists_tried (h : ∀ rule ∈ rules, (m.eval rule input).Settles)
    : ∃ rs, m.Tried input rules rs := by
  rw [← results_settles, Run.settles_iff] at h
  rcases h with ⟨rs, hrs⟩ | ⟨e, he⟩
  · exact ⟨rs, results_yields.mp hrs⟩
  · exact absurd he (not_results_failsWith e)

namespace Tried

theorem exists_two (h : m.Tried input rules rs) (htwo : 2 ≤ (successes rs).length)
    : ∃ first second, [first, second].Sublist rules ∧ (∃ x, (m.eval first input).Yields x) ∧
        ∃ y, (m.eval second input).Yields y := by
  induction h with
  | nil => simp [successes] at htwo
  | @cons rule r rules rs hr hrest ih =>
    cases r with
    | error e =>
      obtain ⟨first, second, hsub, hyields⟩ := ih htwo
      exact ⟨first, second, hsub.cons rule, hyields⟩
    | ok output =>
      simp only [successes, List.length_cons] at htwo
      obtain ⟨other, hother⟩ := List.exists_mem_of_length_pos (l := successes rs) (by omega)
      obtain ⟨second, hmem, hsecond⟩ :=
        results_mem (results_yields.mpr hrest) (mem_successes.mp hother)
      rw [Run.attempt_yields_ok] at hr hsecond
      have hsub := (List.singleton_sublist.mpr hmem).cons_cons rule
      exact ⟨rule, second, hsub, ⟨output, hr⟩, ⟨other, hsecond⟩⟩

variable [Lawful m.domain]

theorem eval_alt (h : m.Tried input rules rs)
    : ∃ log, m.eval (.alt rules) input = (choose m.domain input rs).after log := by
  obtain ⟨log, hlog⟩ := results_yields.mpr h
  exact ⟨log, by rw [Recognizer.eval_alt, hlog]; rfl⟩

theorem yields_iff (h : m.Tried input rules rs) {output : ω}
    : (m.eval (.alt rules) input).Yields output ↔ successes rs = [output] := by
  obtain ⟨log, heq⟩ := h.eval_alt
  rw [heq, Run.after_yields, choose_yields]

theorem failsWith_iff (h : m.Tried input rules rs) {e : Failure}
    : (m.eval (.alt rules) input).FailsWith e ↔ (choose m.domain input rs).FailsWith e := by
  obtain ⟨log, heq⟩ := h.eval_alt
  rw [heq, Run.after_failsWith]

/-- A choice adds one output where it has one to offer, and none if it fails. -/
theorem successes_alt (h : m.Tried input ys ry) (hr : (m.eval (.alt ys) input).attempt.Yields r)
    : successes [r] = successes ry ∨ 2 ≤ (successes ry).length ∧ successes [r] = [] := by
  cases r with
  | ok output =>
    rw [Run.attempt_yields_ok, h.yields_iff] at hr
    exact .inl hr.symm
  | error e =>
    rw [Run.attempt_yields_error, h.failsWith_iff, choose_failsWith] at hr
    rcases hr with ⟨hnone, _⟩ | ⟨htwo, _⟩
    · exact .inl hnone.symm
    · exact .inr ⟨htwo, rfl⟩

end Tried

variable [Lawful m.domain]

/-- The results of a single choice and of one within another, where all alternatives settle. -/
theorem exists_tried_nested (h : ∀ rule ∈ xs ++ ys ++ zs, (m.eval rule input).Settles)
    : ∃ rx ry rz r, m.Tried input ys ry ∧ (m.eval (.alt ys) input).attempt.Yields r ∧
        m.Tried input (xs ++ ys ++ zs) (rx ++ ry ++ rz) ∧
        m.Tried input (xs ++ .alt ys :: zs) (rx ++ [r] ++ rz) := by
  simp only [List.forall_mem_append] at h
  obtain ⟨⟨hx, hy⟩, hz⟩ := h
  obtain ⟨rx, hrx⟩ := exists_tried hx
  obtain ⟨ry, hry⟩ := exists_tried hy
  obtain ⟨rz, hrz⟩ := exists_tried hz
  obtain ⟨r, hr⟩ := (eval_alt_settles.mpr hy).exists_result
  refine ⟨rx, ry, rz, r, hry, hr, ?_, ?_⟩
  · exact List.rel_append (List.rel_append hrx hry) hrz
  · rw [List.append_assoc]
    exact List.rel_append hrx (.cons hr hrz)

theorem alt_nested_yields {output : ω}
    (h : (m.eval (.alt (xs ++ ys ++ zs)) input).Yields output)
    : (m.eval (.alt (xs ++ .alt ys :: zs)) input).Yields output := by
  obtain ⟨rx, ry, rz, r, hry, hr, hflat, hnested⟩ :=
    exists_tried_nested (eval_alt_settles.mp h.settles)
  rw [hflat.yields_iff] at h
  rw [hnested.yields_iff]
  simp only [successes_append] at h ⊢
  rcases hry.successes_alt hr with hsame | ⟨htwo, _⟩
  · rw [hsame, h]
  · have hlength := congrArg List.length h
    simp only [List.length_append, List.length_singleton] at hlength
    omega

theorem alt_ambiguous_of_nested {output : ω}
    (h : (m.eval (.alt (xs ++ .alt ys :: zs)) input).Yields output)
    (hflat : ∀ output, ¬ (m.eval (.alt (xs ++ ys ++ zs)) input).Yields output)
    : (∃ first second, [first, second].Sublist ys ∧ (∃ x, (m.eval first input).Yields x) ∧
          ∃ y, (m.eval second input).Yields y) ∧
        ∃ outputs, 2 ≤ outputs.length ∧
          (m.eval (.alt (xs ++ ys ++ zs)) input).FailsWith
            (m.domain.failureAt input (ambiguous m.domain outputs)) := by
  have hsettles : ∀ rule ∈ xs ++ ys ++ zs, (m.eval rule input).Settles := by
    have hsettles := eval_alt_settles.mp h.settles
    simp only [List.forall_mem_append, List.forall_mem_cons, eval_alt_settles] at hsettles ⊢
    obtain ⟨hx, hy, hz⟩ := hsettles
    exact ⟨⟨hx, hy⟩, hz⟩
  obtain ⟨rx, ry, rz, r, hry, hr, htried, hnested⟩ := exists_tried_nested hsettles
  rw [hnested.yields_iff] at h
  have hfails := hflat output
  rw [htried.yields_iff] at hfails
  simp only [successes_append] at h hfails
  rcases hry.successes_alt hr with hsame | ⟨htwo, _⟩
  · rw [hsame] at h
    exact absurd h hfails
  · refine ⟨hry.exists_two htwo, successes (rx ++ ry ++ rz), ?_, ?_⟩
    · simp only [successes_append, List.length_append]
      omega
    · rw [htried.failsWith_iff, choose_failsWith]
      refine .inr ⟨?_, rfl⟩
      simp only [successes_append, List.length_append]
      omega

theorem alt_nested_location (hlatest : m.domain.furthest = Furthest.latest.choose)
    (h : ∀ rule ∈ xs ++ ys ++ zs, (m.eval rule input).Fails)
    : ∃ e e', (m.eval (.alt (xs ++ ys ++ zs)) input).FailsWith e ∧
        (m.eval (.alt (xs ++ .alt ys :: zs)) input).FailsWith e' ∧ e.location = e'.location := by
  obtain ⟨rx, ry, rz, r, hry, hr, hflat, hnested⟩ :=
    exists_tried_nested fun rule hrule => (h rule hrule).settles
  have hnone := (successes_eq_nil hflat).mpr h
  simp only [successes_append, List.append_eq_nil_iff] at hnone
  obtain ⟨⟨hx, hy⟩, hz⟩ := hnone
  -- the inner choice fails with what its alternatives fail with, put together
  have hinner : (m.eval (.alt ys) input).FailsWith
      (Failure.aggregateBy m.domain.furthest (failures ry)) :=
    hry.failsWith_iff.mpr (choose_failsWith.mpr (.inl ⟨hy, rfl⟩))
  cases r with
  | ok output =>
    rw [Run.attempt_yields_ok] at hr
    exact absurd hinner.fails hr.not_fails
  | error e =>
    rw [Run.attempt_yields_error] at hr
    cases hr.unique hinner
    refine ⟨_, _, hflat.failsWith_iff.mpr (choose_failsWith.mpr (.inl ⟨?_, rfl⟩)),
      hnested.failsWith_iff.mpr (choose_failsWith.mpr (.inl ⟨?_, rfl⟩)), ?_⟩
    · simp [successes_append, hx, hy, hz]
    · simp [successes_append, hx, hz, successes]
    · simp only [failures_append, failures, hlatest, List.append_assoc, List.singleton_append]
      rw [Failure.latest_location_nested, List.append_assoc]

end Recognizer

end GrammarKit
