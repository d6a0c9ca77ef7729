import GrammarKit.Proofs.Recognizer.Equations
import Mathlib.Data.List.Forall2

/-!
This module contains, for every combinator, when its evaluation yields an output, fails, and
settles.
-/

namespace GrammarKit

open Recognizer Domain

variable {ι ω μ : Type}

namespace Recognizer

section Combinators

variable {d : Domain ι ω μ} {ev : Rule μ → ι → Run ω}

theorem call_failsWith {m : Recognizer ι ω μ} {name : String} {input : ι} {e : Failure}
    : (m.call ev name input).FailsWith e ↔
        (m.rules.get? name = none ∧ e = m.domain.failureAt input (unknownRule name)) ∨
          ∃ rule, m.rules.get? name = some rule ∧
            ∃ inner, (ev rule input).FailsWith inner ∧
              e = inRule name (m.domain.location input) inner := by
  unfold call
  split
  · next h => simp [h, Domain.failAt, eq_comm]
  · next rule h => simp [h, Run.exists_attempt_yields, eq_comm]

theorem call_settles {m : Recognizer ι ω μ} {name : String} {input : ι}
    (h : ∀ rule, m.rules.get? name = some rule → (ev rule input).Settles)
    : (m.call ev name input).Settles := by
  unfold call
  split
  · apply Run.fail_settles
  · next rule hrule =>
    simp [Run.andThen_settles, Run.forall_attempt_yields, h rule hrule]

theorem sequence_cons_yields {rule : Rule μ} {rules : List (Rule μ)} {input : ι}
    {outputs : List ω}
    : (sequence d ev (rule :: rules) input).Yields outputs ↔
        ∃ output others, (ev rule input).Yields output ∧
          (sequence d ev rules (d.advance input output)).Yields others ∧
            output :: others = outputs := by
  simp [sequence]

theorem sequence_cons_fails {rule : Rule μ} {rules : List (Rule μ)} {input : ι}
    : (sequence d ev (rule :: rules) input).Fails ↔
        (ev rule input).Fails ∨
          ∃ output, (ev rule input).Yields output ∧
            (sequence d ev rules (d.advance input output)).Fails := by
  simp only [sequence, Run.bind_eq, Run.pure_eq, Run.andThen_fails]
  simp [Run.Fails]

theorem sequence_cons_settles {rule : Rule μ} {rules : List (Rule μ)} {input : ι}
    : (sequence d ev (rule :: rules) input).Settles ↔
        (ev rule input).Settles ∧
          ∀ output, (ev rule input).Yields output →
            (sequence d ev rules (d.advance input output)).Settles := by
  simp [sequence, Run.andThen_settles]

theorem results_yields {rules : List (Rule μ)} {input : ι} {rs : List (Except Failure ω)}
    : (results ev rules input).Yields rs ↔
        List.Forall₂ (fun rule r => (ev rule input).attempt.Yields r) rules rs := by
  induction rules generalizing rs with
  | nil => simp [results, eq_comm]
  | cons rule rules ih =>
    simp only [results, Run.bind_eq, Run.pure_eq, Run.andThen_yields, Run.ok_yields, ih,
      List.forall₂_cons_left_iff]
    grind

theorem not_results_failsWith {rules : List (Rule μ)} {input : ι} (e : Failure)
    : ¬ (results ev rules input).FailsWith e := by
  induction rules with
  | nil => simp [results]
  | cons rule rules ih => simp [results, ih]

theorem results_settles {rules : List (Rule μ)} {input : ι}
    : (results ev rules input).Settles ↔ ∀ rule ∈ rules, (ev rule input).Settles := by
  induction rules with
  | nil => simp [results]
  | cons rule rules ih =>
    simp only [results, Run.bind_eq, Run.pure_eq, Run.andThen_settles, Run.attempt_settles, ih,
      Run.ok_settles, implies_true, and_true, List.forall_mem_cons]
    apply and_congr_right
    intro h
    rw [Run.settles_iff] at h
    rw [Run.forall_attempt_yields]
    grind [Run.Fails]

theorem successes_eq_nil {rules : List (Rule μ)} {input : ι} {rs : List (Except Failure ω)}
    (h : List.Forall₂ (fun rule r => (ev rule input).attempt.Yields r) rules rs)
    : successes rs = [] ↔ ∀ rule ∈ rules, (ev rule input).Fails := by
  induction h with
  | nil => simp [successes]
  | @cons rule r rules rs hr _ ih =>
    cases r with
    | ok output =>
      rw [Run.attempt_yields_ok] at hr
      simp [successes, hr.not_fails]
    | error e =>
      rw [Run.attempt_yields_error] at hr
      simp [successes, ih, hr.fails]

theorem successes_eq_singleton {rules : List (Rule μ)} {input : ι} {rs : List (Except Failure ω)}
    (h : List.Forall₂ (fun rule r => (ev rule input).attempt.Yields r) rules rs) {output : ω}
    : successes rs = [output] ↔
        ∃ before rule after, rules = before ++ rule :: after ∧
          (∀ other ∈ before ++ after, (ev other input).Fails) ∧
            (ev rule input).Yields output := by
  induction h with
  | nil => simp [successes]
  | @cons rule r rules rs hr hrest ih =>
    cases r with
    | ok first =>
      -- the first rule has an output, so it must be the one, and all others fail
      rw [Run.attempt_yields_ok] at hr
      simp only [successes, List.cons.injEq]
      constructor
      · rintro ⟨rfl, hnil⟩
        exact ⟨[], rule, rules, rfl, (successes_eq_nil hrest).mp hnil, hr⟩
      · rintro ⟨before, rule', after, heq, hfails, hyields⟩
        cases before with
        | nil =>
          injection heq with hrule hrules
          subst hrule hrules
          exact ⟨hr.unique hyields, (successes_eq_nil hrest).mpr hfails⟩
        | cons other before =>
          injection heq with hrule _
          subst hrule
          exact absurd (hfails rule (by simp)) hr.not_fails
    | error e =>
      rw [Run.attempt_yields_error] at hr
      rw [successes, ih]
      constructor
      · rintro ⟨before, rule', after, rfl, hfails, hyields⟩
        refine ⟨rule :: before, rule', after, rfl, ?_, hyields⟩
        intro other hother
        rcases List.mem_cons.mp hother with rfl | hmem
        · exact hr.fails
        · exact hfails other hmem
      · rintro ⟨before, rule', after, heq, hfails, hyields⟩
        cases before with
        | nil =>
          injection heq with hrule _
          subst hrule
          exact absurd hr.fails hyields.not_fails
        | cons other before =>
          injection heq with _ hrules
          exact ⟨before, rule', after, hrules, fun o ho => hfails o (by simp_all), hyields⟩

theorem choose_failsWith {input : ι} {rs : List (Except Failure ω)} {e : Failure}
    : (choose d input rs).FailsWith e ↔
        (successes rs = [] ∧ e = Failure.aggregateBy d.furthest (failures rs)) ∨
          (2 ≤ (successes rs).length ∧
            e = d.failureAt input (ambiguous d (successes rs))) := by
  unfold choose
  split
  · next h => simp [h, eq_comm]
  · next h => simp [h]
  · next h₀ h₁ =>
    match hs : successes rs with
    | [] => exact absurd hs h₀
    | [output] => exact absurd hs (h₁ output)
    | first :: second :: rest => simp [Domain.failAt, eq_comm]

theorem choose_settles (input : ι) (rs : List (Except Failure ω))
    : (choose d input rs).Settles := by
  unfold choose
  split
  · apply Run.fail_settles
  · apply Run.ok_settles
  · apply Run.fail_settles

end Combinators

variable {m : Recognizer ι ω μ} [Lawful m.domain]

theorem eval_ref_yields {name : String} {input : ι} {output : ω}
    : (m.eval (.ref name) input).Yields output ↔
        ∃ rule inner, m.rules.get? name = some rule ∧ (m.eval rule input).Yields inner ∧
          m.domain.join [m.domain.label name inner] = output := by
  rw [eval_ref, Run.andThen_yields]
  simp only [call_yields, Run.ok_yields]
  grind

theorem eval_ref_failsWith {name : String} {input : ι} {e : Failure}
    : (m.eval (.ref name) input).FailsWith e ↔
        (m.rules.get? name = none ∧ e = m.domain.failureAt input (unknownRule name)) ∨
          ∃ rule, m.rules.get? name = some rule ∧
            ∃ inner, (m.eval rule input).FailsWith inner ∧
              e = inRule name (m.domain.location input) inner := by
  rw [eval_ref, Run.andThen_failsWith]
  simp [call_failsWith]

theorem eval_ref_settles {name : String} {input : ι}
    (h : ∀ rule, m.rules.get? name = some rule → (m.eval rule input).Settles)
    : (m.eval (.ref name) input).Settles := by
  rw [eval_ref, Run.andThen_settles]
  exact ⟨call_settles h, fun _ _ => Run.ok_settles _⟩

theorem eval_seq_yields {rules : List (Rule μ)} {input : ι} {output : ω}
    : (m.eval (.seq rules) input).Yields output ↔
        ∃ outputs, (sequence m.domain m.eval rules input).Yields outputs ∧
          m.domain.join outputs = output := by
  simp [eval_seq]

theorem eval_seq_fails {rules : List (Rule μ)} {input : ι}
    : (m.eval (.seq rules) input).Fails ↔ (sequence m.domain m.eval rules input).Fails := by
  simp [Run.Fails, eval_seq]

theorem eval_seq_settles {rules : List (Rule μ)} {input : ι}
    : (m.eval (.seq rules) input).Settles ↔ (sequence m.domain m.eval rules input).Settles := by
  simp [eval_seq, Run.andThen_settles]

theorem eval_alt_yields {rules : List (Rule μ)} {input : ι} {output : ω}
    : (m.eval (.alt rules) input).Yields output ↔
        ∃ before rule after, rules = before ++ rule :: after ∧
          (∀ other ∈ before ++ after, (m.eval other input).Fails) ∧
            (m.eval rule input).Yields output := by
  rw [eval_alt, Run.andThen_yields]
  simp only [choose_yields, results_yields]
  constructor
  · rintro ⟨rs, hrs, hone⟩
    exact (successes_eq_singleton hrs).mp hone
  · rintro ⟨before, rule, after, rfl, hfails, hyields⟩
    -- the results of all rules are asked for first, so every one of them has to settle
    have hset : ∀ r ∈ before ++ rule :: after, (m.eval r input).Settles := by
      intro r hr
      simp only [List.mem_append, List.mem_cons] at hr hfails
      rcases hr with h | rfl | h
      · exact (hfails r (.inl h)).settles
      · exact hyields.settles
      · exact (hfails r (.inr h)).settles
    rcases (Run.settles_iff _).mp (results_settles.mpr hset) with ⟨rs, hrs⟩ | ⟨e, he⟩
    · rw [results_yields] at hrs
      exact ⟨rs, hrs, (successes_eq_singleton hrs).mpr ⟨before, rule, after, rfl, hfails, hyields⟩⟩
    · exact absurd he (not_results_failsWith e)

theorem eval_alt_refs_yields {names : List String} (hnodup : names.Nodup) {input : ι} {output : ω}
    : (m.eval (.alt (names.map .ref)) input).Yields output ↔
        ∃ name ∈ names, (∀ other ∈ names, other ≠ name → (m.eval (.ref other) input).Fails) ∧
          (m.eval (.ref name) input).Yields output := by
  rw [eval_alt_yields]
  constructor
  · rintro ⟨before, rule, after, heq, hfails, hyields⟩
    have hmem : rule ∈ names.map Rule.ref := by
      rw [heq]
      simp
    obtain ⟨name, hname, rfl⟩ := List.mem_map.mp hmem
    refine ⟨name, hname, fun other hother hne => ?_, hyields⟩
    have hother' : Rule.ref other ∈ before ++ .ref name :: after := by
      rw [← heq]
      exact List.mem_map_of_mem hother
    apply hfails
    simpa [hne] using hother'
  · rintro ⟨name, hname, hfails, hyields⟩
    obtain ⟨before, after, rfl⟩ := List.append_of_mem hname
    refine ⟨before.map .ref, .ref name, after.map .ref, by simp, ?_, hyields⟩
    intro rule hrule
    rw [← List.map_append] at hrule
    obtain ⟨other, hother, rfl⟩ := List.mem_map.mp hrule
    have hne : other ≠ name := by
      rintro rfl
      exact (List.nodup_middle.mp hnodup).notMem hother
    apply hfails other _ hne
    simp only [List.mem_append, List.mem_cons] at hother ⊢
    tauto

theorem eval_alt_failsWith {rules : List (Rule μ)} {input : ι} {e : Failure}
    : (m.eval (.alt rules) input).FailsWith e ↔
        ∃ rs, List.Forall₂ (fun rule r => (m.eval rule input).attempt.Yields r) rules rs ∧
          (choose m.domain input rs).FailsWith e := by
  rw [eval_alt, Run.andThen_failsWith]
  simp [not_results_failsWith, results_yields]

theorem eval_alt_settles {rules : List (Rule μ)} {input : ι}
    : (m.eval (.alt rules) input).Settles ↔ ∀ rule ∈ rules, (m.eval rule input).Settles := by
  rw [eval_alt, Run.andThen_settles, results_settles]
  simp [choose_settles]

theorem eval_alt_fails_of_all {rules : List (Rule μ)} {input : ι}
    (h : ∀ rule ∈ rules, (m.eval rule input).Fails)
    : (m.eval (.alt rules) input).Fails := by
  have hsettles := eval_alt_settles.mpr fun rule hrule => (h rule hrule).settles
  rcases (Run.settles_iff _).mp hsettles with ⟨output, hyields⟩ | hfails
  · obtain ⟨before, rule, after, rfl, _, hrule⟩ := eval_alt_yields.mp hyields
    exact absurd (h rule (by simp)) hrule.not_fails
  · exact hfails

theorem loop_yields {rule : Rule μ} {input : ι} {outputs : List ω}
    : (m.loop rule input).Yields outputs ↔
        (∃ output others, (m.eval rule input).Yields output ∧
          (m.loop rule (m.domain.advance input output)).Yields others ∧
            output :: others = outputs) ∨
          ((m.eval rule input).Fails ∧ outputs = []) := by
  rw [loop_eq, Run.andThen_yields, Run.exists_attempt_yields]
  simp only [Run.andThen_yields, Run.ok_yields, Run.swallow_yields, true_and, exists_const,
    Run.Fails]
  grind

omit [Lawful m.domain] in
theorem not_loop_failsWith {rule : Rule μ} {input : ι} (e : Failure)
    : ¬ (m.loop rule input).FailsWith e := by
  unfold loop
  generalize m.domain.size input + 1 = rounds
  induction rounds generalizing input with
  | zero => simp [repeated]
  | succ rounds ih =>
    simp [repeated, Run.exists_attempt_yields, ih]

theorem loop_settles {rule : Rule μ} {input : ι}
    : (m.loop rule input).Settles ↔
        (m.eval rule input).Settles ∧
          ∀ output, (m.eval rule input).Yields output →
            (m.loop rule (m.domain.advance input output)).Settles := by
  rw [loop_eq, Run.andThen_settles, Run.forall_attempt_yields, Run.attempt_settles]
  simp [Run.andThen_settles]

theorem drain_yields {rule : Rule μ} {input : ι} {outputs : List ω}
    (hempty : m.domain.isEmpty input = false)
    : (m.drain rule input).Yields outputs ↔
        ∃ output others, (m.eval rule input).Yields output ∧
          (m.drain rule (m.domain.advance input output)).Yields others ∧
            output :: others = outputs := by
  rw [drain_eq]
  simp [hempty]

theorem drain_failsWith {rule : Rule μ} {input : ι} {e : Failure}
    (hempty : m.domain.isEmpty input = false)
    : (m.drain rule input).FailsWith e ↔
        (m.eval rule input).FailsWith e ∨
          ∃ output, (m.eval rule input).Yields output ∧
            (m.drain rule (m.domain.advance input output)).FailsWith e := by
  rw [drain_eq]
  simp [hempty]

theorem drain_settles {rule : Rule μ} {input : ι} (hempty : m.domain.isEmpty input = false)
    : (m.drain rule input).Settles ↔
        (m.eval rule input).Settles ∧
          ∀ output, (m.eval rule input).Yields output →
            (m.drain rule (m.domain.advance input output)).Settles := by
  rw [drain_eq]
  simp [hempty, Run.andThen_settles]

theorem drain_of_isEmpty {rule : Rule μ} {input : ι} (hempty : m.domain.isEmpty input = true)
    : m.drain rule input = .ok [] := by
  rw [drain_eq]
  simp [hempty]

theorem eval_star_yields {rule : Rule μ} {input : ι} {output : ω}
    : (m.eval (.star rule) input).Yields output ↔
        ∃ outputs, (m.loop rule input).Yields outputs ∧ m.domain.join outputs = output := by
  simp [eval_star]

theorem not_eval_star_failsWith {rule : Rule μ} {input : ι} (e : Failure)
    : ¬ (m.eval (.star rule) input).FailsWith e := by
  simp [eval_star, not_loop_failsWith]

theorem eval_star_settles {rule : Rule μ} {input : ι}
    : (m.eval (.star rule) input).Settles ↔ (m.loop rule input).Settles := by
  simp [eval_star, Run.andThen_settles]

theorem eval_plus_yields {rule : Rule μ} {input : ι} {output : ω}
    : (m.eval (.plus rule) input).Yields output ↔
        ∃ first outputs, (m.eval rule input).Yields first ∧
          (m.loop rule (m.domain.advance input first)).Yields outputs ∧
            m.domain.join (first :: outputs) = output := by
  simp [eval_plus]

theorem eval_plus_fails {rule : Rule μ} {input : ι}
    : (m.eval (.plus rule) input).Fails ↔ (m.eval rule input).Fails := by
  simp [Run.Fails, eval_plus, not_loop_failsWith]

theorem eval_plus_settles {rule : Rule μ} {input : ι}
    : (m.eval (.plus rule) input).Settles ↔ (m.loop rule input).Settles := by
  rw [loop_settles]
  simp [eval_plus, Run.andThen_settles]

theorem eval_opt_yields {rule : Rule μ} {input : ι} {output : ω}
    : (m.eval (.opt rule) input).Yields output ↔
        (m.eval rule input).Yields output ∨
          ((m.eval rule input).Fails ∧ m.domain.join [] = output) := by
  rw [eval_opt, Run.andThen_yields, Run.exists_attempt_yields]
  simp [Run.Fails]

theorem not_eval_opt_failsWith {rule : Rule μ} {input : ι} (e : Failure)
    : ¬ (m.eval (.opt rule) input).FailsWith e := by
  rw [eval_opt, Run.andThen_failsWith, Run.exists_attempt_yields]
  simp

theorem eval_opt_settles {rule : Rule μ} {input : ι}
    : (m.eval (.opt rule) input).Settles ↔ (m.eval rule input).Settles := by
  rw [eval_opt, Run.andThen_settles, Run.forall_attempt_yields, Run.attempt_settles]
  simp [Run.andThen_settles]

theorem eval_untilEmpty_yields {rule : Rule μ} {input : ι} {output : ω}
    : (m.eval (.untilEmpty rule) input).Yields output ↔
        ∃ outputs, (m.drain rule input).Yields outputs ∧ m.domain.join outputs = output := by
  simp [eval_untilEmpty]

theorem eval_untilEmpty_failsWith {rule : Rule μ} {input : ι} {e : Failure}
    : (m.eval (.untilEmpty rule) input).FailsWith e ↔ (m.drain rule input).FailsWith e := by
  simp [eval_untilEmpty]

theorem eval_untilEmpty_settles {rule : Rule μ} {input : ι}
    : (m.eval (.untilEmpty rule) input).Settles ↔ (m.drain rule input).Settles := by
  simp [eval_untilEmpty, Run.andThen_settles]

end Recognizer

end GrammarKit
