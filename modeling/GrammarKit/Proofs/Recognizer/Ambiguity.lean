import GrammarKit.Proofs.Recognizer.Termination

/-!
This module contains when alternatives can never be ambiguous: no two of them yield anything for the
same input.
-/

namespace GrammarKit

open Recognizer Domain Rule

variable {ι ω μ : Type}

namespace Recognizer

variable (m : Recognizer ι ω μ) [Lawful m.domain]

/-- No two of the rules yield an output for the same input. -/
def Exclusive (rules : List (Rule μ)) : Prop :=
  rules.Pairwise fun a b => ∀ input x y, (m.eval a input).Yields x → ¬ (m.eval b input).Yields y

/-- Wherever alternatives of the table are tried, at most one of them yields an output. -/
def Unambiguous : Prop :=
  ∀ name body rules, m.rules.get? name = some body →
    Occurs (Lawful.inner m.domain) (.alt rules) body →
      ∀ n input rs, (results (m.evalWithin n) rules input).Yields rs → (successes rs).length ≤ 1

variable {m}

theorem yields_of_evalWithin {n : Nat} {rule : Rule μ} {input : ι} {output : ω}
    (h : (m.evalWithin n rule input).Yields output)
    : (m.eval rule input).Yields output := by
  rwa [m.eval_eq_of_settles h.settles]

theorem Exclusive.successes_le {rules : List (Rule μ)} (h : m.Exclusive rules) {n : Nat} {input : ι}
    {rs : List (Except Failure ω)}
    (hrs : List.Forall₂ (fun rule r => (m.evalWithin n rule input).attempt.Yields r) rules rs)
    : (successes rs).length ≤ 1 := by
  induction hrs with
  | nil => simp [successes]
  | @cons rule r rules rs hr hrest ih =>
    obtain ⟨hfirst, hothers⟩ := List.pairwise_cons.mp h
    cases r with
    | error e => exact ih hothers
    | ok output =>
      have hnone : successes rs = [] := by
        rw [List.eq_nil_iff_forall_not_mem]
        intro other hmem
        obtain ⟨rule', hrule', hyields⟩ :=
          results_mem (results_yields.mpr hrest) (mem_successes.mp hmem)
        rw [Run.attempt_yields_ok] at hr hyields
        exact hfirst rule' hrule' input output other (yields_of_evalWithin hr)
          (yields_of_evalWithin hyields)
      simp [successes, hnone]

theorem Exclusive.eval_alt_yields {rules : List (Rule μ)} (h : m.Exclusive rules) {input : ι}
    (hsettles : ∀ rule ∈ rules, (m.eval rule input).Settles) {rule : Rule μ} (hmem : rule ∈ rules)
    {output : ω} (hyields : (m.eval rule input).Yields output)
    : (m.eval (.alt rules) input).Yields output := by
  obtain ⟨before, after, rfl⟩ := List.append_of_mem hmem
  rw [Recognizer.eval_alt_yields]
  refine ⟨before, rule, after, rfl, fun other hother => ?_, hyields⟩
  have hother' : other ∈ before ++ rule :: after := by
    simp only [List.mem_append, List.mem_cons] at hother ⊢
    tauto
  rcases (Run.settles_iff _).mp (hsettles other hother') with ⟨output', hyields'⟩ | hfails
  · -- the pair of the two rules stands in the list in the one order or in the other
    rw [Exclusive, List.pairwise_append, List.pairwise_cons] at h
    obtain ⟨_, ⟨hafter, _⟩, hbefore⟩ := h
    rcases List.mem_append.mp hother with hother | hother
    · exact absurd hyields (hbefore other hother rule (by simp) input output' output hyields')
    · exact absurd hyields' (hafter other hother input output output' hyields)
  · exact hfails

theorem unambiguous_of_exclusive
    (h : ∀ name body rules, m.rules.get? name = some body →
      Occurs (Lawful.inner m.domain) (.alt rules) body → m.Exclusive rules)
    : m.Unambiguous :=
  fun name body rules hbody hoccurs _ _ _ hrs =>
    (h name body rules hbody hoccurs).successes_le (results_yields.mp hrs)

end Recognizer

end GrammarKit
