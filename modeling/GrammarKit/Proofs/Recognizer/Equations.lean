import GrammarKit.Proofs.Recognizer.Bound

/-!
This module contains the equations of evaluation: what a rule comes to, in terms of what its parts
come to. They mention no bound.
-/

namespace GrammarKit

open Recognizer Domain

variable {ι ω μ : Type}

namespace Recognizer

section Limits

variable {d : Domain ι ω μ} {evs : Nat → Rule μ → ι → Run ω} {ev : Rule μ → ι → Run ω}
variable (hev : ∀ rule input, Run.IsLimit (fun n => evs n rule input) (ev rule input))

include hev in
theorem isLimit_sequence (rules : List (Rule μ)) (input : ι)
    : Run.IsLimit (fun n => sequence d (evs n) rules input) (sequence d ev rules input) := by
  induction rules generalizing input with
  | nil => exact .const _
  | cons rule rules ih =>
    apply (hev rule input).andThen
    intro output _
    exact (ih (d.advance input output)).andThen fun outputs _ => .const _

include hev in
theorem isLimit_results (rules : List (Rule μ)) (input : ι)
    : Run.IsLimit (fun n => results (evs n) rules input) (results ev rules input) := by
  induction rules with
  | nil => exact .const _
  | cons rule rules ih =>
    apply (hev rule input).attempt.andThen
    intro result _
    exact ih.andThen fun others _ => .const _

include hev in
theorem isLimit_call (m : Recognizer ι ω μ) (name : String) (input : ι)
    : Run.IsLimit (fun n => m.call (evs n) name input) (m.call ev name input) := by
  unfold call
  cases m.rules.get? name with
  | none => exact .const _
  | some rule => exact (hev rule input).attempt.andThen fun result _ => .const _

include hev in
theorem isLimit_repeated (rule : Rule μ) (k : Nat) (input : ι)
    : Run.IsLimit (fun n => repeated d (evs n) rule k input) (repeated d ev rule k input) := by
  induction k generalizing input with
  | zero => exact .const _
  | succ k ih =>
    apply (hev rule input).attempt.andThen
    intro result _
    cases result with
    | error e => exact .const _
    | ok output => exact (ih (d.advance input output)).andThen fun outputs _ => .const _

include hev in
theorem isLimit_exhausted (rule : Rule μ) (k : Nat) (input : ι)
    : Run.IsLimit (fun n => exhausted d (evs n) rule k input) (exhausted d ev rule k input) := by
  induction k generalizing input with
  | zero => exact .const _
  | succ k ih =>
    unfold exhausted
    split
    · exact .const _
    · apply (hev rule input).andThen
      intro output _
      exact (ih (d.advance input output)).andThen fun outputs _ => .const _

include hev in
theorem le_at_all (rules : List (Rule μ)) (input : ι)
    : ∃ n, ∀ rule ∈ rules, ev rule input ≤ evs n rule input := by
  induction rules with
  | nil => exact ⟨0, by simp⟩
  | cons rule rules ih =>
    obtain ⟨n, hn⟩ := ih
    obtain ⟨k, hk⟩ := (hev rule input).le_at
    refine ⟨max n k, fun rule' hrule' => ?_⟩
    rcases List.mem_cons.mp hrule' with rfl | hmem
    · exact Run.le_trans hk ((hev _ input).mono (Nat.le_max_right n k))
    · exact Run.le_trans (hn rule' hmem) ((hev _ input).mono (Nat.le_max_left n k))

include hev in
theorem isLimit_atom [Lawful d] (a : μ) (input : ι)
    : Run.IsLimit (fun n => d.atom (evs n) a input) (d.atom ev a input) where
  mono hnk := Lawful.atom_le fun rule _ => (hev rule input).mono hnk
  le n := Lawful.atom_le fun rule _ => (hev rule input).le n
  reached hset := by
    -- a primitive applies finitely many rules, so that one bound is enough for all of them
    obtain ⟨n, hn⟩ := le_at_all hev (Lawful.inner d a) input
    exact ⟨n, (Run.eq_of_le (Lawful.atom_le hn) hset).symm⟩

end Limits

variable (m : Recognizer ι ω μ)

def loop (rule : Rule μ) (input : ι) : Run (List ω) :=
  repeated m.domain m.eval rule (m.domain.size input + 1) input

def drain (rule : Rule μ) (input : ι) : Run (List ω) :=
  exhausted m.domain m.eval rule (m.domain.size input + 1) input

variable [Lawful m.domain]

theorem isLimit_repeated_rounds (rule : Rule μ) (input : ι)
    : Run.IsLimit (fun n => repeated m.domain (m.evalWithin n) rule (n + 1) input)
        (m.loop rule input) := by
  refine Run.IsLimit.diagonal (fun n k => repeated m.domain (m.evalWithin n) rule k input) _
    (isLimit_repeated m.isLimit_eval rule (m.domain.size input + 1) input) ?_ ?_
  · intro n n' k k' hn hk
    refine repeated_le (m.evalWithin_fits n) (Lawful.rest_refl input) ?_ (.inl hk)
    exact fun input _ => m.evalWithin_mono hn rule input
  · intro n k
    refine repeated_le (m.evalWithin_fits n) (Lawful.rest_refl input) ?_ (.inr (by omega))
    exact fun input _ => m.evalWithin_le_eval n rule input

theorem isLimit_exhausted_rounds (rule : Rule μ) (input : ι)
    : Run.IsLimit (fun n => exhausted m.domain (m.evalWithin n) rule (n + 1) input)
        (m.drain rule input) := by
  refine Run.IsLimit.diagonal (fun n k => exhausted m.domain (m.evalWithin n) rule k input) _
    (isLimit_exhausted m.isLimit_eval rule (m.domain.size input + 1) input) ?_ ?_
  · intro n n' k k' hn hk
    refine exhausted_le (m.evalWithin_fits n) (Lawful.rest_refl input) ?_ (.inl hk)
    exact fun input _ => m.evalWithin_mono hn rule input
  · intro n k
    refine exhausted_le (m.evalWithin_fits n) (Lawful.rest_refl input) ?_ (.inr (by omega))
    exact fun input _ => m.evalWithin_le_eval n rule input

theorem eval_eq_of_isLimit {rule : Rule μ} {input : ι} {x : Run ω}
    (h : Run.IsLimit (fun n => m.step (m.evalWithin n) (n + 1) rule input) x)
    : m.eval rule input = x :=
  (m.isLimit_eval rule input).tail.unique h

theorem eval_atom (a : μ) (input : ι) : m.eval (.atom a) input = m.domain.atom m.eval a input :=
  m.eval_eq_of_isLimit (isLimit_atom m.isLimit_eval a input)

theorem eval_ref (name : String) (input : ι)
    : m.eval (.ref name) input =
        (m.call m.eval name input).andThen fun output => .ok (m.domain.join [output]) :=
  m.eval_eq_of_isLimit ((isLimit_call m.isLimit_eval m name input).andThen fun _ _ => .const _)

theorem eval_seq (rules : List (Rule μ)) (input : ι)
    : m.eval (.seq rules) input =
        (sequence m.domain m.eval rules input).andThen fun outputs =>
          .ok (m.domain.join outputs) :=
  m.eval_eq_of_isLimit ((isLimit_sequence m.isLimit_eval rules input).andThen fun _ _ => .const _)

theorem eval_alt (rules : List (Rule μ)) (input : ι)
    : m.eval (.alt rules) input = (results m.eval rules input).andThen (choose m.domain input) :=
  m.eval_eq_of_isLimit ((isLimit_results m.isLimit_eval rules input).andThen fun _ _ => .const _)

theorem eval_star (rule : Rule μ) (input : ι)
    : m.eval (.star rule) input =
        (m.loop rule input).andThen fun outputs => .ok (m.domain.join outputs) :=
  m.eval_eq_of_isLimit ((m.isLimit_repeated_rounds rule input).andThen fun _ _ => .const _)

theorem eval_untilEmpty (rule : Rule μ) (input : ι)
    : m.eval (.untilEmpty rule) input =
        (m.drain rule input).andThen fun outputs => .ok (m.domain.join outputs) :=
  m.eval_eq_of_isLimit ((m.isLimit_exhausted_rounds rule input).andThen fun _ _ => .const _)

theorem eval_opt (rule : Rule μ) (input : ι)
    : m.eval (.opt rule) input =
        (m.eval rule input).attempt.andThen fun result =>
          match result with
          | .ok output => .ok output
          | .error e => (Run.swallow e).andThen fun _ => .ok (m.domain.join []) :=
  m.eval_eq_of_isLimit ((m.isLimit_eval rule input).attempt.andThen fun _ _ => .const _)

theorem repeated_eq_loop {rule : Rule μ} {input : ι} {k : Nat} (hk : m.domain.size input < k)
    : repeated m.domain m.eval rule k input = m.loop rule input := by
  apply Run.le_antisymm
  · exact repeated_le m.eval_fits (Lawful.rest_refl input) (fun _ _ => Run.le_refl _) (.inr (by omega))
  · exact repeated_le m.eval_fits (Lawful.rest_refl input) (fun _ _ => Run.le_refl _) (.inr hk)

theorem exhausted_eq_drain {rule : Rule μ} {input : ι} {k : Nat} (hk : m.domain.size input < k)
    : exhausted m.domain m.eval rule k input = m.drain rule input := by
  apply Run.le_antisymm
  · exact exhausted_le m.eval_fits (Lawful.rest_refl input) (fun _ _ => Run.le_refl _) (.inr (by omega))
  · exact exhausted_le m.eval_fits (Lawful.rest_refl input) (fun _ _ => Run.le_refl _) (.inr hk)

theorem loop_eq (rule : Rule μ) (input : ι)
    : m.loop rule input =
        (m.eval rule input).attempt.andThen fun result =>
          match result with
          | .ok output =>
            (m.loop rule (m.domain.advance input output)).andThen fun outputs =>
              .ok (output :: outputs)
          | .error e => (Run.swallow e).andThen fun _ => .ok [] := by
  unfold loop
  rw [repeated]
  apply Run.andThen_congr
  intro result hresult
  cases result with
  | error e => rfl
  | ok output =>
    rw [Run.attempt_yields_ok] at hresult
    have hrounds : repeated m.domain m.eval rule (m.domain.size input)
        (m.domain.advance input output) = m.loop rule (m.domain.advance input output) := by
      -- where nothing was taken, one round less makes no difference either: neither comes to an end
      by_cases hsame : m.domain.advance input output = input
      · rw [loop, hsame, repeated_stuck hresult hsame, repeated_stuck hresult hsame]
      · exact m.repeated_eq_loop (size_advance_lt m.eval_fits hresult hsame)
    simp only [hrounds]
    rfl

theorem drain_eq (rule : Rule μ) (input : ι)
    : m.drain rule input =
        if m.domain.isEmpty input then
          .ok []
        else
          (m.eval rule input).andThen fun output =>
            (m.drain rule (m.domain.advance input output)).andThen fun outputs =>
              .ok (output :: outputs) := by
  unfold drain
  rw [exhausted]
  cases hempty : m.domain.isEmpty input with
  | true => rfl
  | false =>
    apply Run.andThen_congr
    intro output houtput
    have hrounds : exhausted m.domain m.eval rule (m.domain.size input)
        (m.domain.advance input output) = m.drain rule (m.domain.advance input output) := by
      by_cases hsame : m.domain.advance input output = input
      · rw [drain, hsame, exhausted_stuck hempty houtput hsame,
          exhausted_stuck hempty houtput hsame]
      · exact m.exhausted_eq_drain (size_advance_lt m.eval_fits houtput hsame)
    simp only [hrounds]
    rfl

theorem eval_plus (rule : Rule μ) (input : ι)
    : m.eval (.plus rule) input =
        (m.eval rule input).andThen fun output =>
          (m.loop rule (m.domain.advance input output)).andThen fun outputs =>
            .ok (m.domain.join (output :: outputs)) := by
  refine m.eval_eq_of_isLimit ((m.isLimit_eval rule input).andThen fun output houtput => ?_)
  exact (m.isLimit_repeated_rounds rule (m.domain.advance input output)).andThen fun _ _ => .const _

end Recognizer

end GrammarKit
