import GrammarKit.Proofs.Recognizer.Outcome

/-!
This module contains `Domain.Splicing`, domains in which it makes no difference whether outputs are
joined all at once or some of them before. There a row within a row may be written out, and a
repetition may be unfolded round by round.
-/

namespace GrammarKit

open Recognizer Domain

variable {ι ω μ : Type}

namespace Domain

/-- A joined output is as good as the outputs it is joined from, and accounts for as much. -/
structure Splicing (d : Domain ι ω μ) [Lawful d] : Prop where
  join_join : ∀ before inner after,
    d.join (before ++ d.join inner :: after) = d.join (before ++ inner ++ after)
  advance_join : ∀ {input outputs}, Row d (Lawful.Fits d) input outputs →
    d.advance input (d.join outputs) = outputs.foldl d.advance input

end Domain

namespace Recognizer

theorem sequence_append {d : Domain ι ω μ} {ev : Rule μ → ι → Run ω} (xs ys : List (Rule μ))
    (input : ι)
    : sequence d ev (xs ++ ys) input =
        (sequence d ev xs input).andThen fun outputs =>
          (sequence d ev ys (outputs.foldl d.advance input)).andThen fun others =>
            .ok (outputs ++ others) := by
  induction xs generalizing input with
  | nil => simp [sequence]
  | cons x xs ih => simp [sequence, ih, Run.andThen_assoc]

variable {m : Recognizer ι ω μ} [Lawful m.domain] {rule : Rule μ} {input : ι} {output : ω}

theorem loop_row {outputs : List ω} (h : (m.loop rule input).Yields outputs)
    : Row m.domain (Lawful.Fits m.domain) input outputs :=
  repeated_row m.eval_fits h

/-- A repetition goes on to where its rule fails. -/
theorem loop_stops {outputs : List ω} (h : (m.loop rule input).Yields outputs)
    : (m.eval rule (outputs.foldl m.domain.advance input)).Fails := by
  induction outputs generalizing input with
  | nil =>
    rcases loop_yields.mp h with ⟨_, _, _, _, heq⟩ | ⟨hfails, _⟩
    · cases heq
    · exact hfails
  | cons output outputs ih =>
    rcases loop_yields.mp h with ⟨_, _, _, hothers, heq⟩ | ⟨_, heq⟩
    · cases heq
      exact ih hothers
    · cases heq

theorem eval_star_eq_opt (rule : Rule μ) (input : ι)
    : m.eval (.star rule) input = m.eval (.opt (.plus rule)) input := by
  -- only the first round of `plus` can fail, and then `opt` swallows what `star` swallows
  have hloop (first : ω) (e : Failure) :
      ¬ ((m.loop rule (m.domain.advance input first)).andThen fun outputs =>
        .ok (m.domain.join (first :: outputs))).FailsWith e := by
    simp [not_loop_failsWith]
  rw [eval_opt, eval_plus, Run.attempt_andThen hloop, eval_star, loop_eq, Run.andThen_assoc]
  apply Run.andThen_congr
  rintro (e | first) _
  · simp [Run.andThen_assoc]
  · simp [Run.andThen_assoc]

variable (hd : m.domain.Splicing)

include hd in
theorem eval_seq_nested (xs ys zs : List (Rule μ)) (input : ι)
    : m.eval (.seq (xs ++ .seq ys :: zs)) input = m.eval (.seq (xs ++ ys ++ zs)) input := by
  rw [eval_seq, eval_seq, List.append_assoc]
  simp only [sequence_append, sequence, Run.bind_eq, Run.pure_eq, eval_seq, Run.andThen_assoc,
    Run.ok_andThen]
  apply Run.andThen_congr
  intro outputs _
  apply Run.andThen_congr
  intro inner hinner
  rw [hd.advance_join (sequence_each m.eval_fits hinner).row]
  apply Run.andThen_congr
  intro others _
  rw [hd.join_join, List.append_assoc]

include hd in
theorem eval_plus_eq_seq (rule : Rule μ) (input : ι)
    : m.eval (.plus rule) input = m.eval (.seq [rule, .star rule]) input := by
  rw [eval_plus, eval_seq]
  simp only [sequence, Run.bind_eq, Run.pure_eq, eval_star, Run.andThen_assoc, Run.ok_andThen]
  apply Run.andThen_congr
  intro first _
  apply Run.andThen_congr
  intro outputs _
  have hjoin := hd.join_join [first] outputs []
  rw [List.append_nil] at hjoin
  exact congrArg Run.ok hjoin.symm

include hd in
theorem eval_star_eq_opt_seq (rule : Rule μ) (input : ι)
    : m.eval (.star rule) input = m.eval (.opt (.seq [rule, .star rule])) input := by
  rw [eval_star_eq_opt, eval_opt, eval_opt, eval_plus_eq_seq hd]

include hd in
theorem star_stops (h : (m.eval (.star rule) input).Yields output)
    : (m.eval rule (m.domain.advance input output)).Fails := by
  obtain ⟨outputs, houtputs, rfl⟩ := eval_star_yields.mp h
  rw [hd.advance_join (loop_row houtputs)]
  exact loop_stops houtputs

include hd in
theorem plus_stops (h : (m.eval (.plus rule) input).Yields output)
    : (m.eval rule (m.domain.advance input output)).Fails := by
  obtain ⟨first, outputs, hfirst, houtputs, rfl⟩ := eval_plus_yields.mp h
  rw [hd.advance_join (.cons (m.eval_fits _ _ _ hfirst) (loop_row houtputs))]
  exact loop_stops (loop_yields.mpr (.inl ⟨first, outputs, hfirst, houtputs, rfl⟩))

end Recognizer

end GrammarKit
