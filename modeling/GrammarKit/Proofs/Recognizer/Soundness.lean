import GrammarKit.Proofs.Run.Outcome
import GrammarKit.Recognizer.Basic

/-!
This module contains the principle by which properties of outputs are shown: what every combinator
hands on from its parts holds of everything that evaluation yields.
-/

namespace GrammarKit

namespace Recognizer

variable {ι ω μ : Type}

/-- Outputs one after the other, each of them good where those before it leave off. -/
inductive Row (d : Domain ι ω μ) (good : ι → ω → Prop) : ι → List ω → Prop where
  | nil (input : ι) : Row d good input []
  | cons {input : ι} {output : ω} {outputs : List ω} (first : good input output)
      (rest : Row d good (d.advance input output) outputs) : Row d good input (output :: outputs)

/-- As `Row`, where each output is that of a rule of its own. -/
inductive Each (d : Domain ι ω μ) (good : Rule μ → ι → ω → Prop) :
    List (Rule μ) → ι → List ω → Prop where
  | nil (input : ι) : Each d good [] input []
  | cons {rule : Rule μ} {rules : List (Rule μ)} {input : ι} {output : ω} {outputs : List ω}
      (first : good rule input output) (rest : Each d good rules (d.advance input output) outputs) :
      Each d good (rule :: rules) input (output :: outputs)

theorem Each.row {d : Domain ι ω μ} {good : ι → ω → Prop} {rules : List (Rule μ)} {input : ι}
    {outputs : List ω} (h : Each d (fun _ => good) rules input outputs)
    : Row d good input outputs := by
  induction h with
  | nil input => exact .nil input
  | cons first _ ih => exact .cons first ih

/-- The property of outputs is handed on by every combinator. -/
structure Closed (m : Recognizer ι ω μ) (good : Rule μ → ι → ω → Prop) : Prop where
  atom : ∀ {ev a input output}, (∀ rule input output, (ev rule input).Yields output →
    good rule input output) → (m.domain.atom ev a input).Yields output → good (.atom a) input output
  ref : ∀ {name rule input output}, m.rules.get? name = some rule → good rule input output →
    good (.ref name) input (m.domain.join [m.domain.label name output])
  seq : ∀ {rules input outputs}, Each m.domain good rules input outputs →
    good (.seq rules) input (m.domain.join outputs)
  alt : ∀ {rule rules input output}, rule ∈ rules → good rule input output →
    good (.alt rules) input output
  star : ∀ {rule input outputs}, Row m.domain (good rule) input outputs →
    good (.star rule) input (m.domain.join outputs)
  plus : ∀ {rule input output outputs}, good rule input output →
    Row m.domain (good rule) (m.domain.advance input output) outputs →
    good (.plus rule) input (m.domain.join (output :: outputs))
  optSome : ∀ {rule input output}, good rule input output → good (.opt rule) input output
  optNone : ∀ {rule input}, good (.opt rule) input (m.domain.join [])
  untilEmpty : ∀ {rule input outputs}, Row m.domain (good rule) input outputs →
    good (.untilEmpty rule) input (m.domain.join outputs)

section Combinators

variable {d : Domain ι ω μ} {ev : Rule μ → ι → Run ω} {good : Rule μ → ι → ω → Prop}
variable (hev : ∀ rule input output, (ev rule input).Yields output → good rule input output)

include hev in
theorem sequence_each {rules : List (Rule μ)} {input : ι} {outputs : List ω}
    (h : (sequence d ev rules input).Yields outputs)
    : Each d good rules input outputs := by
  induction rules generalizing input outputs with
  | nil =>
    simp only [sequence, Run.ok_yields] at h
    subst h
    exact .nil input
  | cons rule rules ih =>
    simp only [sequence, Run.bind_eq, Run.pure_eq, Run.andThen_yields, Run.ok_yields] at h
    obtain ⟨output, houtput, others, hothers, rfl⟩ := h
    exact .cons (hev _ _ _ houtput) (ih hothers)

include hev in
theorem repeated_row {rule : Rule μ} {n : Nat} {input : ι} {outputs : List ω}
    (h : (repeated d ev rule n input).Yields outputs)
    : Row d (good rule) input outputs := by
  induction n generalizing input outputs with
  | zero => simp [repeated] at h
  | succ n ih =>
    simp only [repeated, Run.bind_eq, Run.pure_eq, Run.andThen_yields,
      Run.exists_attempt_yields, Run.ok_yields] at h
    rcases h with ⟨output, houtput, others, hothers, rfl⟩ | ⟨e, he, u, hu, rfl⟩
    · exact .cons (hev _ _ _ houtput) (ih hothers)
    · exact .nil input

include hev in
theorem exhausted_row {rule : Rule μ} {n : Nat} {input : ι} {outputs : List ω}
    (h : (exhausted d ev rule n input).Yields outputs)
    : Row d (good rule) input outputs := by
  induction n generalizing input outputs with
  | zero => simp [exhausted] at h
  | succ n ih =>
    simp only [exhausted] at h
    split at h
    · simp only [Run.ok_yields] at h
      subst h
      exact .nil input
    · simp only [Run.bind_eq, Run.pure_eq, Run.andThen_yields, Run.ok_yields] at h
      obtain ⟨output, houtput, others, hothers, rfl⟩ := h
      exact .cons (hev _ _ _ houtput) (ih hothers)

end Combinators

theorem mem_successes {rs : List (Except Failure ω)} {output : ω}
    : output ∈ successes rs ↔ .ok output ∈ rs := by
  induction rs with
  | nil => simp [successes]
  | cons r rs ih =>
    cases r with
    | ok o => simp [successes, ih]
    | error e => simp [successes, ih]

theorem mem_failures {rs : List (Except Failure ω)} {e : Failure}
    : e ∈ failures rs ↔ .error e ∈ rs := by
  induction rs with
  | nil => simp [failures]
  | cons r rs ih =>
    cases r with
    | ok o => simp [failures, ih]
    | error e' => simp [failures, ih]

theorem choose_yields {d : Domain ι ω μ} {input : ι} {rs : List (Except Failure ω)} {output : ω}
    : (choose d input rs).Yields output ↔ successes rs = [output] := by
  unfold choose
  split
  · next h => simp [h]
  · next h => simp [h]
  · next h₀ h₁ =>
    simp only [Domain.failAt, Run.not_fail_yields, false_iff]
    exact h₁ output

theorem results_mem {ev : Rule μ → ι → Run ω} {rules : List (Rule μ)} {input : ι}
    {rs : List (Except Failure ω)} (h : (results ev rules input).Yields rs)
    {r : Except Failure ω} (hr : r ∈ rs)
    : ∃ rule ∈ rules, (ev rule input).attempt.Yields r := by
  induction rules generalizing rs with
  | nil =>
    simp only [results, Run.ok_yields] at h
    simp [← h] at hr
  | cons rule rules ih =>
    simp only [results, Run.bind_eq, Run.pure_eq, Run.andThen_yields, Run.ok_yields] at h
    obtain ⟨first, hfirst, others, hothers, rfl⟩ := h
    rcases List.mem_cons.mp hr with rfl | hmem
    · exact ⟨rule, by simp, hfirst⟩
    · obtain ⟨rule', hrule', hyields⟩ := ih hothers hmem
      exact ⟨rule', by simp [hrule'], hyields⟩

theorem call_yields {m : Recognizer ι ω μ} {ev : Rule μ → ι → Run ω} {name : String} {input : ι}
    {output : ω}
    : (m.call ev name input).Yields output ↔
        ∃ rule, m.rules.get? name = some rule ∧
          ∃ inner, (ev rule input).Yields inner ∧ m.domain.label name inner = output := by
  unfold call
  split
  · next h => simp [h, Domain.failAt]
  · next rule h =>
    simp [h, Run.exists_attempt_yields]

theorem inRule_location {name : String} {input : Option Location} {e : Failure} {loc : Location}
    (h : e.location = some loc)
    : (inRule name input e).location = some loc := by
  unfold inRule
  rw [h]
  rfl

namespace Closed

variable {m : Recognizer ι ω μ} {good : Rule μ → ι → ω → Prop}

theorem step (hm : m.Closed good) {ev : Rule μ → ι → Run ω} {n : Nat} {rule : Rule μ} {input : ι}
    {output : ω} (hev : ∀ rule input output, (ev rule input).Yields output → good rule input output)
    (h : (m.step ev n rule input).Yields output)
    : good rule input output := by
  cases rule with
  | atom a => exact hm.atom hev h
  | ref name =>
    simp only [Recognizer.step, Run.bind_eq, Run.pure_eq, Run.andThen_yields, Run.ok_yields,
      call_yields] at h
    obtain ⟨_, ⟨rule, hrule, inner, hinner, rfl⟩, rfl⟩ := h
    exact hm.ref hrule (hev _ _ _ hinner)
  | seq rules =>
    simp only [Recognizer.step, Run.bind_eq, Run.pure_eq, Run.andThen_yields, Run.ok_yields] at h
    obtain ⟨outputs, houtputs, rfl⟩ := h
    exact hm.seq (sequence_each hev houtputs)
  | alt rules =>
    simp only [Recognizer.step, Run.bind_eq, Run.andThen_yields, choose_yields] at h
    obtain ⟨rs, hrs, hone⟩ := h
    have hmem : .ok output ∈ rs := by
      rw [← mem_successes, hone]
      simp
    obtain ⟨rule, hrule, hyields⟩ := results_mem hrs hmem
    exact hm.alt hrule (hev _ _ _ (by simpa using hyields))
  | star rule =>
    simp only [Recognizer.step, Run.bind_eq, Run.pure_eq, Run.andThen_yields, Run.ok_yields] at h
    obtain ⟨outputs, houtputs, rfl⟩ := h
    exact hm.star (repeated_row hev houtputs)
  | plus rule =>
    simp only [Recognizer.step, Run.bind_eq, Run.pure_eq, Run.andThen_yields, Run.ok_yields] at h
    obtain ⟨first, hfirst, outputs, houtputs, rfl⟩ := h
    exact hm.plus (hev _ _ _ hfirst) (repeated_row hev houtputs)
  | opt rule =>
    simp only [Recognizer.step, Run.bind_eq, Run.pure_eq, Run.andThen_yields,
      Run.exists_attempt_yields, Run.ok_yields] at h
    rcases h with ⟨o, ho, rfl⟩ | ⟨e, he, u, hu, rfl⟩
    · exact hm.optSome (hev _ _ _ ho)
    · exact hm.optNone
  | untilEmpty rule =>
    simp only [Recognizer.step, Run.bind_eq, Run.pure_eq, Run.andThen_yields, Run.ok_yields] at h
    obtain ⟨outputs, houtputs, rfl⟩ := h
    exact hm.untilEmpty (exhausted_row hev houtputs)

theorem evalWithin (hm : m.Closed good) {n : Nat} {rule : Rule μ} {input : ι} {output : ω}
    (h : (m.evalWithin n rule input).Yields output)
    : good rule input output := by
  induction n generalizing rule input output with
  | zero => simp [Recognizer.evalWithin] at h
  | succ n ih => exact hm.step (fun _ _ _ => ih) h

theorem eval (hm : m.Closed good) {rule : Rule μ} {input : ι} {output : ω}
    (h : (m.eval rule input).Yields output)
    : good rule input output :=
  hm.evalWithin h

end Closed

end Recognizer

end GrammarKit
