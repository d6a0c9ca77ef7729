import GrammarKit.Proofs.Recognizer.Ambiguity
import Mathlib.Logic.Relation

/-!
This module contains where the evaluation of a rule gets to: the rules that it applies on the way,
and the inputs that it applies them to. It depends on no named rule but those that it gets to.
-/

namespace GrammarKit

open Recognizer Domain Rule

variable {ι ω μ : Type}

namespace Rule

variable {inner : μ → List (Rule μ)} {P : Rule μ → Prop}

/-- The property holds of the rule and of all rules that stand in it. -/
def Everywhere (inner : μ → List (Rule μ)) (P : Rule μ → Prop) (rule : Rule μ) : Prop :=
  ∀ sub, Occurs inner sub rule → P sub

theorem Everywhere.of_parts {rule : Rule μ} (hrule : P rule)
    (hparts : ∀ part ∈ rule.parts inner, Everywhere inner P part)
    : Everywhere inner P rule := by
  intro sub hsub
  rcases occurs_iff.mp hsub with rfl | ⟨part, hpart, hsub⟩
  · exact hrule
  · exact hparts part hpart sub hsub

theorem Everywhere.part {part rule : Rule μ} (h : Everywhere inner P rule)
    (hpart : part ∈ rule.parts inner)
    : Everywhere inner P part :=
  fun sub hsub => h sub (.inside hpart hsub)

end Rule

namespace Recognizer

/--
Evaluating the first rule at its input takes evaluating the second one at its own. A row whose first
rule has been applied goes on as the row of the others, and a repetition as itself.
-/
inductive Enters (m : Recognizer ι ω μ) [Lawful m.domain] : Rule μ × ι → Rule μ × ι → Prop where
  | atom {a : μ} {part : Rule μ} {input : ι} (hpart : part ∈ Lawful.inner m.domain a) :
      Enters m (.atom a, input) (part, input)
  | ref {name : String} {body : Rule μ} {input : ι} (hbody : m.rules.get? name = some body) :
      Enters m (.ref name, input) (body, input)
  | seqHead {rule : Rule μ} {rules : List (Rule μ)} {input : ι} :
      Enters m (.seq (rule :: rules), input) (rule, input)
  | seqTail {rule : Rule μ} {rules : List (Rule μ)} {input : ι} {output : ω}
      (h : (m.eval rule input).Yields output) :
      Enters m (.seq (rule :: rules), input) (.seq rules, m.domain.advance input output)
  | alt {rule : Rule μ} {rules : List (Rule μ)} {input : ι} (hmem : rule ∈ rules) :
      Enters m (.alt rules, input) (rule, input)
  | star {rule : Rule μ} {input : ι} : Enters m (.star rule, input) (rule, input)
  | starNext {rule : Rule μ} {input : ι} {output : ω} (h : (m.eval rule input).Yields output) :
      Enters m (.star rule, input) (.star rule, m.domain.advance input output)
  | plus {rule : Rule μ} {input : ι} : Enters m (.plus rule, input) (rule, input)
  | plusNext {rule : Rule μ} {input : ι} {output : ω} (h : (m.eval rule input).Yields output) :
      Enters m (.plus rule, input) (.star rule, m.domain.advance input output)
  | opt {rule : Rule μ} {input : ι} : Enters m (.opt rule, input) (rule, input)
  | untilEmpty {rule : Rule μ} {input : ι} (hempty : m.domain.isEmpty input = false) :
      Enters m (.untilEmpty rule, input) (rule, input)
  | untilEmptyNext {rule : Rule μ} {input : ι} {output : ω}
      (hempty : m.domain.isEmpty input = false) (h : (m.eval rule input).Yields output) :
      Enters m (.untilEmpty rule, input) (.untilEmpty rule, m.domain.advance input output)

variable (m : Recognizer ι ω μ) [Lawful m.domain]

/-- Evaluating the first rule at its input may get to the second one at its own. -/
def Reaches : Rule μ × ι → Rule μ × ι → Prop :=
  Relation.ReflTransGen m.Enters

/-- If the rule is a name, then the table has a rule for it. -/
def Known (rule : Rule μ) : Prop :=
  ∀ name, rule = .ref name → m.rules.contains name = true

/-- The table has a rule for every name in the rule. -/
def Resolved (rule : Rule μ) : Prop :=
  Everywhere (Lawful.inner m.domain) m.Known rule

/--
Wherever a run gets to a name, there is a rule for it. So further rules make no difference to any
run.
-/
structure SelfContained : Prop where
  known : ∀ input name rest, m.Reaches (.ref m.root, input) (.ref name, rest) →
    m.rules.contains name = true
  independent : ∀ table : Table (Rule μ),
    (∀ name body, m.rules.get? name = some body → table.get? name = some body) →
      ∀ input, run ⟨m.domain, table, m.root⟩ input = m.run input

variable {m}

theorem Enters.rest {a b : Rule μ × ι} (h : m.Enters a b) : Lawful.Rest m.domain a.2 b.2 := by
  have hadvance {rule : Rule μ} {input : ι} {output : ω} (h : (m.eval rule input).Yields output) :
      Lawful.Rest m.domain input (m.domain.advance input output) :=
    Lawful.rest_advance (m.eval_fits _ _ _ h)
  cases h with
  | atom => exact Lawful.rest_refl _
  | ref => exact Lawful.rest_refl _
  | seqHead => exact Lawful.rest_refl _
  | seqTail h => exact hadvance h
  | alt => exact Lawful.rest_refl _
  | star => exact Lawful.rest_refl _
  | starNext h => exact hadvance h
  | plus => exact Lawful.rest_refl _
  | plusNext h => exact hadvance h
  | opt => exact Lawful.rest_refl _
  | untilEmpty => exact Lawful.rest_refl _
  | untilEmptyNext _ h => exact hadvance h

theorem Reaches.rest {a b : Rule μ × ι} (h : m.Reaches a b) : Lawful.Rest m.domain a.2 b.2 := by
  induction h with
  | refl => exact Lawful.rest_refl _
  | tail _ hstep ih => exact Lawful.rest_trans ih hstep.rest

section Resolved

variable (hbodies : ∀ name body, m.rules.get? name = some body → m.Resolved body)

include hbodies in
theorem Enters.resolved {a b : Rule μ × ι} (h : m.Enters a b) (ha : m.Resolved a.1)
    : m.Resolved b.1 := by
  cases h with
  | atom hpart => exact ha.part hpart
  | ref hbody => exact hbodies _ _ hbody
  | seqHead => exact ha.part List.mem_cons_self
  | seqTail => exact .of_parts nofun fun part hpart => ha.part (List.mem_cons_of_mem _ hpart)
  | alt hmem => exact ha.part hmem
  | star => exact ha.part List.mem_cons_self
  | starNext => exact ha
  | plus => exact ha.part List.mem_cons_self
  | plusNext => exact .of_parts nofun fun part hpart => ha.part hpart
  | opt => exact ha.part List.mem_cons_self
  | untilEmpty => exact ha.part List.mem_cons_self
  | untilEmptyNext => exact ha

include hbodies in
theorem Reaches.resolved {a b : Rule μ × ι} (h : m.Reaches a b) (ha : m.Resolved a.1)
    : m.Resolved b.1 := by
  induction h with
  | refl => exact ha
  | tail _ hstep ih => exact hstep.resolved hbodies ih

end Resolved

section Agreement

variable {start : Rule μ × ι} {ev ev' : Rule μ → ι → Run ω}
variable (hev : ∀ rule input, m.Reaches start (rule, input) → ev' rule input = ev rule input)
variable (hyields : ∀ rule input output, (ev rule input).Yields output →
  (m.eval rule input).Yields output)

include hev hyields in
theorem sequence_eq_of_reaches {rules : List (Rule μ)} {input : ι}
    (h : m.Reaches start (.seq rules, input))
    : sequence m.domain ev' rules input = sequence m.domain ev rules input := by
  induction rules generalizing input with
  | nil => rfl
  | cons rule rules ih =>
    simp only [sequence, hev rule input (h.tail .seqHead)]
    apply Run.andThen_congr
    intro output houtput
    rw [ih (h.tail (.seqTail (hyields _ _ _ houtput)))]

include hev in
theorem results_eq_of_reaches {rules : List (Rule μ)} {input : ι}
    (h : ∀ rule ∈ rules, m.Reaches start (rule, input))
    : results ev' rules input = results ev rules input := by
  induction rules with
  | nil => rfl
  | cons rule rules ih =>
    simp only [results, hev rule input (h rule (by simp)),
      ih fun other hother => h other (by simp [hother])]

include hev hyields in
theorem repeated_eq_of_reaches {rule : Rule μ} {n : Nat} {input : ι}
    (h : m.Reaches start (.star rule, input))
    : repeated m.domain ev' rule n input = repeated m.domain ev rule n input := by
  induction n generalizing input with
  | zero => rfl
  | succ n ih =>
    simp only [repeated, hev rule input (h.tail .star)]
    apply Run.andThen_congr
    intro result hresult
    cases result with
    | error e => rfl
    | ok output =>
      rw [Run.attempt_yields_ok] at hresult
      simp only [ih (h.tail (.starNext (hyields _ _ _ hresult)))]

include hev hyields in
theorem exhausted_eq_of_reaches {rule : Rule μ} {n : Nat} {input : ι}
    (h : m.Reaches start (.untilEmpty rule, input))
    : exhausted m.domain ev' rule n input = exhausted m.domain ev rule n input := by
  induction n generalizing input with
  | zero => rfl
  | succ n ih =>
    unfold exhausted
    cases hempty : m.domain.isEmpty input with
    | true => rfl
    | false =>
      simp only [hev rule input (h.tail (.untilEmpty hempty)), Bool.false_eq_true, ↓reduceIte]
      apply Run.andThen_congr
      intro output houtput
      rw [ih (h.tail (.untilEmptyNext hempty (hyields _ _ _ houtput)))]

variable {table : Table (Rule μ)}

include hev in
theorem call_eq_of_reaches {name : String} {input : ι} (h : m.Reaches start (.ref name, input))
    (htable : table.get? name = m.rules.get? name)
    : call ⟨m.domain, table, m.root⟩ ev' name input = m.call ev name input := by
  simp only [call, htable]
  split
  · rfl
  · next body hbody => rw [hev body input (h.tail (.ref hbody))]

include hev hyields in
theorem step_eq_of_reaches {n : Nat} {rule : Rule μ} {input : ι} (h : m.Reaches start (rule, input))
    (htable : ∀ name input, m.Reaches start (.ref name, input) →
      table.get? name = m.rules.get? name)
    : step ⟨m.domain, table, m.root⟩ ev' n rule input = m.step ev n rule input := by
  cases rule with
  | atom a =>
    have hparts : ∀ part ∈ Lawful.inner m.domain a, ev' part input = ev part input :=
      fun part hpart => hev part input (h.tail (.atom hpart))
    apply Run.le_antisymm
    · exact Lawful.atom_le fun part hpart => .inr (hparts part hpart)
    · exact Lawful.atom_le fun part hpart => .inr (hparts part hpart).symm
  | ref name => simp only [step, call_eq_of_reaches hev h (htable name input h)]
  | seq rules => simp only [step, sequence_eq_of_reaches hev hyields h]
  | alt rules =>
    have hresults : results ev' rules input = results ev rules input :=
      results_eq_of_reaches hev fun rule hmem => h.tail (.alt hmem)
    simp only [step, hresults]
  | star rule => simp only [step, repeated_eq_of_reaches hev hyields h]
  | plus rule =>
    simp only [step, hev rule input (h.tail .plus)]
    apply Run.andThen_congr
    intro output houtput
    rw [repeated_eq_of_reaches hev hyields (h.tail (.plusNext (hyields _ _ _ houtput)))]
  | opt rule => simp only [step, hev rule input (h.tail .opt)]
  | untilEmpty rule => simp only [step, exhausted_eq_of_reaches hev hyields h]

end Agreement

section Tables

variable {table : Table (Rule μ)} {start : Rule μ × ι}
variable (htable : ∀ name input, m.Reaches start (.ref name, input) →
  table.get? name = m.rules.get? name)

include htable in
theorem evalWithin_eq_of_reaches (n : Nat) {rule : Rule μ} {input : ι}
    (h : m.Reaches start (rule, input))
    : evalWithin ⟨m.domain, table, m.root⟩ n rule input = m.evalWithin n rule input := by
  induction n generalizing rule input with
  | zero => rfl
  | succ n ih =>
    exact step_eq_of_reaches (fun _ _ => ih) (fun _ _ _ => yields_of_evalWithin) h htable

/-- A run is the same for all tables that agree on the names which it gets to. -/
theorem run_eq_of_reaches {input : ι}
    (htable : ∀ name rest, m.Reaches (.ref m.root, input) (.ref name, rest) →
      table.get? name = m.rules.get? name)
    : run ⟨m.domain, table, m.root⟩ input = m.run input := by
  have hwithin (n : Nat) : applyWithin ⟨m.domain, table, m.root⟩ n m.root input =
      m.applyWithin n m.root input :=
    call_eq_of_reaches (fun _ _ => evalWithin_eq_of_reaches htable n) .refl (htable _ _ .refl)
  have hlimit := isLimit_apply ⟨m.domain, table, m.root⟩ m.root input
  simp only [hwithin] at hlimit
  exact hlimit.unique (m.isLimit_apply m.root input)

end Tables

/-- It is enough that the names which stand in the rules of the table are there. -/
theorem selfContained_of_resolved (hroot : m.rules.contains m.root = true)
    (hbodies : ∀ name body, m.rules.get? name = some body → m.Resolved body)
    : m.SelfContained := by
  have hstart : m.Resolved (.ref m.root) := by
    refine .of_parts ?_ nofun
    rintro name ⟨⟩
    exact hroot
  have hknown : ∀ input name rest, m.Reaches (.ref m.root, input) (.ref name, rest) →
      m.rules.contains name = true :=
    fun _ name _ h => h.resolved hbodies hstart _ .here name rfl
  refine ⟨hknown, fun table htable input => run_eq_of_reaches fun name rest h => ?_⟩
  obtain ⟨body, hbody⟩ := Option.isSome_iff_exists.mp (hknown input name rest h)
  rw [hbody, htable name body hbody]

end Recognizer

end GrammarKit
