import GrammarKit.Proofs.Failure
import GrammarKit.Proofs.Recognizer.Bound
import GrammarKit.Proofs.Run.Alike
import Mathlib.Data.List.Forall2

/-!
This module contains `Rule.Rearranged`, rules that differ only in the order of alternatives. Since all
alternatives are tried and none takes precedence, such rules run alike.
-/

namespace GrammarKit

open Recognizer

variable {ι ω μ : Type}

namespace Rule

/--
The second rule is the first one with its alternatives in any order, at any number of places. A
primitive holds the rules `inner`, and `rebuild` puts others in their place.
-/
inductive Rearranged (inner : μ → List (Rule μ)) (rebuild : μ → List (Rule μ) → μ) :
    Rule μ → Rule μ → Prop where
  | atom {a : μ} {rules : List (Rule μ)}
      (h : List.Forall₂ (Rearranged inner rebuild) (inner a) rules) :
      Rearranged inner rebuild (.atom a) (.atom (rebuild a rules))
  | ref {name : String} : Rearranged inner rebuild (.ref name) (.ref name)
  | seq {rules rules' : List (Rule μ)} (h : List.Forall₂ (Rearranged inner rebuild) rules rules') :
      Rearranged inner rebuild (.seq rules) (.seq rules')
  | alt {rules rules' rules'' : List (Rule μ)}
      (h : List.Forall₂ (Rearranged inner rebuild) rules rules') (hperm : rules'.Perm rules'') :
      Rearranged inner rebuild (.alt rules) (.alt rules'')
  | star {rule rule' : Rule μ} (h : Rearranged inner rebuild rule rule') :
      Rearranged inner rebuild (.star rule) (.star rule')
  | plus {rule rule' : Rule μ} (h : Rearranged inner rebuild rule rule') :
      Rearranged inner rebuild (.plus rule) (.plus rule')
  | opt {rule rule' : Rule μ} (h : Rearranged inner rebuild rule rule') :
      Rearranged inner rebuild (.opt rule) (.opt rule')
  | untilEmpty {rule rule' : Rule μ} (h : Rearranged inner rebuild rule rule') :
      Rearranged inner rebuild (.untilEmpty rule) (.untilEmpty rule')

end Rule

/-- The tables have the same names, for rules that differ only in the order of alternatives. -/
def Table.Rearranged (inner : μ → List (Rule μ)) (rebuild : μ → List (Rule μ) → μ)
    (rules rules' : Table (Rule μ)) : Prop :=
  ∀ name, Option.Rel (Rule.Rearranged inner rebuild) (rules.get? name) (rules'.get? name)

namespace Domain

/-- Neither the choice of a location nor a primitive depends on the order of alternatives. -/
structure Impartial (d : Domain ι ω μ) (inner : μ → List (Rule μ))
    (rebuild : μ → List (Rule μ) → μ) : Prop where
  furthest_eq_of_perm : ∀ {locs locs' : List Location}, locs.Perm locs' →
    d.furthest locs = d.furthest locs'
  atom_alike : ∀ {ev ev' a rules input},
    List.Forall₂ (fun rule rule' => Run.Alike Eq (ev rule input) (ev' rule' input)) (inner a)
      rules → Run.Alike Eq (d.atom ev a input) (d.atom ev' (rebuild a rules) input)

end Domain

namespace Recognizer

section Combinators

variable {d : Domain ι ω μ} {ev ev' : Rule μ → ι → Run ω} {rules rules' : List (Rule μ)}

theorem sequence_alike
    (h : List.Forall₂ (fun rule rule' => ∀ input, Run.Alike Eq (ev rule input) (ev' rule' input))
      rules rules')
    (input : ι)
    : Run.Alike Eq (sequence d ev rules input) (sequence d ev' rules' input) := by
  induction h generalizing input with
  | nil => exact .ok rfl
  | cons first _ ih =>
    apply (first input).andThen_same
    intro output
    exact (ih (d.advance input output)).andThen_same fun _ => .ok rfl

theorem results_alike {input : ι}
    (h : List.Forall₂ (fun rule rule' => Run.Alike Eq (ev rule input) (ev' rule' input))
      rules rules')
    : Run.Alike (List.Forall₂ (Agree Eq)) (results ev rules input) (results ev' rules' input) := by
  induction h with
  | nil => exact .ok .nil
  | cons first _ ih =>
    apply first.attempt.andThen
    intro result result' hresult
    exact ih.andThen fun others others' hothers => .ok (.cons hresult hothers)

theorem results_perm {input : ι} (h : rules.Perm rules')
    : Run.Alike List.Perm (results ev rules input) (results ev rules' input) := by
  induction h with
  | nil => exact .ok .nil
  | cons rule _ ih =>
    apply (Run.Alike.refl (fun _ => rfl) (ev rule input).attempt).andThen_same
    intro result
    exact ih.andThen fun _ _ hothers => .ok (hothers.cons result)
  | swap rule rule' rules =>
    simp only [results, Run.bind_eq, Run.pure_eq, Run.andThen_assoc, Run.ok_andThen]
    exact .attempt_swap _ _ _
  | trans _ _ ih ih' =>
    apply (ih.trans ih').mono
    rintro rs rs' ⟨others, h, h'⟩
    exact h.trans h'

theorem successes_eq_of_agree {rs rs' : List (Except Failure ω)}
    (h : List.Forall₂ (Agree Eq) rs rs')
    : successes rs = successes rs' := by
  induction h with
  | nil => rfl
  | cons first _ ih =>
    cases first with
    | ok h => rw [successes, successes, ih, h]
    | error _ => exact ih

theorem failures_eq_of_agree {rs rs' : List (Except Failure ω)}
    (h : List.Forall₂ (Agree Eq) rs rs')
    : (failures rs).map Failure.location = (failures rs').map Failure.location := by
  induction h with
  | nil => rfl
  | cons first _ ih =>
    cases first with
    | ok _ => exact ih
    | error h => rw [failures, failures, List.map_cons, List.map_cons, ih, h]

theorem successes_failures_perm {rs rs' : List (Except Failure ω)} (h : rs.Perm rs')
    : (successes rs).Perm (successes rs') ∧ (failures rs).Perm (failures rs') := by
  induction h with
  | nil => exact ⟨.nil, .nil⟩
  | cons r _ ih =>
    cases r with
    | ok output => exact ⟨ih.1.cons output, ih.2⟩
    | error e => exact ⟨ih.1, ih.2.cons e⟩
  | swap r r' rs =>
    match r, r' with
    | .ok _, .ok _ => exact ⟨.swap _ _ _, .refl _⟩
    | .ok _, .error _ => exact ⟨.refl _, .refl _⟩
    | .error _, .ok _ => exact ⟨.refl _, .refl _⟩
    | .error _, .error _ => exact ⟨.refl _, .swap _ _ _⟩
  | trans _ _ ih ih' => exact ⟨ih.1.trans ih'.1, ih.2.trans ih'.2⟩

theorem choose_alike {inner : μ → List (Rule μ)} {rebuild : μ → List (Rule μ) → μ}
    (hd : d.Impartial inner rebuild) {input : ι} {rs rs' : List (Except Failure ω)}
    (hsuccesses : (successes rs).Perm (successes rs'))
    (hfailures : ((failures rs).map Failure.location).Perm ((failures rs').map Failure.location))
    : Run.Alike Eq (choose d input rs) (choose d input rs') := by
  unfold choose
  split
  · next h =>
    rw [h, List.nil_perm] at hsuccesses
    rw [hsuccesses]
    exact .fail (Failure.aggregateBy_location_eq_of_perm hd.furthest_eq_of_perm hfailures)
  · next output h =>
    rw [h, List.singleton_perm] at hsuccesses
    rw [← hsuccesses]
    exact .ok rfl
  · next hnil hone =>
    split
    · next h => exact absurd (List.perm_nil.mp (h ▸ hsuccesses)) hnil
    · next output h => exact absurd (List.perm_singleton.mp (h ▸ hsuccesses)) (hone output)
    · exact .fail rfl

theorem repeated_alike {rule rule' : Rule μ}
    (h : ∀ input, Run.Alike Eq (ev rule input) (ev' rule' input)) (n : Nat) (input : ι)
    : Run.Alike Eq (repeated d ev rule n input) (repeated d ev' rule' n input) := by
  induction n generalizing input with
  | zero => exact .unsettled
  | succ n ih =>
    apply (h input).attempt_andThen_same
    · intro output
      exact (ih (d.advance input output)).andThen_same fun _ => .ok rfl
    · intro e e' he
      exact (Run.Alike.swallow he).andThen_same fun _ => .ok rfl

theorem exhausted_alike {rule rule' : Rule μ}
    (h : ∀ input, Run.Alike Eq (ev rule input) (ev' rule' input)) (n : Nat) (input : ι)
    : Run.Alike Eq (exhausted d ev rule n input) (exhausted d ev' rule' n input) := by
  induction n generalizing input with
  | zero => exact .unsettled
  | succ n ih =>
    unfold exhausted
    split
    · exact .ok rfl
    · apply (h input).andThen_same
      intro output
      exact (ih (d.advance input output)).andThen_same fun _ => .ok rfl

end Combinators

section Evaluation

variable {d : Domain ι ω μ} {inner : μ → List (Rule μ)} {rebuild : μ → List (Rule μ) → μ}
variable {rules rules' : Table (Rule μ)} {root : String} {rule rule' : Rule μ}

theorem call_alike {ev ev' : Rule μ → ι → Run ω} (hrules : rules.Rearranged inner rebuild rules')
    (hev : ∀ {rule rule'}, rule.Rearranged inner rebuild rule' → ∀ input,
      Run.Alike Eq (ev rule input) (ev' rule' input))
    (name : String) (input : ι)
    : Run.Alike Eq (call ⟨d, rules, root⟩ ev name input) (call ⟨d, rules', root⟩ ev' name input) := by
  have hname := hrules name
  simp only [call]
  generalize rules.get? name = body, rules'.get? name = body' at hname
  cases hname with
  | none => exact .fail rfl
  | some h =>
    apply (hev h input).attempt_andThen_same
    · exact fun output => .refl (fun _ => rfl) _
    · intro e e' he
      apply Run.Alike.fail
      show (e.location <|> d.location input) = (e'.location <|> d.location input)
      rw [he]

theorem step_alike (hd : d.Impartial inner rebuild) {ev ev' : Rule μ → ι → Run ω}
    (hrules : rules.Rearranged inner rebuild rules')
    (hev : ∀ {rule rule'}, rule.Rearranged inner rebuild rule' → ∀ input,
      Run.Alike Eq (ev rule input) (ev' rule' input))
    (h : rule.Rearranged inner rebuild rule') (n : Nat) (input : ι)
    : Run.Alike Eq (step ⟨d, rules, root⟩ ev n rule input)
        (step ⟨d, rules', root⟩ ev' n rule' input) := by
  cases h with
  | atom h => exact hd.atom_alike (h.imp fun _ _ hparts => hev hparts input)
  | ref => exact (call_alike hrules hev _ input).andThen_same fun _ => .ok rfl
  | seq h =>
    have hparts := sequence_alike (d := d) (h.imp fun _ _ => hev) input
    exact hparts.andThen_same fun _ => .ok rfl
  | alt h hperm =>
    have hparts := results_alike (h.imp fun _ _ hparts => hev hparts input)
    apply (hparts.trans (results_perm hperm)).andThen
    rintro rs rs' ⟨others, hagree, hothers⟩
    obtain ⟨hsuccesses, hfailures⟩ := successes_failures_perm hothers
    rw [← successes_eq_of_agree hagree] at hsuccesses
    have hlocations := hfailures.map Failure.location
    rw [← failures_eq_of_agree hagree] at hlocations
    exact choose_alike hd hsuccesses hlocations
  | star h =>
    exact (repeated_alike (hev h) n input).andThen_same fun _ => .ok rfl
  | plus h =>
    apply (hev h input).andThen_same
    intro output
    exact (repeated_alike (hev h) n _).andThen_same fun _ => .ok rfl
  | opt h =>
    apply (hev h input).attempt_andThen_same
    · exact fun output => .ok rfl
    · intro e e' he
      exact (Run.Alike.swallow he).andThen_same fun _ => .ok rfl
  | untilEmpty h =>
    exact (exhausted_alike (hev h) n input).andThen_same fun _ => .ok rfl

variable (hd : d.Impartial inner rebuild) (hrules : rules.Rearranged inner rebuild rules')

include hd hrules in
theorem evalWithin_alike (h : rule.Rearranged inner rebuild rule') (n : Nat) (input : ι)
    : Run.Alike Eq (evalWithin ⟨d, rules, root⟩ n rule input)
        (evalWithin ⟨d, rules', root⟩ n rule' input) := by
  induction n generalizing rule rule' input with
  | zero => exact .unsettled
  | succ n ih => exact step_alike hd hrules ih h (n + 1) input

variable [Domain.Lawful d]

include hd hrules in
theorem eval_alike (h : rule.Rearranged inner rebuild rule') (input : ι)
    : Run.Alike Eq (eval ⟨d, rules, root⟩ rule input) (eval ⟨d, rules', root⟩ rule' input) :=
  .of_limit (isLimit_eval _ rule input) (isLimit_eval _ rule' input)
    fun n => evalWithin_alike hd hrules h n input

include hd hrules in
theorem run_alike (input : ι)
    : Run.Alike Eq (run ⟨d, rules, root⟩ input) (run ⟨d, rules', root⟩ input) := by
  rw [run_eq_call, run_eq_call]
  exact call_alike hrules (eval_alike hd hrules) root input

end Evaluation

end Recognizer

end GrammarKit
