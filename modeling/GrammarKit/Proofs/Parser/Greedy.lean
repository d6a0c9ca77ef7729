import GrammarKit.Proofs.Parser.Derivation
import GrammarKit.Proofs.Recognizer.Outcome

/-!
This module contains `Parser.Greedy`, the choices that evaluation makes from left to right. A
repetition goes on as long as its body matches, an option is taken if its body matches, and exactly
one of several alternatives has to match; what was chosen is not taken back. The outcomes of
evaluation are just those of `Greedy`.
-/

namespace GrammarKit

open Recognizer Node

namespace Parser

/-- The nodes that a rule takes and the tokens that it leaves, or nothing if it does not match. -/
abbrev Outcome := Option (List Node × List Token)

def behind (ns : List Node) (outcome : Outcome) : Outcome :=
  outcome.map fun (ms, rest) => (ns ++ ms, rest)

/-- The element of a list that has no other one. -/
def sole {α : Type} : List α → Option α
  | [a] => some a
  | _ => none

inductive Greedy (rules : Table (Rule String)) : Rule String → List Token → Outcome → Prop where
  | atom {kind : String} {t : Token} {rest : List Token} (h : t.kind = kind) :
      Greedy rules (.atom kind) (t :: rest) (some ([leaf t], rest))
  | atomNone {kind : String} {tokens : List Token} (h : ∀ t ∈ tokens.head?, t.kind ≠ kind) :
      Greedy rules (.atom kind) tokens none
  | ref {name : String} {rule : Rule String} {tokens : List Token} {outcome : Outcome}
      (hget : rules.get? name = some rule) (h : Greedy rules rule tokens outcome) :
      Greedy rules (.ref name) tokens (outcome.map fun (ns, rest) => ([labelled name ns], rest))
  | refUnknown {name : String} {tokens : List Token} (hget : rules.get? name = none) :
      Greedy rules (.ref name) tokens none
  | seqNil {tokens : List Token} : Greedy rules (.seq []) tokens (some ([], tokens))
  | seqNone {rule : Rule String} {members : List (Rule String)} {tokens : List Token}
      (first : Greedy rules rule tokens none) : Greedy rules (.seq (rule :: members)) tokens none
  | seqCons {rule : Rule String} {members : List (Rule String)} {tokens rest : List Token}
      {ns : List Node} {outcome : Outcome} (first : Greedy rules rule tokens (some (ns, rest)))
      (others : Greedy rules (.seq members) rest outcome) :
      Greedy rules (.seq (rule :: members)) tokens (behind ns outcome)
  /-- Every alternative is tried. -/
  | alt {choices : List (Rule String)} {tokens : List Token} (outcome : Rule String → Outcome)
      (h : ∀ rule ∈ choices, Greedy rules rule tokens (outcome rule)) :
      Greedy rules (.alt choices) tokens (sole (choices.filterMap outcome))
  | starNil {rule : Rule String} {tokens : List Token} (stop : Greedy rules rule tokens none) :
      Greedy rules (.star rule) tokens (some ([], tokens))
  | starCons {rule : Rule String} {tokens rest : List Token} {ns : List Node} {outcome : Outcome}
      (first : Greedy rules rule tokens (some (ns, rest)))
      (others : Greedy rules (.star rule) rest outcome) :
      Greedy rules (.star rule) tokens (behind ns outcome)
  | plusNone {rule : Rule String} {tokens : List Token} (first : Greedy rules rule tokens none) :
      Greedy rules (.plus rule) tokens none
  | plus {rule : Rule String} {tokens rest : List Token} {ns : List Node} {outcome : Outcome}
      (first : Greedy rules rule tokens (some (ns, rest)))
      (others : Greedy rules (.star rule) rest outcome) :
      Greedy rules (.plus rule) tokens (behind ns outcome)
  | optNone {rule : Rule String} {tokens : List Token} (h : Greedy rules rule tokens none) :
      Greedy rules (.opt rule) tokens (some ([], tokens))
  | optSome {rule : Rule String} {tokens rest : List Token} {ns : List Node}
      (h : Greedy rules rule tokens (some (ns, rest))) :
      Greedy rules (.opt rule) tokens (some (ns, rest))
  | untilNil {rule : Rule String} : Greedy rules (.untilEmpty rule) [] (some ([], []))
  | untilNone {rule : Rule String} {tokens : List Token} (hne : tokens ≠ [])
      (first : Greedy rules rule tokens none) : Greedy rules (.untilEmpty rule) tokens none
  | untilCons {rule : Rule String} {tokens rest : List Token} {ns : List Node} {outcome : Outcome}
      (hne : tokens ≠ []) (first : Greedy rules rule tokens (some (ns, rest)))
      (others : Greedy rules (.untilEmpty rule) rest outcome) :
      Greedy rules (.untilEmpty rule) tokens (behind ns outcome)

section Ends

def took (tokens : List Token) (n : Node) : List Node × List Token :=
  (splice n, domain.advance tokens n)

/-- How a run at the tokens ends. -/
def Ends (tokens : List Token) (x : Run Node) (outcome : Outcome) : Prop :=
  match outcome with
  | some result => ∃ n, x.Yields n ∧ took tokens n = result
  | none => x.Fails

def joined (x : Run (List Node)) : Run Node :=
  x.andThen fun outputs => .ok (join outputs)

variable {tokens : List Token} {x : Run Node} {outcome : Outcome}

theorem Ends.unique {other : Outcome} (h : Ends tokens x outcome) (h' : Ends tokens x other)
    : outcome = other := by
  cases outcome with
  | none =>
    cases other with
    | none => rfl
    | some result =>
      obtain ⟨n, hn, _⟩ := h'
      exact absurd h hn.not_fails
  | some result =>
    obtain ⟨n, hn, rfl⟩ := h
    cases other with
    | none => exact absurd h' hn.not_fails
    | some result =>
      obtain ⟨n', hn', rfl⟩ := h'
      rw [hn.unique hn']

theorem Ends.settles (h : Ends tokens x outcome) : x.Settles := by
  cases outcome with
  | none => exact Run.Fails.settles h
  | some result =>
    obtain ⟨n, hn, _⟩ := h
    exact hn.settles

theorem exists_ends (h : x.Settles) : ∃ outcome, Ends tokens x outcome := by
  rcases (Run.settles_iff x).mp h with ⟨n, hn⟩ | hfails
  · exact ⟨some (took tokens n), n, hn, rfl⟩
  · exact ⟨none, hfails⟩

theorem took_join_cons (n : Node) (outputs : List Node)
    : took tokens (join (n :: outputs)) =
        (splice n ++ (took (domain.advance tokens n) (join outputs)).1,
          (took (domain.advance tokens n) (join outputs)).2) := by
  simp only [took, domain, size, join, tokens_group, List.flatMap_cons, tokensAll_append,
    tokensAll_splice, List.length_append, List.drop_drop]
  rfl

theorem took_join_singleton (n : Node) : took tokens (join [n]) = took tokens n := by
  have htokens : (join [n]).tokens = n.tokens := by
    rw [join, tokens_group, List.flatMap_singleton, tokensAll_splice]
  have hsplice : splice (join [n]) = splice n := List.flatMap_singleton splice n
  simp only [took, hsplice, domain, size, htokens]

theorem took_label (name : String) (n : Node)
    : took tokens (label name n) = ([labelled name (took tokens n).1], (took tokens n).2) := by
  have htokens : (label name n).tokens = n.tokens := tokensAll_splice n
  simp only [took, domain, size, htokens]
  rfl

theorem ends_joined_nil : Ends tokens (joined (.ok [])) outcome ↔ outcome = some ([], tokens) := by
  have hnil : Ends tokens (joined (.ok [])) (some ([], tokens)) := ⟨join [], by simp [joined], rfl⟩
  constructor
  · intro h
    exact h.unique hnil
  · rintro rfl
    exact hnil

theorem ends_joined_cons {n : Node} {y : Run (List Node)}
    : Ends tokens (joined (y.andThen fun outputs => .ok (n :: outputs))) outcome ↔
        ∃ other, Ends (domain.advance tokens n) (joined y) other ∧
          behind (splice n) other = outcome := by
  have hcons : ∀ other, Ends (domain.advance tokens n) (joined y) other →
      Ends tokens (joined (y.andThen fun outputs => .ok (n :: outputs)))
        (behind (splice n) other) := by
    intro other h
    cases other with
    | none => simpa [Ends, joined, behind, Run.andThen_fails, Run.Fails] using h
    | some result =>
      obtain ⟨m, hm, rfl⟩ := h
      simp only [joined, Run.andThen_yields, Run.ok_yields] at hm
      obtain ⟨outputs, houtputs, rfl⟩ := hm
      refine ⟨join (n :: outputs), ?_, took_join_cons n outputs⟩
      simpa [joined] using ⟨outputs, houtputs, rfl⟩
  constructor
  · intro h
    have hy : (joined y).Settles := by
      have := h.settles
      simp_all [joined, Run.andThen_settles]
    obtain ⟨other, hother⟩ := exists_ends hy
    exact ⟨other, hother, (hcons other hother).unique h⟩
  · rintro ⟨other, hother, rfl⟩
    exact hcons other hother

theorem joined_cons {n : Node} {y : Run (List Node)}
    : joined (y.andThen fun outputs => .ok (n :: outputs)) =
        y.andThen fun outputs => .ok (join (n :: outputs)) := by
  simp [joined, Run.andThen_assoc]

theorem ends_andThen {α : Type} {y : Run α} {f : α → Run Node}
    : Ends tokens (y.andThen f) outcome ↔
        (y.Fails ∧ outcome = none) ∨ ∃ a, y.Yields a ∧ Ends tokens (f a) outcome := by
  cases outcome with
  | none => simp [Ends, Run.andThen_fails]
  | some result =>
    simp only [Ends, Run.andThen_yields, reduceCtorEq, and_false, false_or]
    grind

theorem ends_joined_andThen {α : Type} {y : Run α} {f : α → Run (List Node)}
    : Ends tokens (joined (y.andThen f)) outcome ↔
        (y.Fails ∧ outcome = none) ∨ ∃ a, y.Yields a ∧ Ends tokens (joined (f a)) outcome := by
  rw [joined, Run.andThen_assoc]
  exact ends_andThen

/-- What is attempted does not fail as a whole: its failure is passed on like an output. -/
theorem ends_attempt_andThen {x : Run Node} {f : Except Failure Node → Run Node}
    : Ends tokens (x.attempt.andThen f) outcome ↔
        (∃ n, x.Yields n ∧ Ends tokens (f (.ok n)) outcome) ∨
          ∃ e, x.FailsWith e ∧ Ends tokens (f (.error e)) outcome := by
  rw [ends_andThen]
  constructor
  · rintro (⟨⟨e, he⟩, _⟩ | ⟨e | n, hresult, h⟩)
    · exact absurd he (Run.not_attempt_failsWith x e)
    · exact .inr ⟨_, (Run.attempt_yields_error x _).mp hresult, h⟩
    · exact .inl ⟨_, (Run.attempt_yields_ok x _).mp hresult, h⟩
  · rintro (⟨n, hn, h⟩ | ⟨e, he, h⟩)
    · exact .inr ⟨_, (Run.attempt_yields_ok x n).mpr hn, h⟩
    · exact .inr ⟨_, (Run.attempt_yields_error x e).mpr he, h⟩

theorem ends_joined_attempt {x : Run Node} {f : Except Failure Node → Run (List Node)}
    : Ends tokens (joined (x.attempt.andThen f)) outcome ↔
        (∃ n, x.Yields n ∧ Ends tokens (joined (f (.ok n))) outcome) ∨
          ∃ e, x.FailsWith e ∧ Ends tokens (joined (f (.error e))) outcome := by
  rw [joined, Run.andThen_assoc]
  exact ends_attempt_andThen

variable {ev : Rule String → List Token → Run Node}

theorem successes_took {choices : List (Rule String)} {rs : List (Except Failure Node)}
    {outcomes : Rule String → Outcome}
    (h : ∀ rule ∈ choices, Ends tokens (ev rule tokens) (outcomes rule))
    (hrs : List.Forall₂ (fun rule r => (ev rule tokens).attempt.Yields r) choices rs)
    : (successes rs).map (took tokens) = choices.filterMap outcomes := by
  induction hrs with
  | nil => rfl
  | @cons rule r choices rs hr _ ih =>
    have hrule := h rule (by simp)
    have hrest := ih fun other hother => h other (by simp [hother])
    cases r with
    | ok n =>
      rw [Run.attempt_yields_ok] at hr
      have hsome : outcomes rule = some (took tokens n) := hrule.unique ⟨n, hr, rfl⟩
      rw [successes, List.map_cons, List.filterMap_cons_some hsome, hrest]
    | error e =>
      rw [Run.attempt_yields_error] at hr
      have hnone : outcomes rule = none := hrule.unique hr.fails
      rw [successes, List.filterMap_cons_none hnone, hrest]

theorem ends_choose {choices : List (Rule String)} {outcomes : Rule String → Outcome}
    (h : ∀ rule ∈ choices, Ends tokens (ev rule tokens) (outcomes rule))
    : Ends tokens ((results ev choices tokens).andThen (choose domain tokens))
        (sole (choices.filterMap outcomes)) := by
  have hsettles : (results ev choices tokens).Settles :=
    results_settles.mpr fun rule hrule => (h rule hrule).settles
  rcases (Run.settles_iff _).mp hsettles with ⟨rs, hrs⟩ | ⟨e, he⟩
  · rw [ends_andThen, ← successes_took h (results_yields.mp hrs)]
    refine .inr ⟨rs, hrs, ?_⟩
    unfold choose
    split
    · next heq => simp [heq, sole, Ends]
    · next n heq => exact heq ▸ ⟨n, by simp, rfl⟩
    · next hnil hone =>
      match hmany : successes rs with
      | [] => exact absurd hmany hnil
      | [n] => exact absurd hmany (hone n)
      | first :: second :: rest => simp [sole, Ends, Domain.failAt]
  · exact absurd he (not_results_failsWith e)

theorem take_fails {kind : String}
    : (take kind tokens).Fails ↔ ∀ t ∈ tokens.head?, t.kind ≠ kind := by
  unfold take
  cases tokens with
  | nil => simp
  | cons t rest =>
    by_cases h : t.kind = kind
    · simp [h, Run.Fails]
    · simp [h]

theorem ends_swallow {e : Failure}
    : Ends tokens ((Run.swallow e).andThen fun _ => .ok (join [])) outcome ↔
        outcome = some ([], tokens) := by
  rw [← ends_joined_nil, ends_andThen]
  simp [joined, Run.Fails]

theorem ends_call {p : Parser} {name : String} {rule : Rule String}
    (hget : p.rules.get? name = some rule)
    : Ends tokens ((p.recognizer.call ev name tokens).andThen fun n => .ok (join [n])) outcome ↔
        ∃ other, Ends tokens (ev rule tokens) other ∧
          other.map (fun (ns, rest) => ([labelled name ns], rest)) = outcome := by
  replace hget : p.recognizer.rules.get? name = some rule := hget
  cases outcome with
  | none => simp [Ends, Run.Fails, call_failsWith, hget]
  | some result =>
    simp only [Ends, Run.andThen_yields, call_yields, Run.ok_yields]
    constructor
    · rintro ⟨_, ⟨_, ⟨body, hbody, n, hn, rfl⟩, rfl⟩, rfl⟩
      rw [hget, Option.some.injEq] at hbody
      subst hbody
      refine ⟨some (took tokens n), ⟨n, hn, rfl⟩, ?_⟩
      rw [took_join_singleton]
      exact congrArg some (took_label name n).symm
    · rintro ⟨other, hother, hresult⟩
      cases other with
      | none => cases hresult
      | some other =>
        obtain ⟨n, hn, rfl⟩ := hother
        refine ⟨_, ⟨_, ⟨rule, hget, n, hn, rfl⟩, rfl⟩, ?_⟩
        rw [Option.map_some, Option.some.injEq] at hresult
        rw [← hresult, took_join_singleton]
        exact took_label name n

end Ends

section Evaluation

variable {p : Parser} {ev : Rule String → List Token → Run Node}

section Step

variable (hev : ∀ {rule tokens outcome}, Ends tokens (ev rule tokens) outcome →
  Greedy p.rules rule tokens outcome)

include hev

theorem greedy_of_yields {rule : Rule String} {tokens : List Token} {n : Node}
    (h : (ev rule tokens).Yields n)
    : Greedy p.rules rule tokens (some (splice n, domain.advance tokens n)) :=
  hev ⟨n, h, rfl⟩

theorem greedy_of_sequence {members : List (Rule String)} {tokens : List Token} {outcome : Outcome}
    (h : Ends tokens (joined (sequence domain ev members tokens)) outcome)
    : Greedy p.rules (.seq members) tokens outcome := by
  induction members generalizing tokens outcome with
  | nil =>
    rw [ends_joined_nil.mp h]
    exact .seqNil
  | cons rule members ih =>
    rcases ends_joined_andThen.mp h with ⟨hfails, rfl⟩ | ⟨n, hn, h⟩
    · exact .seqNone (hev hfails)
    · obtain ⟨other, hother, rfl⟩ := ends_joined_cons.mp h
      exact .seqCons (greedy_of_yields hev hn) (ih hother)

theorem greedy_of_exhausted {rule : Rule String} {n : Nat} {tokens : List Token} {outcome : Outcome}
    (h : Ends tokens (joined (exhausted domain ev rule n tokens)) outcome)
    : Greedy p.rules (.untilEmpty rule) tokens outcome := by
  induction n generalizing tokens outcome with
  | zero => exact absurd h.settles (by simp [exhausted, joined])
  | succ n ih =>
    cases tokens with
    | nil =>
      rw [exhausted] at h
      rw [ends_joined_nil.mp h]
      exact .untilNil
    | cons t tokens =>
      have hne : t :: tokens ≠ [] := List.cons_ne_nil t tokens
      rcases ends_joined_andThen.mp h with ⟨hfails, rfl⟩ | ⟨n, hn, h⟩
      · exact .untilNone hne (hev hfails)
      · obtain ⟨other, hother, rfl⟩ := ends_joined_cons.mp h
        exact .untilCons hne (greedy_of_yields hev hn) (ih hother)

theorem greedy_of_repeated {rule : Rule String} {n : Nat} {tokens : List Token} {outcome : Outcome}
    (h : Ends tokens (joined (repeated domain ev rule n tokens)) outcome)
    : Greedy p.rules (.star rule) tokens outcome := by
  induction n generalizing tokens outcome with
  | zero => exact absurd h.settles (by simp [repeated, joined])
  | succ n ih =>
    rcases ends_joined_attempt.mp h with ⟨n, hn, h⟩ | ⟨e, he, h⟩
    · obtain ⟨other, hother, rfl⟩ := ends_joined_cons.mp h
      exact .starCons (greedy_of_yields hev hn) (ih hother)
    · rw [ends_swallow.mp h]
      exact .starNil (hev he.fails)

theorem greedy_of_call {name : String} {tokens : List Token} {outcome : Outcome}
    (h : Ends tokens ((p.recognizer.call ev name tokens).andThen fun n => .ok (join [n])) outcome)
    : Greedy p.rules (.ref name) tokens outcome := by
  cases hget : p.rules.get? name with
  | none =>
    rcases ends_andThen.mp h with ⟨_, rfl⟩ | ⟨n, hn, _⟩
    · exact .refUnknown hget
    · obtain ⟨rule, hrule, _⟩ := call_yields.mp hn
      rw [show p.recognizer.rules.get? name = none from hget] at hrule
      cases hrule
  | some rule =>
    obtain ⟨other, hother, rfl⟩ := (ends_call hget).mp h
    exact .ref hget (hev hother)

theorem greedy_of_choose {choices : List (Rule String)} {tokens : List Token} {outcome : Outcome}
    (h : Ends tokens ((results ev choices tokens).andThen (choose domain tokens)) outcome)
    : Greedy p.rules (.alt choices) tokens outcome := by
  have hall : ∀ rule ∈ choices, ∃ outcome, Ends tokens (ev rule tokens) outcome := by
    have hresults := ((Run.andThen_settles _ _).mp h.settles).1
    exact fun rule hrule => exists_ends (results_settles.mp hresults rule hrule)
  choose! outcomes houtcomes using hall
  rw [h.unique (ends_choose houtcomes)]
  exact .alt outcomes fun rule hrule => hev (houtcomes rule hrule)

theorem greedy_of_step {rounds : Nat} {rule : Rule String} {tokens : List Token}
    {outcome : Outcome} (h : Ends tokens (p.recognizer.step ev rounds rule tokens) outcome)
    : Greedy p.rules rule tokens outcome := by
  cases rule with
  | atom kind =>
    cases outcome with
    | none => exact .atomNone (take_fails.mp h)
    | some result =>
      obtain ⟨n, hn, rfl⟩ := h
      obtain ⟨t, rest, rfl, hkind, rfl⟩ := take_yields.mp hn
      exact .atom hkind
  | ref name => exact greedy_of_call hev h
  | seq members => exact greedy_of_sequence hev h
  | alt choices => exact greedy_of_choose hev h
  | star rule => exact greedy_of_repeated hev h
  | plus rule =>
    rcases ends_andThen.mp h with ⟨hfails, rfl⟩ | ⟨n, hn, h⟩
    · exact .plusNone (hev hfails)
    · let others := repeated domain ev rule rounds (domain.advance tokens n)
      have h : Ends tokens (joined (others.andThen fun outputs => .ok (n :: outputs))) outcome := by
        rw [joined_cons]
        exact h
      obtain ⟨other, hother, rfl⟩ := ends_joined_cons.mp h
      exact .plus (greedy_of_yields hev hn) (greedy_of_repeated hev hother)
  | opt rule =>
    rcases ends_attempt_andThen.mp h with ⟨n, hn, h⟩ | ⟨e, he, h⟩
    · have hyields : (Run.ok n).Yields n := (Run.ok_yields n n).mpr rfl
      have houtcome : outcome = some (took tokens n) := h.unique ⟨n, hyields, rfl⟩
      rw [houtcome]
      exact .optSome (greedy_of_yields hev hn)
    · rw [ends_swallow.mp h]
      exact .optNone (hev he.fails)
  | untilEmpty rule => exact greedy_of_exhausted hev h

end Step

theorem greedy_of_evalWithin {n : Nat} {rule : Rule String} {tokens : List Token}
    {outcome : Outcome} (h : Ends tokens (p.recognizer.evalWithin n rule tokens) outcome)
    : Greedy p.rules rule tokens outcome := by
  induction n generalizing rule tokens outcome with
  | zero => exact absurd h.settles Run.not_settles_unsettled
  | succ n ih => exact greedy_of_step ih h

theorem ends_of_greedy {rule : Rule String} {tokens : List Token} {outcome : Outcome}
    (h : Greedy p.rules rule tokens outcome)
    : Ends tokens (p.recognizer.eval rule tokens) outcome := by
  induction h with
  | @atom kind t rest hkind =>
    rw [eval_atom]
    exact ⟨leaf t, take_yields.mpr ⟨t, rest, rfl, hkind, rfl⟩, rfl⟩
  | atomNone hkind =>
    rw [eval_atom]
    exact take_fails.mpr hkind
  | ref hget _ ih =>
    rw [eval_ref]
    exact (ends_call hget).mpr ⟨_, ih, rfl⟩
  | refUnknown hget => exact ⟨_, eval_ref_failsWith.mpr (.inl ⟨hget, rfl⟩)⟩
  | seqNil =>
    rw [eval_seq]
    exact ends_joined_nil.mpr rfl
  | seqNone _ ih => exact eval_seq_fails.mpr (sequence_cons_fails.mpr (.inl ih))
  | seqCons _ _ ihfirst ihothers =>
    obtain ⟨n, hn, ⟨⟩⟩ := ihfirst
    rw [eval_seq] at ihothers ⊢
    exact ends_joined_andThen.mpr (.inr ⟨n, hn, ends_joined_cons.mpr ⟨_, ihothers, rfl⟩⟩)
  | alt outcomes _ ih =>
    rw [eval_alt]
    exact ends_choose ih
  | starNil _ ih =>
    obtain ⟨e, he⟩ := ih
    rw [eval_star, loop_eq]
    exact ends_joined_attempt.mpr (.inr ⟨e, he, ends_swallow.mpr rfl⟩)
  | starCons _ _ ihfirst ihothers =>
    obtain ⟨n, hn, ⟨⟩⟩ := ihfirst
    rw [eval_star] at ihothers ⊢
    rw [loop_eq]
    exact ends_joined_attempt.mpr (.inl ⟨n, hn, ends_joined_cons.mpr ⟨_, ihothers, rfl⟩⟩)
  | plusNone _ ih => exact eval_plus_fails.mpr ih
  | plus _ _ ihfirst ihothers =>
    obtain ⟨n, hn, ⟨⟩⟩ := ihfirst
    rw [eval_star] at ihothers
    rw [eval_plus]
    have hcons := ends_joined_cons.mpr ⟨_, ihothers, rfl⟩
    rw [joined_cons] at hcons
    exact ends_andThen.mpr (.inr ⟨n, hn, hcons⟩)
  | optNone _ ih => exact ⟨_, eval_opt_yields.mpr (.inr ⟨ih, rfl⟩), rfl⟩
  | optSome _ ih =>
    obtain ⟨n, hn, htook⟩ := ih
    exact ⟨n, eval_opt_yields.mpr (.inl hn), htook⟩
  | untilNil =>
    rw [eval_untilEmpty, drain_of_isEmpty rfl]
    exact ends_joined_nil.mpr rfl
  | @untilNone rule tokens hne _ ih =>
    obtain ⟨e, he⟩ := ih
    have hempty : p.recognizer.domain.isEmpty tokens = false := List.isEmpty_eq_false_iff.mpr hne
    exact ⟨e, eval_untilEmpty_failsWith.mpr ((drain_failsWith hempty).mpr (.inl he))⟩
  | @untilCons rule tokens _ _ _ hne _ _ ihfirst ihothers =>
    obtain ⟨n, hn, ⟨⟩⟩ := ihfirst
    have hempty : p.recognizer.domain.isEmpty tokens = false := List.isEmpty_eq_false_iff.mpr hne
    rw [eval_untilEmpty] at ihothers ⊢
    rw [drain_eq, if_neg (Bool.eq_false_iff.mp hempty)]
    exact ends_joined_andThen.mpr (.inr ⟨n, hn, ends_joined_cons.mpr ⟨_, ihothers, rfl⟩⟩)

/-- A rule has an outcome just where its evaluation comes to an end, and it has no other one. -/
theorem greedy_iff_ends {rule : Rule String} {tokens : List Token} {outcome : Outcome}
    : Greedy p.rules rule tokens outcome ↔ Ends tokens (p.recognizer.eval rule tokens) outcome :=
  ⟨ends_of_greedy, greedy_of_evalWithin⟩

end Evaluation

end Parser

end GrammarKit
