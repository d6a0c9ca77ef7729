import GrammarKit.Proofs.Recognizer.Outcome

/-!
This module contains a criterion for the evaluation of rules to come to an end: what is repeated
takes something of the input, and rules that call each other at the same place do so in a certain
order of their names.
-/

namespace GrammarKit

open Recognizer Domain

variable {ι ω μ : Type}

namespace Rule

/-- The first rule stands somewhere in the second one. -/
inductive Occurs (inner : μ → List (Rule μ)) (sub : Rule μ) : Rule μ → Prop where
  | here : Occurs inner sub sub
  | inside {part rule : Rule μ} (hpart : part ∈ rule.parts inner) (h : Occurs inner sub part) :
      Occurs inner sub rule

/-- The first rule is repeated somewhere in the second one. -/
def Repeats (inner : μ → List (Rule μ)) (body rule : Rule μ) : Prop :=
  Occurs inner (.star body) rule ∨ Occurs inner (.plus body) rule ∨
    Occurs inner (.untilEmpty body) rule

/-- The rule may call that of the name before it takes anything of the input. -/
inductive Leads (inner : μ → List (Rule μ)) (nullable : Rule μ → Prop) :
    Rule μ → String → Prop where
  | atom {a : μ} {part : Rule μ} {name : String} (hpart : part ∈ inner a)
      (h : Leads inner nullable part name) : Leads inner nullable (.atom a) name
  | ref {name : String} : Leads inner nullable (.ref name) name
  | seqHead {rule : Rule μ} {rules : List (Rule μ)} {name : String}
      (h : Leads inner nullable rule name) : Leads inner nullable (.seq (rule :: rules)) name
  | seqTail {rule : Rule μ} {rules : List (Rule μ)} {name : String} (hnull : nullable rule)
      (h : Leads inner nullable (.seq rules) name) : Leads inner nullable (.seq (rule :: rules)) name
  | alt {rule : Rule μ} {rules : List (Rule μ)} {name : String} (hmem : rule ∈ rules)
      (h : Leads inner nullable rule name) : Leads inner nullable (.alt rules) name
  | star {rule : Rule μ} {name : String} (h : Leads inner nullable rule name) :
      Leads inner nullable (.star rule) name
  | plus {rule : Rule μ} {name : String} (h : Leads inner nullable rule name) :
      Leads inner nullable (.plus rule) name
  | opt {rule : Rule μ} {name : String} (h : Leads inner nullable rule name) :
      Leads inner nullable (.opt rule) name
  | untilEmpty {rule : Rule μ} {name : String} (h : Leads inner nullable rule name) :
      Leads inner nullable (.untilEmpty rule) name

/-- Nothing is repeated that may take nothing. -/
def Productive (inner : μ → List (Rule μ)) (nullable : Rule μ → Prop) (rule : Rule μ) : Prop :=
  ∀ body, Repeats inner body rule → ¬ nullable body

variable {inner : μ → List (Rule μ)} {nullable : Rule μ → Prop}

theorem occurs_iff {sub rule : Rule μ}
    : Occurs inner sub rule ↔ sub = rule ∨ ∃ part ∈ rule.parts inner, Occurs inner sub part := by
  constructor
  · intro h
    cases h with
    | here => exact .inl rfl
    | inside hpart h => exact .inr ⟨_, hpart, h⟩
  · rintro (rfl | ⟨part, hpart, h⟩)
    · exact .here
    · exact .inside hpart h

theorem Repeats.inside {body part rule : Rule μ} (hpart : part ∈ rule.parts inner)
    (h : Repeats inner body part)
    : Repeats inner body rule := by
  rcases h with h | h | h
  · exact .inl (.inside hpart h)
  · exact .inr (.inl (.inside hpart h))
  · exact .inr (.inr (.inside hpart h))

theorem Productive.part {part rule : Rule μ} (h : Productive inner nullable rule)
    (hpart : part ∈ rule.parts inner)
    : Productive inner nullable part :=
  fun body hbody => h body (hbody.inside hpart)

theorem Productive.of_parts {rule : Rule μ}
    (hparts : ∀ part ∈ rule.parts inner, Productive inner nullable part)
    (hself : ∀ body, rule = .star body ∨ rule = .plus body ∨ rule = .untilEmpty body →
      ¬ nullable body)
    : Productive inner nullable rule := by
  intro body hbody
  rcases hbody with h | h | h
  · cases h with
    | here => exact hself body (.inl rfl)
    | inside hpart h => exact hparts _ hpart body (.inl h)
  · cases h with
    | here => exact hself body (.inr (.inl rfl))
    | inside hpart h => exact hparts _ hpart body (.inr (.inl h))
  · cases h with
    | here => exact hself body (.inr (.inr rfl))
    | inside hpart h => exact hparts _ hpart body (.inr (.inr h))

theorem Productive.seq_tail {rule : Rule μ} {rules : List (Rule μ)}
    (h : Productive inner nullable (.seq (rule :: rules)))
    : Productive inner nullable (.seq rules) :=
  .of_parts (fun _ hpart => h.part (List.mem_cons_of_mem _ hpart)) (by simp)

theorem Productive.star_of_plus {rule : Rule μ} (h : Productive inner nullable (.plus rule))
    : Productive inner nullable (.star rule) := by
  refine .of_parts (fun _ hpart => h.part hpart) ?_
  intro body hbody
  have hrule : body = rule := by simpa [eq_comm] using hbody
  rw [hrule]
  exact h rule (.inr (.inl .here))

end Rule

namespace Recognizer

open Rule

/--
A table of rules whose evaluation comes to an end, where `nullable` holds of all rules that may take
nothing, and `rank` tells the order in which rules call each other at the same place.
-/
structure Descending (m : Recognizer ι ω μ) [Lawful m.domain] (nullable : Rule μ → Prop)
    (rank : String → Nat) : Prop where
  atom : ∀ a input, (∀ part ∈ Lawful.inner m.domain a, (m.eval part input).Settles) →
    (m.domain.atom m.eval a input).Settles
  takes : ∀ rule input output, (m.eval rule input).Yields output → ¬ nullable rule →
    m.domain.size (m.domain.advance input output) < m.domain.size input
  productive : ∀ name body, m.rules.get? name = some body →
    Productive (Lawful.inner m.domain) nullable body
  descends : ∀ name body, m.rules.get? name = some body → ∀ other,
    Leads (Lawful.inner m.domain) nullable body other → rank other < rank name

namespace Descending

variable {m : Recognizer ι ω μ} [Lawful m.domain] {nullable : Rule μ → Prop} {rank : String → Nat}

/-- All productive rules come to an end on inputs that are smaller than `size`. -/
def SettlesBelow (m : Recognizer ι ω μ) [Lawful m.domain] (nullable : Rule μ → Prop) (size : Nat) :
    Prop :=
  ∀ rule, Productive (Lawful.inner m.domain) nullable rule → ∀ input, m.domain.size input < size →
    (m.eval rule input).Settles

theorem advance_size (m : Recognizer ι ω μ) [Lawful m.domain] {rule : Rule μ} {input : ι}
    {output : ω} (h : (m.eval rule input).Yields output)
    : m.domain.size (m.domain.advance input output) < m.domain.size input ∨
        m.domain.advance input output = input := by
  have hrest := Lawful.rest_advance (m.eval_fits rule input output h)
  rcases Nat.lt_or_eq_of_le (Lawful.size_le hrest) with hlt | heq
  · exact .inl hlt
  · exact .inr (Lawful.eq_of_size_eq hrest (Lawful.rest_refl input) heq)

variable (hm : m.Descending nullable rank) {input : ι}
variable (hbelow : SettlesBelow m nullable (m.domain.size input))

include hm hbelow in
theorem sequence_settles {rules : List (Rule μ)}
    (hgood : Productive (Lawful.inner m.domain) nullable (.seq rules))
    (hrules : ∀ rule ∈ rules, (∀ name, Leads (Lawful.inner m.domain) nullable rule name →
      (m.eval (.ref name) input).Settles) → (m.eval rule input).Settles)
    (hrefs : ∀ name, Leads (Lawful.inner m.domain) nullable (.seq rules) name →
      (m.eval (.ref name) input).Settles)
    : (sequence m.domain m.eval rules input).Settles := by
  induction rules with
  | nil => exact Run.ok_settles _
  | cons rule rules ih =>
    rw [sequence_cons_settles]
    refine ⟨hrules rule (by simp) fun name h => hrefs name (.seqHead h), fun output houtput => ?_⟩
    rcases advance_size m houtput with hlt | hsame
    · exact eval_seq_settles.mp (hbelow _ hgood.seq_tail _ hlt)
    · -- nothing was taken, so the rest of the row may call what the row itself may call
      have hnull : nullable rule := by
        have htakes := hm.takes rule input output houtput
        rw [hsame] at htakes
        exact Classical.byContradiction fun h => Nat.lt_irrefl _ (htakes h)
      rw [hsame]
      exact ih hgood.seq_tail (fun r hr => hrules r (by simp [hr]))
        fun name h => hrefs name (.seqTail hnull h)

include hm hbelow in
theorem loop_settles_of_once {rule : Rule μ}
    (hgood : Productive (Lawful.inner m.domain) nullable (.star rule))
    (honce : (m.eval rule input).Settles)
    : (m.loop rule input).Settles := by
  rw [loop_settles]
  refine ⟨honce, fun output houtput => ?_⟩
  have hlt := hm.takes rule input output houtput (hgood rule (.inl .here))
  exact eval_star_settles.mp (hbelow _ hgood _ hlt)

include hm hbelow in
theorem drain_settles_of_once {rule : Rule μ}
    (hgood : Productive (Lawful.inner m.domain) nullable (.untilEmpty rule))
    (honce : (m.eval rule input).Settles)
    : (m.drain rule input).Settles := by
  cases hempty : m.domain.isEmpty input with
  | true =>
    rw [drain_of_isEmpty hempty]
    apply Run.ok_settles
  | false =>
    rw [drain_settles hempty]
    refine ⟨honce, fun output houtput => ?_⟩
    have hlt := hm.takes rule input output houtput (hgood rule (.inr (.inr .here)))
    exact eval_untilEmpty_settles.mp (hbelow _ hgood _ hlt)

include hm hbelow in
theorem eval_settles_of_leads {rule : Rule μ}
    (hgood : Productive (Lawful.inner m.domain) nullable rule)
    (hrefs : ∀ name, Leads (Lawful.inner m.domain) nullable rule name →
      (m.eval (.ref name) input).Settles)
    : (m.eval rule input).Settles := by
  -- on the depth of the rule; where something has been taken, `hbelow` deals with the smaller rest
  induction hn : rule.depth m.domain.atomDepth using Nat.strongRecOn generalizing rule with
  | _ n ih =>
    subst hn
    have hparts : ∀ part ∈ rule.parts (Lawful.inner m.domain),
        (∀ name, Leads (Lawful.inner m.domain) nullable part name →
          (m.eval (.ref name) input).Settles) →
        (m.eval part input).Settles :=
      fun part hpart h => ih _ (depth_part_lt hpart) (hgood.part hpart) h rfl
    cases rule with
    | atom a =>
      rw [eval_atom]
      apply hm.atom a input
      exact fun part hpart => hparts part hpart fun name h => hrefs name (.atom hpart h)
    | ref name => exact hrefs name .ref
    | seq rules =>
      rw [eval_seq_settles]
      exact hm.sequence_settles hbelow hgood hparts hrefs
    | alt rules =>
      rw [eval_alt_settles]
      exact fun rule hrule => hparts rule hrule fun name h => hrefs name (.alt hrule h)
    | star rule =>
      rw [eval_star_settles]
      apply hm.loop_settles_of_once hbelow hgood
      exact hparts rule (by simp [parts]) fun name h => hrefs name (.star h)
    | plus rule =>
      rw [eval_plus_settles]
      apply hm.loop_settles_of_once hbelow hgood.star_of_plus
      exact hparts rule (by simp [parts]) fun name h => hrefs name (.plus h)
    | opt rule =>
      rw [eval_opt_settles]
      exact hparts rule (by simp [parts]) fun name h => hrefs name (.opt h)
    | untilEmpty rule =>
      rw [eval_untilEmpty_settles]
      apply hm.drain_settles_of_once hbelow hgood
      exact hparts rule (by simp [parts]) fun name h => hrefs name (.untilEmpty h)

include hm hbelow in
theorem eval_ref_settles_of_rank (name : String) : (m.eval (.ref name) input).Settles := by
  -- on the rank of the name: what is called at one and the same input ranks lower
  induction hn : rank name using Nat.strongRecOn generalizing name with
  | _ n ih =>
    subst hn
    apply eval_ref_settles
    intro body hbody
    apply hm.eval_settles_of_leads hbelow (hm.productive name body hbody)
    intro other hother
    exact ih (rank other) (hm.descends name body hbody other hother) other rfl

include hm in
theorem eval_settles {rule : Rule μ} (hgood : Productive (Lawful.inner m.domain) nullable rule)
    (input : ι)
    : (m.eval rule input).Settles := by
  -- on how much of the input is left; ranks and depths only matter where nothing is taken
  induction hn : m.domain.size input using Nat.strongRecOn generalizing rule input with
  | _ n ih =>
    subst hn
    have hbelow : SettlesBelow m nullable (m.domain.size input) :=
      fun rule hrule input hlt => ih _ hlt hrule input rfl
    exact hm.eval_settles_of_leads hbelow hgood fun name _ => hm.eval_ref_settles_of_rank hbelow name

end Descending

end Recognizer

end GrammarKit
