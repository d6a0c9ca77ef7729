import GrammarKit.Proofs.Recognizer.Termination
import GrammarKit.Proofs.Table
import Mathlib.Algebra.GroupWithZero.Nat
import Mathlib.Data.Finset.Card
import Mathlib.Logic.Relation

/-!
This module contains a criterion for evaluation to come to an end that speaks of the table of rules
alone: nothing is repeated that is nullable, and no name calls itself before something is taken.
-/

namespace GrammarKit

open Recognizer Domain Rule

variable {ι ω μ : Type}

namespace Rule

/-- The rule may yield without taking anything, as far as rules and `blank` primitives tell. -/
inductive Nullable (blank : μ → Prop) (rules : Table (Rule μ)) : Rule μ → Prop where
  | atom {a : μ} (h : blank a) : Nullable blank rules (.atom a)
  | ref {name : String} {body : Rule μ} (hget : rules.get? name = some body)
      (h : Nullable blank rules body) : Nullable blank rules (.ref name)
  | seq {members : List (Rule μ)} (h : ∀ rule ∈ members, Nullable blank rules rule) :
      Nullable blank rules (.seq members)
  | alt {rule : Rule μ} {choices : List (Rule μ)} (hmem : rule ∈ choices)
      (h : Nullable blank rules rule) : Nullable blank rules (.alt choices)
  | star {rule : Rule μ} : Nullable blank rules (.star rule)
  | plus {rule : Rule μ} (h : Nullable blank rules rule) : Nullable blank rules (.plus rule)
  | opt {rule : Rule μ} : Nullable blank rules (.opt rule)
  | untilEmpty {rule : Rule μ} : Nullable blank rules (.untilEmpty rule)

section Parts

variable {blank : μ → Prop} {rules : Table (Rule μ)}

theorem nullable_atom {a : μ} : Nullable blank rules (.atom a) ↔ blank a :=
  ⟨fun h => by cases h; assumption, .atom⟩

theorem nullable_ref {name : String}
    : Nullable blank rules (.ref name) ↔
        ∃ body, rules.get? name = some body ∧ Nullable blank rules body :=
  ⟨fun h => by cases h with | ref hget h => exact ⟨_, hget, h⟩, fun ⟨_, hget, h⟩ => .ref hget h⟩

theorem nullable_seq {members : List (Rule μ)}
    : Nullable blank rules (.seq members) ↔ ∀ rule ∈ members, Nullable blank rules rule :=
  ⟨fun h => by cases h; assumption, .seq⟩

theorem nullable_alt {choices : List (Rule μ)}
    : Nullable blank rules (.alt choices) ↔ ∃ rule ∈ choices, Nullable blank rules rule :=
  ⟨fun h => by cases h with | alt hmem h => exact ⟨_, hmem, h⟩, fun ⟨_, hmem, h⟩ => .alt hmem h⟩

variable {inner : μ → List (Rule μ)} {nullable : Rule μ → Prop} {name : String}

theorem leads_atom {a : μ}
    : Leads inner nullable (.atom a) name ↔ ∃ part ∈ inner a, Leads inner nullable part name :=
  ⟨fun h => by cases h with | atom hmem h => exact ⟨_, hmem, h⟩, fun ⟨_, hmem, h⟩ => .atom hmem h⟩

theorem leads_ref {other : String} : Leads inner nullable (.ref other) name ↔ name = other :=
  ⟨fun h => by cases h; rfl, fun h => h ▸ .ref⟩

theorem leads_seq_cons {rule : Rule μ} {members : List (Rule μ)}
    : Leads inner nullable (.seq (rule :: members)) name ↔
        Leads inner nullable rule name ∨
          nullable rule ∧ Leads inner nullable (.seq members) name := by
  constructor
  · intro h
    cases h with
    | seqHead h => exact .inl h
    | seqTail hnull h => exact .inr ⟨hnull, h⟩
  · rintro (h | ⟨hnull, h⟩)
    · exact .seqHead h
    · exact .seqTail hnull h

theorem leads_alt {choices : List (Rule μ)}
    : Leads inner nullable (.alt choices) name ↔
        ∃ rule ∈ choices, Leads inner nullable rule name :=
  ⟨fun h => by cases h with | alt hmem h => exact ⟨_, hmem, h⟩, fun ⟨_, hmem, h⟩ => .alt hmem h⟩

theorem leads_plus {rule : Rule μ}
    : Leads inner nullable (.plus rule) name ↔ Leads inner nullable rule name :=
  ⟨fun h => by cases h; assumption, .plus⟩

theorem productive_iff {rule : Rule μ}
    : Productive inner nullable rule ↔
        (∀ part ∈ rule.parts inner, Productive inner nullable part) ∧
          ∀ body, rule = .star body ∨ rule = .plus body ∨ rule = .untilEmpty body →
            ¬ nullable body := by
  constructor
  · refine fun h => ⟨fun part hpart => h.part hpart, ?_⟩
    rintro body (rfl | rfl | rfl)
    · exact h body (.inl .here)
    · exact h body (.inr (.inl .here))
    · exact h body (.inr (.inr .here))
  · exact fun ⟨hparts, hself⟩ => .of_parts hparts hself

theorem productive_ref : Productive inner nullable (.ref name) := by
  rw [productive_iff]
  simp [parts]

theorem productive_atom {a : μ}
    : Productive inner nullable (.atom a) ↔ ∀ part ∈ inner a, Productive inner nullable part := by
  rw [productive_iff]
  simp [parts]

theorem productive_seq {members : List (Rule μ)}
    : Productive inner nullable (.seq members) ↔
        ∀ rule ∈ members, Productive inner nullable rule := by
  rw [productive_iff]
  simp [parts]

theorem productive_alt {choices : List (Rule μ)}
    : Productive inner nullable (.alt choices) ↔
        ∀ rule ∈ choices, Productive inner nullable rule := by
  rw [productive_iff]
  simp [parts]

theorem productive_star {rule : Rule μ}
    : Productive inner nullable (.star rule) ↔
        Productive inner nullable rule ∧ ¬ nullable rule := by
  rw [productive_iff]
  simp [parts]

theorem productive_plus {rule : Rule μ}
    : Productive inner nullable (.plus rule) ↔
        Productive inner nullable rule ∧ ¬ nullable rule := by
  rw [productive_iff]
  simp [parts]

end Parts

end Rule

namespace Table

/-- The rule of the first name may call that of the second one before it takes anything. -/
def LeftCalls (inner : μ → List (Rule μ)) (blank : μ → Prop) (rules : Table (Rule μ))
    (name other : String) : Prop :=
  ∃ body, rules.get? name = some body ∧ Leads inner (Nullable blank rules) body other

/-- Nothing is repeated that is nullable, and no name comes back to itself by left calls. -/
structure Grounded (inner : μ → List (Rule μ)) (blank : μ → Prop) (rules : Table (Rule μ)) :
    Prop where
  productive : ∀ name body, rules.get? name = some body →
    Productive inner (Nullable blank rules) body
  acyclic : ∀ name, ¬ Relation.TransGen (LeftCalls inner blank rules) name name

section Rank

variable {inner : μ → List (Rule μ)} {blank : μ → Prop} {rules : Table (Rule μ)}

open Classical in
/-- The names of the table to which left calls lead from a name. -/
noncomputable def leftOf (inner : μ → List (Rule μ)) (blank : μ → Prop) (rules : Table (Rule μ))
    (name : String) : Finset String :=
  rules.names.toFinset.filter (Relation.TransGen (LeftCalls inner blank rules) name)

/-- A name without a rule calls nothing, so it ranks below all that have one. -/
noncomputable def leftRank (inner : μ → List (Rule μ)) (blank : μ → Prop) (rules : Table (Rule μ))
    (name : String) : Nat :=
  if rules.contains name then (leftOf inner blank rules name).card + 1 else 0

theorem mem_leftOf {name other : String}
    : other ∈ leftOf inner blank rules name ↔
        other ∈ rules.names ∧ Relation.TransGen (LeftCalls inner blank rules) name other := by
  classical
  simp [leftOf]

theorem leftOf_ssubset (h : rules.Grounded inner blank) {name other : String}
    (hcalls : LeftCalls inner blank rules name other) (hother : other ∈ rules.names)
    : leftOf inner blank rules other ⊂ leftOf inner blank rules name := by
  rw [Finset.ssubset_iff_of_subset]
  · -- the called name itself is what is new
    refine ⟨other, mem_leftOf.mpr ⟨hother, .single hcalls⟩, fun hmem => ?_⟩
    exact h.acyclic other (mem_leftOf.mp hmem).2
  · intro third hthird
    obtain ⟨hmem, hreach⟩ := mem_leftOf.mp hthird
    exact mem_leftOf.mpr ⟨hmem, .head hcalls hreach⟩

theorem leftRank_lt (h : rules.Grounded inner blank) {name other : String}
    (hcalls : LeftCalls inner blank rules name other)
    : leftRank inner blank rules other < leftRank inner blank rules name := by
  obtain ⟨body, hbody, _⟩ := id hcalls
  have hname : rules.contains name = true := by simp [contains, hbody]
  rw [leftRank, leftRank, if_pos hname]
  split
  · next hother =>
    have hmem : other ∈ rules.names := mem_names_iff.mpr (Option.isSome_iff_exists.mp hother)
    have := Finset.card_lt_card (leftOf_ssubset h hcalls hmem)
    omega
  · omega

/-- Conversely, left calls that go down in some order never come back. -/
theorem acyclic_of_rank (rank : String → Nat)
    (h : ∀ name other, LeftCalls inner blank rules name other → rank other < rank name)
    (name : String)
    : ¬ Relation.TransGen (LeftCalls inner blank rules) name name := by
  have hlt : ∀ other, Relation.TransGen (LeftCalls inner blank rules) name other →
      rank other < rank name := by
    intro other hreach
    induction hreach with
    | single hcalls => exact h _ _ hcalls
    | tail _ hcalls ih => exact Nat.lt_trans (h _ _ hcalls) ih
  exact fun hcycle => Nat.lt_irrefl _ (hlt name hcycle)

end Rank

end Table

namespace Domain

/--
How much of the input an output accounts for. Primitives that may account for nothing are `blank`.
-/
structure Measured (d : Domain ι ω μ) [Lawful d] (blank : μ → Prop) (amount : ω → Nat) : Prop where
  amount_join : ∀ outputs, amount (d.join outputs) = (outputs.map amount).sum
  amount_label : ∀ name output, amount (d.label name output) = amount output
  blank_of_yields : ∀ {ev a input output}, (d.atom ev a input).Yields output →
    amount output = 0 → blank a
  size_lt : ∀ {input output}, Lawful.Fits d input output → amount output ≠ 0 →
    d.size (d.advance input output) < d.size input
  atom_settles : ∀ {ev a input}, (∀ part ∈ Lawful.inner d a, (ev part input).Settles) →
    (d.atom ev a input).Settles

end Domain

namespace Recognizer

variable {m : Recognizer ι ω μ} {blank : μ → Prop} {amount : ω → Nat}

theorem nullable_of_each {rules : List (Rule μ)} {input : ι} {outputs : List ω}
    (h : Each m.domain (fun rule _ output => amount output = 0 → Nullable blank m.rules rule) rules
      input outputs)
    (hzero : (outputs.map amount).sum = 0)
    : ∀ rule ∈ rules, Nullable blank m.rules rule := by
  induction h with
  | nil => simp
  | cons first _ ih =>
    simp only [List.map_cons, List.sum_cons, Nat.add_eq_zero_iff] at hzero
    exact List.forall_mem_cons.mpr ⟨first hzero.1, ih hzero.2⟩

variable [Lawful m.domain] (hd : m.domain.Measured blank amount)

include hd in
/-- What yields without taking anything is nullable. -/
theorem closed_nullable
    : m.Closed fun rule _ output => amount output = 0 → Nullable blank m.rules rule where
  atom _ h hzero := .atom (hd.blank_of_yields h hzero)
  ref hget h hzero := by
    rw [hd.amount_join] at hzero
    exact .ref hget (h (by simpa [hd.amount_label] using hzero))
  seq h hzero := by
    rw [hd.amount_join] at hzero
    exact .seq (nullable_of_each h hzero)
  alt hmem h hzero := .alt hmem (h hzero)
  star _ _ := .star
  plus hfirst _ hzero := by
    rw [hd.amount_join, List.map_cons, List.sum_cons, Nat.add_eq_zero_iff] at hzero
    exact .plus (hfirst hzero.1)
  optSome _ _ := .opt
  optNone _ := .opt
  untilEmpty _ _ := .untilEmpty

variable (hrules : m.rules.Grounded (Lawful.inner m.domain) blank)

include hd hrules in
theorem descending_of_grounded
    : m.Descending (Nullable blank m.rules)
        (Table.leftRank (Lawful.inner m.domain) blank m.rules) where
  atom _ _ h := hd.atom_settles h
  takes rule input output hyields hnull :=
    hd.size_lt (m.eval_fits rule input output hyields) fun hzero =>
      hnull ((closed_nullable hd).eval hyields hzero)
  productive := hrules.productive
  descends _ body hbody _ hleads := Table.leftRank_lt hrules ⟨body, hbody, hleads⟩

include hd hrules in
theorem eval_settles_of_grounded {rule : Rule μ}
    (hrule : Productive (Lawful.inner m.domain) (Nullable blank m.rules) rule) (input : ι)
    : (m.eval rule input).Settles :=
  (descending_of_grounded hd hrules).eval_settles hrule input

include hd hrules in
theorem apply_settles_of_grounded (name : String) (input : ι) : (m.apply name input).Settles := by
  rw [apply_eq_call]
  apply call_settles
  intro body hbody
  exact eval_settles_of_grounded hd hrules (hrules.productive name body hbody) input

end Recognizer

end GrammarKit
